/- # BookInvariants — what holds of the books in every run.

Each result is an invariant of the moves of `BookRuns`: one lemma says what a committed or marked
state inherits from its base, one that the writes of a call keep the invariant of the file, and the
run follows by induction over the activities. -/
import CryptoPilot.Live.BookRuns

namespace CryptoPilot.Live

open CryptoPilot.Lib List Except

theorem BookSys.run_invariant {st : LiveSettings} {Inv : BookSys → Prop} {p : BookActivity → Prop}
    (hstep : ∀ sys sys' act, p act → Inv sys → Moves st sys act sys' → Inv sys') :
    ∀ {acts : List (BookActivity × List IoStep)} {sys : BookSys}, (∀ a ∈ acts, p a.1) → Inv sys →
      Inv (BookSys.run st sys acts) := by
  intro acts
  induction acts with
  | nil =>
    intro sys _ h; exact h
  | cons a rest ih =>
    intro sys hp h
    have hnext := hstep sys _ a.1 (hp a mem_cons_self) h (BookSys.step_moves a)
    exact ih (fun a' ha' => hp a' (mem_cons_of_mem a ha')) hnext

/-! ## The journal -/

structure JournalOrdered (j : Journal) : Prop where
  sequenced : Sequenced j.fills
  below : ∀ f ∈ j.fills, f.fillSeq < j.nextFillSeq

theorem JournalOrdered.empty : JournalOrdered Journal.empty :=
  ⟨nodup_nil, fun _ hf => absurd hf not_mem_nil⟩

variable {j : Journal}

theorem JournalOrdered.attempt (h : JournalOrdered j) (a : JournalAttempt) :
    JournalOrdered (j.apply (.attempt a)) := ⟨h.sequenced, h.below⟩

theorem JournalOrdered.fill {draft : FillDraft} {f : JournalFill} (h : JournalOrdered j)
    (hnew : j.newFill draft = .ok f) :
    JournalOrdered (j.apply (.fill f)) ∧ f.fillSeq = j.nextFillSeq ∧
      (j.nextFillSeq : ℤ) < (j.apply (.fill f)).nextFillSeq := by
  obtain ⟨rfl, -⟩ := Journal.newFill_eq_ok hnew
  have hnext : (j.nextFillSeq : ℤ) < (max j.nextFillSeq ((j.nextFillSeq : ℤ) + 1).toNat : ℕ) := by
    omega
  refine ⟨⟨?_, fun g hg => ?_⟩, rfl, hnext⟩
  · rw [Sequenced, Journal.apply_fill_fills, map_append, map_singleton, nodup_append]
    refine ⟨h.sequenced, nodup_singleton _, ?_⟩
    rintro q hq q' hq' rfl
    obtain ⟨g, hg, hgq⟩ := mem_map.mp hq
    rw [mem_singleton] at hq'
    have hlt := h.below g hg; simp only at hgq hq'; omega
  · rw [Journal.apply_fill_fills, mem_append, mem_singleton] at hg
    rcases hg with hg | rfl
    · exact (h.below g hg).trans hnext
    · exact hnext

theorem Commits.applied_lt {c : CommitConfig} {base s : LedgerState}
    {batch : List JournalFill} (h : Commits c base (pendingFills base.journalAppliedFillSeq batch) s)
    (hj : JournalOrdered j) (hbatch : ∀ f ∈ batch, f ∈ j.fills) :
    base.journalAppliedFillSeq < s.journalAppliedFillSeq ∧ s.journalAppliedFillSeq < j.nextFillSeq := by
  have hpos := length_pos_iff.mpr h.nonempty
  have happlied := h.applied
  obtain ⟨f, hf, hfq⟩ := consecutive_covers h.runs
    (show base.journalAppliedFillSeq < s.journalAppliedFillSeq by omega) (by omega)
  rw [pendingFills, mem_insertionSort, mem_filter] at hf
  have := hj.below f (hbatch f hf.1); omega

theorem mem_of_mem_fillsAfter {w : ℤ} {f : JournalFill} (h : f ∈ j.fillsAfter w) :
    f ∈ j.fills := (mem_filter.mp h).1

theorem Marked.spec {s s' : LedgerState} (h : Marked j s s') :
    ∃ last ∈ freshJournalFills j s, s' = { s with journalRecordedFillSeq := last.fillSeq } := by
  obtain ⟨last, hlast, hmark⟩ := h
  unfold markFillsRecorded at hmark
  split_ifs at hmark
  · cases hmark
  · exact ⟨last, mem_of_getLast? hlast, (Option.some.inj (ok.inj hmark)).symm⟩

/-! ## The ledger is a fold of the journal -/

section Fold

variable {st : LiveSettings} {init : LedgerState}

/-- The state is the fold of the journal, and does not run ahead of it. -/
structure Folded (st : LiveSettings) (init : LedgerState) (j : Journal) (s : LedgerState) : Prop where
  fold : LedgerFold st.mode.suppressesMutations st.notionalEquityUsdt j.fills init s
  behind : init.journalAppliedFillSeq < s.journalAppliedFillSeq →
    s.journalAppliedFillSeq < j.nextFillSeq

variable {j : Journal} {s : LedgerState}

theorem Folded.congr {s s' : LedgerState} (h : Folded st init j s)
    (happlied : s'.journalAppliedFillSeq = s.journalAppliedFillSeq)
    (hheld : ∀ symbol, s'.held symbol = s.held symbol) (hcash : s'.cashUsdt = s.cashUsdt) : Folded st init j s' :=
  ⟨h.fold.congr happlied hheld hcash, by rw [happlied]; exact h.behind⟩

theorem Folded.attempt (h : Folded st init j s) (a : JournalAttempt) :
    Folded st init (j.apply (.attempt a)) s := ⟨h.fold, h.behind⟩

theorem Folded.saved (h : Folded st init j s) :
    Folded st init j s.saved := h.congr rfl s.saved_held rfl

variable {base s : LedgerState}

theorem Folded.commit {c : CommitConfig} {batch : List JournalFill} (h : Folded st init j base)
    (hj : JournalOrdered j) (htrack : c.trackCash = st.mode.suppressesMutations)
    (hcapital : c.startingCapital = st.notionalEquityUsdt) (hbatch : ∀ f ∈ batch, f ∈ j.fills)
    (hc : Commits c base (pendingFills base.journalAppliedFillSeq batch) s) :
    Folded st init j s := by
  have hfold := h.fold
  rw [← htrack, ← hcapital] at hfold
  have hnext := hfold.commit hj.sequenced hbatch hc
  rw [htrack, hcapital] at hnext; exact ⟨hnext, fun _ => (hc.applied_lt hj hbatch).2⟩

theorem Folded.committed {call : CommitCall} (h : Folded st init j base) (hj : JournalOrdered j)
    (hs : Committed st base call j s) : Folded st init j s := by
  cases hs with
  | kept => exact h
  | stamped => exact h.congr rfl (fun _ => rfl) rfl
  | folded hc => exact h.commit hj rfl rfl (fun f => mem_of_mem_fillsAfter) hc

theorem Folded.marked {s s' : LedgerState} (h : Folded st init j s) (hm : Marked j s s') : Folded st init j s' := by
  obtain ⟨last, -, rfl⟩ := hm.spec; exact h.congr rfl (fun _ => rfl) rfl

theorem Folded.fill {draft : FillDraft} {f : JournalFill}
    (h : Folded st init j s) (hj : JournalOrdered j) (hnew : j.newFill draft = .ok f) :
    Folded st init (j.apply (.fill f)) s := by
  obtain ⟨-, hseq, hnext⟩ := hj.fill hnew
  refine ⟨h.fold.grow fun hlt g hg => ?_, fun hlt => (h.behind hlt).trans hnext⟩
  rw [mem_singleton.mp hg, hseq]; exact h.behind hlt

structure FoldInv (st : LiveSettings) (init : LedgerState) (sys : BookSys) : Prop where
  ordered : JournalOrdered sys.disk.journal
  file : Folded st init sys.disk.journal sys.disk.ledger
  known : ∀ b ∈ sys.known, Folded st init sys.disk.journal b.state

/-- The writes of `_commit_and_record` keep the file a fold. -/
theorem Folded.bookWrites {base : LedgerState} {call : CommitCall} {d d' : Disk}
    (hbase : Folded st init j base) (hj : JournalOrdered j) (h : BookWrites st base call j d d')
    (hd : Folded st init j d.ledger) : Folded st init j d'.ledger := by
  induction h with
  | refl => exact hd
  | tail _ hw ih =>
    cases hw with
    | commit hs => exact (hbase.committed hj hs).saved
    | mark hs hev hm => exact ((hbase.committed hj hs).marked hm).saved
    | _ => exact ih

theorem FoldInv.step {sys sys' : BookSys} {act : BookActivity} (hact : act.foldsFills)
    (h : FoldInv st init sys) (hm : Moves st sys act sys') : FoldInv st init sys' := by
  cases hm with
  | fill recorded new simulated =>
    exact ⟨(h.ordered.fill new).1, h.file.fill h.ordered new, fun b hb => (h.known b hb).fill h.ordered new⟩
  | attempt a => exact ⟨h.ordered.attempt a, h.file.attempt a, fun b hb => (h.known b hb).attempt a⟩
  | idle script => exact ⟨h.ordered, h.file, h.known⟩
  | loads loaded script =>
    refine ⟨h.ordered, h.file, fun b hb => ?_⟩
    rcases mem_cons.mp hb with rfl | hb
    · unfold LedgerState.loaded at loaded
      split_ifs at loaded
      rw [← ok.inj loaded]; exact h.file.congr rfl (fun _ => rfl) rfl
    · exact h.known b hb
  | @saves b s io sys' base derives writes known =>
    have hs : Folded st init sys.disk.journal s := by
      cases derives with
      | same => exact h.known b base
      | batch track capital drawn commits =>
        exact (h.known b base).commit h.ordered track capital drawn commits
      | derisk since reasons => exact (h.known b base).congr rfl (fun _ => rfl) rfl
      | live books => cases hact
    obtain ⟨hj, -, -, -, hfile⟩ := writes.frame
    refine ⟨hj ▸ h.ordered, ?_, fun b' hb' => ?_⟩
    · rw [hj]
      rcases hfile with hfile | hfile <;> rw [hfile]
      · exact h.file
      · exact hs.saved
    · rw [hj]
      rcases known b' hb' with hold | rfl
      · exact h.known b' hold
      · exact hs
  | @books b call io sys' base calls writes known =>
    have hbase := h.known b base
    have hj : sys'.disk.journal = sys.disk.journal := (BookWrites.frame writes).1
    refine ⟨hj ▸ h.ordered, ?_, fun b' hb' => ?_⟩
    · rw [hj]; exact hbase.bookWrites h.ordered writes h.file
    · rw [hj]
      rcases known b' hb' with hold | ⟨s, rfl, hs | ⟨s', hs', -, hmark⟩⟩
      · exact h.known b' hold
      · exact hbase.committed h.ordered hs
      · exact (hbase.committed h.ordered hs').marked hmark
  | settles posts =>
    subst posts; cases hact

theorem commitJournalFills_raises {c : CommitConfig} {base : LedgerState} {fills : List JournalFill}
    (h : ¬ consecutive base.journalAppliedFillSeq
        (pendingFills base.journalAppliedFillSeq fills) ∨
      ∃ f ∈ pendingFills base.journalAppliedFillSeq fills, ¬ f.sided) (d : Disk) :
    commitJournalFills c base fills d = (.error .dataIntegrityError, d) := by
  rcases commitFold_cases c base fills with ⟨hnil, -⟩ | ⟨herr, -⟩ | ⟨s, -, hcommits⟩
  · rw [hnil] at h
    rcases h with h | ⟨f, hf, -⟩
    · exact absurd rfl h
    · cases hf
  · unfold commitJournalFills
    rw [herr]; rfl
  · rcases h with h | ⟨f, hf, hside⟩
    · exact absurd hcommits.runs h
    · exact absurd (hcommits.sided f hf) hside

/-- **Exactly-once ledger fold**, through every run of commits of any batches, commits with
evidence, crashes and retries. -/
theorem ledger_folds_each_fill_once (st : LiveSettings) (d : Disk) (hd : JournalOrdered d.journal)
    (acts : List (BookActivity × List IoStep)) (hacts : ∀ a ∈ acts, a.1.foldsFills) :
    LedgerFold st.mode.suppressesMutations st.notionalEquityUsdt
        (BookSys.run st { disk := d } acts).disk.journal.fills d.ledger
        (BookSys.run st { disk := d } acts).disk.ledger ∧
      ∀ (c : CommitConfig) (base : LedgerState) (fills : List JournalFill) (d' : Disk),
        (¬ consecutive base.journalAppliedFillSeq (pendingFills base.journalAppliedFillSeq fills) ∨
          ∃ f ∈ pendingFills base.journalAppliedFillSeq fills, ¬ f.sided) →
        commitJournalFills c base fills d' = (.error .dataIntegrityError, d') := by
  have hinit : FoldInv st d.ledger { disk := d } := by
    refine ⟨hd, ⟨LedgerFold.refl _ _ _ _, fun hlt => absurd hlt (lt_irrefl _)⟩, ?_⟩
    exact fun b hb => absurd hb not_mem_nil
  have hrun := BookSys.run_invariant (p := fun act => act.foldsFills)
    (fun sys sys' act hact h hm => FoldInv.step hact h hm) hacts hinit
  exact ⟨hrun.file.fold, fun c base fills d' h => commitJournalFills_raises h d'⟩

end Fold

/-! ### A simulated run -/

def paperSettings : LiveSettings where
  mode := .paper
  notionalEquityUsdt := 1000
  cashReconcileToleranceUsdt := 1 / 100
  recordRunId := ""
  delistingSettlementFeeBps := 0

def paperFill (side : String) (quantity price : ℚ) : FillDraft where
  kind := .execution
  attemptSeq := none
  symbol := "BTCUSDT"
  side := side
  quantity := quantity
  price := price
  feeBps := 5
  liquidity := "taker"
  reason := "immediate_taker"
  filledAt := 1000000
  clientOrderId := none
  legIndex := 0
  cumulativeExecutedQty := none
  simulated := true

def paperAttempt : AttemptContext where
  decisionTime := 999000
  runId := "19700112"
  mode := "paper"
  preTradeEquity := 1000
  sizingAnchor := "decision_ohlcv_close"
  decisionMarks := []
  startedAt := 999500

def allDone : List IoStep := replicate 12 ⟨0, .done⟩

/-- Two fills; the process dies after committing the first, and the next one finds the second too.
-/
def crashedRun : List (BookActivity × List IoStep) :=
  [(.recordFill (paperFill "BUY" 3 100), []),
   (.loadLedger, allDone),
   (.commitAndRecord 0 paperAttempt none none, [⟨0, .done⟩, ⟨0, .killed⟩]),
   (.recordFill (paperFill "SELL" 1 110), []),
   (.loadLedger, allDone),
   (.commitAndRecord 0 paperAttempt none none, allDone),
   (.loadLedger, allDone),
   (.commitBatch 0 none none [1, 0, 1], allDone)]

theorem ledger_folds_each_fill_once_crashed :
    (BookSys.run paperSettings {} crashedRun).disk.ledger.held "BTCUSDT" = 2 ∧
      LedgerFold true 1000 (BookSys.run paperSettings {} crashedRun).disk.journal.fills {}
        (BookSys.run paperSettings {} crashedRun).disk.ledger :=
  ⟨by decide +kernel,
    (ledger_folds_each_fill_once paperSettings {} JournalOrdered.empty crashedRun (by decide)).1⟩

/-! ## Evidence of every recorded fill, once -/

section Evidence

variable {st : LiveSettings}

theorem filter_eq_singleton {α κ : Type} {key : α → Option κ} {p : α → Bool} {k : κ} {x : α} :
    ∀ {xs : List α}, (xs.filterMap key).Nodup → (∀ y ∈ xs, p y → key y = some k) → x ∈ xs → p x →
      xs.filter p = [x] := by
  intro xs
  induction xs with
  | nil =>
    intro _ _ hx; cases hx
  | cons y rest ih =>
    intro hnodup hkey hx hp
    have hkey' : ∀ z ∈ rest, p z → key z = some k := fun z hz => hkey z (mem_cons_of_mem y hz)
    by_cases hy : p y
    · rw [filterMap_cons_some (hkey y mem_cons_self hy), nodup_cons] at hnodup
      have hnone : ∀ z ∈ rest, ¬ p z := fun z hz hpz =>
        hnodup.1 (mem_filterMap.mpr ⟨z, hz, hkey' z hz hpz⟩)
      rw [filter_cons_of_pos hy, filter_eq_nil_iff.mpr hnone]
      rcases mem_cons.mp hx with rfl | hx
      · rfl
      · exact absurd hp (hnone x hx)
    · have hrest : (rest.filterMap key).Nodup := by
        rw [filterMap_cons] at hnodup
        split at hnodup
        · exact hnodup
        · exact (nodup_cons.mp hnodup).2
      rcases mem_cons.mp hx with rfl | hx
      · exact absurd hp hy
      · rw [filter_cons_of_neg hy]; exact ih hrest hkey' hx hp

def RowOf (f : JournalFill) (row : FillEvent) : Prop := ∃ j fallback, row = fillEventOf j fallback f

def TradeOf (f : JournalFill) (r : TaxRecord) : Prop :=
  ∃ j fallback seq mode,
    r = simulatedTradeRecord (fillEventOf j fallback f) (journalFillId f.fillSeq) seq mode

structure JournalSound (st : LiveSettings) (j : Journal) : Prop extends JournalOrdered j where
  quantity : ∀ f ∈ j.fills, 0 < f.quantity
  simulated : ∀ f ∈ j.fills, f.simulated → st.mode.suppressesMutations

/-- The rows carry fills of the journal, and each identity at most once in its month. -/
structure RowsSound (d : Disk) : Prop where
  fillKeys : FillKeysDistinct d.fillRows
  fillRows : ∀ row ∈ d.fillRows, ∃ f ∈ d.journal.fills, RowOf f row
  taxKeys : KeysDistinct d.taxRows
  trades : ∀ r ∈ d.taxRows, ∀ q, r.recordId = simulatedTradeId q →
    ∃ f ∈ d.journal.fills, TradeOf f r

/-- The watermarks of a state are in order, and the fills it records have their evidence. -/
structure StateSound (d : Disk) (s : LedgerState) : Prop where
  recorded : s.journalRecordedFillSeq ≤ s.journalAppliedFillSeq
  applied : s.journalAppliedFillSeq ≤ d.journal.lastFillSeq
  rows : ∀ f ∈ d.journal.fills, f.evidenced → f.fillSeq ≤ s.journalRecordedFillSeq →
    ∃ row ∈ d.fillRows, row.fillId = some (journalFillId f.fillSeq)
  trades : ∀ f ∈ d.journal.fills, f.evidenced → f.fillSeq ≤ s.journalRecordedFillSeq → f.simulated →
    ∃ r ∈ d.taxRows, r.recordId = simulatedTradeId f.fillSeq

variable {d : Disk} {s : LedgerState} {call : CommitCall} {fallback : AttemptContext} {mode : String}
  {records : List TaxRecord} {f : JournalFill} {base : LedgerState} {market : Market}

theorem StateSound.congr {s s' : LedgerState} (h : StateSound d s)
    (happlied : s'.journalAppliedFillSeq = s.journalAppliedFillSeq)
    (hrecorded : s'.journalRecordedFillSeq = s.journalRecordedFillSeq) : StateSound d s' where
  recorded := by
    rw [hrecorded, happlied]; exact h.recorded
  applied := happlied.trans_le h.applied
  rows := by
    rw [hrecorded]; exact h.rows
  trades := by
    rw [hrecorded]; exact h.trades

theorem StateSound.saved (h : StateSound d s) : StateSound d s.saved :=
  h.congr rfl rfl

variable {d d' : Disk}

theorem StateSound.grow (h : StateSound d s) (hj : d'.journal = d.journal)
    (hfills : d.fillRows <+: d'.fillRows) (htax : d.taxRows <+: d'.taxRows) : StateSound d' s where
  recorded := h.recorded
  applied := by
    rw [hj]; exact h.applied
  rows f hf hev hle := by
    rw [hj] at hf
    obtain ⟨row, hrow, hid⟩ := h.rows f hf hev hle; exact ⟨row, hfills.subset hrow, hid⟩
  trades f hf hev hle hsim := by
    rw [hj] at hf
    obtain ⟨r, hr, hid⟩ := h.trades f hf hev hle hsim; exact ⟨r, htax.subset hr, hid⟩

theorem StateSound.committed {base s : LedgerState} (h : StateSound d base) (hj : JournalOrdered d.journal)
    (hs : Committed st base call d.journal s) : StateSound d s := by
  cases hs with
  | kept => exact h
  | stamped => exact h.congr rfl rfl
  | folded hc =>
    obtain ⟨hlt, hnext⟩ := hc.applied_lt hj fun f => mem_of_mem_fillsAfter
    have hrec := hc.recorded
    have hold := h.recorded
    refine ⟨by omega, ?_, ?_, ?_⟩
    · rw [Journal.lastFillSeq]; omega
    · rw [hrec]; exact h.rows
    · rw [hrec]; exact h.trades

theorem simulatedTradeId_mem {j : Journal} {fills : List JournalFill}
    (hbuilt : simulatedTaxRecords (fillEventsFromJournal j fills fallback) mode = .ok records)
    (hf : f ∈ fills) (hev : f.evidenced) (hqty : 0 < f.quantity) :
    ∃ r ∈ records, r.recordId = simulatedTradeId f.fillSeq := by
  obtain ⟨results, hresults, hsorted⟩ := bind_eq_ok.mp hbuilt
  have hmem : fillEventOf j fallback f ∈ fillEventsFromJournal j fills fallback :=
    mem_map_of_mem (mem_filter.mpr ⟨hf, hev⟩)
  obtain ⟨ro, hro, hrec⟩ := forall₂_exists_right (forall₂_of_mapM_eq_ok hresults) hmem
  have hsigned : f.signedQty ≠ 0 := by
    unfold JournalFill.signedQty
    split
    · exact hqty.ne'
    · exact neg_ne_zero.mpr hqty.ne'
  rcases simulatedTaxRecord_fillEventOf hrec with ⟨hzero, -⟩ | ⟨-, -, seq, rfl⟩
  · exact absurd hzero hsigned
  · have hmem' := mem_filterMap.mpr ⟨_, hro, (rfl : id (some _) = some _)⟩
    rw [← mem_insertionSort (fun a b : TaxRecord => a.eventTime ≤ b.eventTime)] at hmem'
    exact ⟨_, ok.inj hsorted ▸ hmem', rfl⟩

/-- **Marking a state whose evidence is complete.** -/
theorem StateSound.marked {s s' : LedgerState} (h : StateSound d s)
    (hj : JournalSound st d.journal) (hev : Evidenced st call d.journal s d)
    (hm : Marked d.journal s s') : StateSound d s' := by
  obtain ⟨last, hlast, rfl⟩ := hm.spec
  rw [freshJournalFills_eq, mem_between] at hlast
  -- a fill at or below the new watermark was recorded before, or is one of the fresh fills
  have hfresh : ∀ f ∈ d.journal.fills, f.fillSeq ≤ last.fillSeq →
      f.fillSeq ≤ s.journalRecordedFillSeq ∨ f ∈ freshJournalFills d.journal s := by
    intro f hf hle
    rw [freshJournalFills_eq, mem_between]
    by_cases hold : f.fillSeq ≤ s.journalRecordedFillSeq
    · exact Or.inl hold
    · exact Or.inr ⟨hf, by omega, by omega⟩
  refine ⟨hlast.2.2, h.applied, fun f hf he hle => ?_, fun f hf he hle hsim => ?_⟩
  · rcases hfresh f hf hle with hold | hnew
    · exact h.rows f hf he hold
    · have hmem : fillEventOf d.journal call.fallbackAttempt f ∈ evidenceEvents call d.journal s :=
        mem_map_of_mem (mem_filter.mpr ⟨hnew, he⟩)
      obtain ⟨row, hrow, hkey⟩ := mem_map.mp (hev.rows _ hmem)
      obtain ⟨fid, hfid, hpair⟩ := Option.map_eq_some_iff.mp
        (hkey.trans (rfl : _ = some (_, journalFillId f.fillSeq)))
      exact ⟨row, hrow, hfid.trans (congrArg some (Prod.mk.inj hpair).2)⟩
  · rcases hfresh f hf hle with hold | hnew
    · exact h.trades f hf he hold hsim
    · obtain ⟨records, hbuilt, hkeys⟩ := hev.trades (hj.simulated f hf hsim)
      obtain ⟨r, hr, hid⟩ := simulatedTradeId_mem hbuilt hnew he (hj.quantity f hf)
      obtain ⟨r', hr', hkey⟩ := mem_map.mp (hkeys r hr)
      exact ⟨r', hr', (Prod.mk.inj hkey).2.trans hid⟩

theorem RowsSound.fills (h : RowsSound d) (month : ℤ) : RowsSound { d with
      fillRows := d.fillRows ++ freshFills d.fillRows (evidenceEvents call d.journal s) month } where
  fillKeys := fillKeysDistinct_append _ _ h.fillKeys
  fillRows row hrow := by
    rcases mem_append.mp hrow with hold | hnew
    · exact h.fillRows row hold
    · obtain ⟨f, hf, rfl⟩ := mem_map.mp (mem_freshFills hnew).1
      have hfresh := (mem_filter.mp hf).1
      rw [freshJournalFills_eq, mem_between] at hfresh
      exact ⟨f, hfresh.1, d.journal, call.fallbackAttempt, rfl⟩
  taxKeys := h.taxKeys
  trades := h.trades

theorem RowsSound.tax (h : RowsSound d) (k : ℕ) (hrecords : ∀ r ∈ records, ∀ q, r.recordId = simulatedTradeId q →
      ∃ f ∈ d.journal.fills, TradeOf f r) :
    RowsSound { d with taxRows := d.taxRows ++ (rowsToAppend d.taxRows records).take k } where
  fillKeys := h.fillKeys
  fillRows := h.fillRows
  taxKeys := keysDistinct_append h.taxKeys k
  trades r hr q hq := by
    rcases mem_append.mp hr with hold | hnew
    · exact h.trades r hold q hq
    · exact hrecords r (mem_of_mem_rowsToAppend (mem_of_mem_take hnew)) q hq

theorem tradeOf_mem {j : Journal} {fills : List JournalFill} {r : TaxRecord}
    (hbuilt : simulatedTaxRecords (fillEventsFromJournal j fills fallback) mode = .ok records)
    (hr : r ∈ records) : ∃ f ∈ fills, TradeOf f r := by
  obtain ⟨results, hresults, hsorted⟩ := bind_eq_ok.mp hbuilt
  rw [← ok.inj hsorted, mem_insertionSort] at hr
  obtain ⟨ro, hro, hid⟩ := mem_filterMap.mp hr
  obtain rfl : ro = some r := hid
  obtain ⟨ev, hev, hrec⟩ := mem_of_mapM_eq_ok hresults (some r) hro
  obtain ⟨f, hf, rfl⟩ := mem_map.mp hev
  rcases simulatedTaxRecord_fillEventOf hrec with ⟨-, hnone⟩ | ⟨-, -, seq, hsome⟩
  · cases hnone
  · exact ⟨f, (mem_filter.mp hf).1, j, fallback, seq, mode, Option.some.inj hsome⟩

theorem fundingRecordId_ne_simulatedTradeId (runId symbol : String) (epoch : ℚ) (q : ℤ) :
    fundingRecordId runId symbol epoch ≠ simulatedTradeId q := by
  intro h
  unfold fundingRecordId simulatedTradeId at h
  simp only [String.append_assoc] at h
  exact append_ne_of_take 11 (by decide) (by decide) (by decide) _ _ h

theorem settlementRecord_recordId_ne {b : DelistingSettlement} {r : TaxRecord}
    (hr : delistingSettlementTaxRecord mode b = some r) (q : ℤ) : r.recordId ≠ simulatedTradeId q := by
  obtain ⟨price, -, rfl⟩ := Option.map_eq_some_iff.mp hr
  simp only [simulatedTradeId, String.append_assoc]
  exact append_ne_of_take 11 (by decide) (by decide) (by decide) _ _

structure EvidenceInv (st : LiveSettings) (sys : BookSys) : Prop where
  journal : JournalSound st sys.disk.journal
  rows : RowsSound sys.disk
  file : StateSound sys.disk sys.disk.ledger
  known : ∀ b ∈ sys.known, StateSound sys.disk b.state

/-- The writes of `_commit_and_record` keep the evidence sound. -/
theorem EvidenceInv.bookWrites (hj : JournalSound st d.journal) (hbase : StateSound d base)
    (h : BookWrites st base call d.journal d d') (hrows : RowsSound d)
    (hfile : StateSound d d.ledger) :
    RowsSound d' ∧ StateSound d' d'.ledger := by
  induction h with
  | refl => exact ⟨hrows, hfile⟩
  | @tail d₁ d₂ hpre hw ih =>
    obtain ⟨hrows₁, hfile₁⟩ := ih
    obtain ⟨hj₁, hfills, htax⟩ := BookWrites.frame hpre
    have hbase₁ : StateSound d₁ base := hbase.grow hj₁ hfills htax
    rw [← hj₁] at hw hj
    cases hw with
    | io script => exact ⟨⟨hrows₁.1, hrows₁.2, hrows₁.3, hrows₁.4⟩,
        hfile₁.grow rfl (prefix_refl _) (prefix_refl _)⟩
    | commit hs =>
      have hsound := (hbase₁.committed hj.toJournalOrdered hs).saved
      exact ⟨⟨hrows₁.1, hrows₁.2, hrows₁.3, hrows₁.4⟩, hsound.grow rfl (prefix_refl _) (prefix_refl _)⟩
    | fills hs month =>
      exact ⟨hrows₁.fills month, hfile₁.grow rfl (prefix_append _ _) (prefix_refl _)⟩
    | trades hs simulated built k =>
      refine ⟨hrows₁.tax k fun r hr q _ => ?_, hfile₁.grow rfl (prefix_refl _) (prefix_append _ _)⟩
      obtain ⟨f, hf, htrade⟩ := tradeOf_mem built hr
      rw [freshJournalFills_eq, mem_between] at hf; exact ⟨f, hf.1, htrade⟩
    | reconcile hs simulated built computed =>
      exact ⟨⟨hrows₁.1, hrows₁.2, hrows₁.3, hrows₁.4⟩, hfile₁.grow rfl (prefix_refl _) (prefix_refl _)⟩
    | mark hs evidence marked =>
      have hsound := ((hbase₁.committed hj.toJournalOrdered hs).marked hj evidence marked).saved
      exact ⟨⟨hrows₁.1, hrows₁.2, hrows₁.3, hrows₁.4⟩, hsound.grow rfl (prefix_refl _) (prefix_refl _)⟩

theorem BooksDelisted.watermarks {base settled : LedgerState}
    {accrual : FundingAccrual} {booked : List DelistingSettlement}
    (h : BooksDelisted st base market accrual settled booked) :
    settled.journalAppliedFillSeq = base.journalAppliedFillSeq ∧
      settled.journalRecordedFillSeq = base.journalRecordedFillSeq := by
  have hbooked := bookDelistingSettlements_eq_ok h; exact ⟨hbooked.applied, hbooked.recorded⟩

theorem Settles.watermarks {runId : String} {p : PaperSettlement} (h : Settles st base market runId p) :
    p.ledgerState.journalAppliedFillSeq = base.journalAppliedFillSeq ∧
      p.ledgerState.journalRecordedFillSeq = base.journalRecordedFillSeq := by
  obtain ⟨accrual, -, -, ⟨hstate, -⟩ | ⟨booked, hbooks, -⟩⟩ := h.state
  · rw [hstate]; exact ⟨rfl, rfl⟩
  · exact hbooks.watermarks

theorem EvidenceInv.settleWrites {runId : String} (hbase : StateSound d base)
    (h : SettleWrites st base market runId d d') (hrows : RowsSound d)
    (hfile : StateSound d d.ledger) : RowsSound d' ∧ StateSound d' d'.ledger := by
  induction h with
  | refl => exact ⟨hrows, hfile⟩
  | @tail d₁ d₂ hpre hw ih =>
    obtain ⟨hrows₁, hfile₁⟩ := ih
    obtain ⟨hj₁, hfills, htax, -⟩ := SettleWrites.frame hpre
    have hbase₁ : StateSound d₁ base := hbase.grow hj₁ (hfills ▸ prefix_refl _) htax
    cases hw with
    | io script => exact ⟨⟨hrows₁.1, hrows₁.2, hrows₁.3, hrows₁.4⟩,
        hfile₁.grow rfl (prefix_refl _) (prefix_refl _)⟩
    | funding haccrues k =>
      refine ⟨hrows₁.tax k fun r hr q hq => ?_, hfile₁.grow rfl (prefix_refl _) (prefix_append _ _)⟩
      obtain ⟨ev, -, rfl⟩ := mem_map.mp hr
      exact absurd hq (fundingRecordId_ne_simulatedTradeId _ _ _ q)
    | @accrue accrual haccrues recorded =>
      have hsound : StateSound d₁ (accruedLedger base market.now accrual) := hbase₁.congr rfl rfl
      exact ⟨⟨hrows₁.1, hrows₁.2, hrows₁.3, hrows₁.4⟩, hsound.saved.grow rfl (prefix_refl _) (prefix_refl _)⟩
    | settlement haccrues books k =>
      refine ⟨hrows₁.tax k fun r hr q hq => ?_, hfile₁.grow rfl (prefix_refl _) (prefix_append _ _)⟩
      obtain ⟨b, -, hb⟩ := mem_filterMap.mp hr; exact absurd hq (settlementRecord_recordId_ne hb q)
    | settle haccrues books =>
      have hsound := hbase₁.congr books.watermarks.1 books.watermarks.2
      exact ⟨⟨hrows₁.1, hrows₁.2, hrows₁.3, hrows₁.4⟩, hsound.saved.grow rfl (prefix_refl _) (prefix_refl _)⟩

theorem StateSound.fill {draft : FillDraft}
    (h : StateSound d s) (hj : JournalOrdered d.journal) (hnew : d.journal.newFill draft = .ok f) :
    StateSound { d with journal := d.journal.apply (.fill f) } s := by
  obtain ⟨-, hseq, hnext⟩ := hj.fill hnew
  have happlied := h.applied
  have hrecorded := h.recorded
  rw [Journal.lastFillSeq] at happlied
  have hold : ∀ g ∈ (d.journal.apply (.fill f)).fills, g.fillSeq ≤ s.journalRecordedFillSeq →
      g ∈ d.journal.fills := by
    intro g hg hle
    rw [Journal.apply_fill_fills, mem_append, mem_singleton] at hg
    rcases hg with hg | rfl
    · exact hg
    · omega
  refine ⟨hrecorded, ?_, fun g hg hev hle => ?_, fun g hg hev hle hsim => ?_⟩
  · change s.journalAppliedFillSeq ≤ (d.journal.apply (.fill f)).nextFillSeq - 1; omega
  · exact h.rows g (hold g hg hle) hev hle
  · exact h.trades g (hold g hg hle) hev hle hsim

theorem EvidenceInv.fill {sys : BookSys} {draft : FillDraft} (h : EvidenceInv st sys)
    (hnew : sys.disk.journal.newFill draft = .ok f) (hsim : draft.simulated → st.mode.suppressesMutations) :
    EvidenceInv st
      { sys with disk := { sys.disk with journal := sys.disk.journal.apply (.fill f) } } := by
  have hordered := (h.journal.toJournalOrdered.fill hnew).1
  have hspec := Journal.newFill_eq_ok hnew
  -- the fills of the longer journal: the old ones, and the new one
  have hmem : ∀ {P : JournalFill → Prop}, (∀ g ∈ sys.disk.journal.fills, P g) → P f →
      ∀ g ∈ (sys.disk.journal.apply (.fill f)).fills, P g := by
    intro P hold hf g hg
    rw [Journal.apply_fill_fills, mem_append, mem_singleton] at hg
    rcases hg with hg | rfl
    · exact hold g hg
    · exact hf
  have hkeep : ∀ {P : JournalFill → Prop}, (∃ g ∈ sys.disk.journal.fills, P g) →
      ∃ g ∈ (sys.disk.journal.apply (.fill f)).fills, P g := by
    rintro P ⟨g, hg, hp⟩
    refine ⟨g, ?_, hp⟩; exact mem_append_left _ hg
  refine ⟨⟨hordered, hmem h.journal.quantity ?_, hmem h.journal.simulated ?_⟩,
    ⟨h.rows.fillKeys, fun row hrow => hkeep (h.rows.fillRows row hrow), h.rows.taxKeys,
      fun r hr q hq => hkeep (h.rows.trades r hr q hq)⟩,
    h.file.fill h.journal.toJournalOrdered hnew,
    fun b hb => (h.known b hb).fill h.journal.toJournalOrdered hnew⟩
  · rw [hspec.1]; exact hspec.2.1
  · rw [hspec.1]; exact hsim

theorem EvidenceInv.step {sys sys' : BookSys} {act : BookActivity} (h : EvidenceInv st sys)
    (hm : Moves st sys act sys') : EvidenceInv st sys' := by
  -- a new disk with the old journal: what is known stays sound
  have hframe : ∀ {d' : Disk} {known : List CycleBase}, d'.journal = sys.disk.journal →
      sys.disk.fillRows <+: d'.fillRows → sys.disk.taxRows <+: d'.taxRows →
      RowsSound d' → StateSound d' d'.ledger →
      (∀ b ∈ known, b ∈ sys.known ∨ StateSound d' b.state) → EvidenceInv st ⟨d', known⟩ := by
    intro d' known hj hfills htax hrows hfile hknown
    refine ⟨hj ▸ h.journal, hrows, hfile, fun b hb => ?_⟩
    rcases hknown b hb with hold | hnew
    · exact (h.known b hold).grow hj hfills htax
    · exact hnew
  have hscript : ∀ script, RowsSound { sys.disk with script := script } ∧
      ∀ s, StateSound sys.disk s → StateSound { sys.disk with script := script } s := fun script =>
    ⟨⟨h.rows.1, h.rows.2, h.rows.3, h.rows.4⟩, fun s hs =>
      hs.grow rfl (prefix_refl _) (prefix_refl _)⟩
  cases hm with
  | fill recorded new simulated => exact h.fill new simulated
  | attempt a =>
    exact ⟨⟨h.journal.toJournalOrdered.attempt a, h.journal.quantity, h.journal.simulated⟩,
      ⟨h.rows.1, h.rows.2, h.rows.3, h.rows.4⟩,
      ⟨h.file.1, h.file.2, h.file.3, h.file.4⟩,
      fun b hb => ⟨(h.known b hb).1, (h.known b hb).2, (h.known b hb).3, (h.known b hb).4⟩⟩
  | idle script =>
    exact hframe rfl (prefix_refl _) (prefix_refl _) (hscript script).1
      ((hscript script).2 _ h.file) fun b hb => Or.inl hb
  | loads loaded script =>
    refine hframe rfl (prefix_refl _) (prefix_refl _) (hscript script).1
      ((hscript script).2 _ h.file) fun b hb => ?_
    rcases mem_cons.mp hb with rfl | hb
    · unfold LedgerState.loaded at loaded
      split_ifs at loaded
      rw [← ok.inj loaded]; exact Or.inr ((hscript script).2 _ (h.file.congr rfl rfl))
    · exact Or.inl hb
  | @saves b s io sys' base derives writes known =>
    have hs : StateSound sys.disk s := by
      cases derives with
      | same => exact h.known b base
      | batch track capital drawn commits =>
        obtain ⟨hlt, hnext⟩ := commits.applied_lt h.journal.toJournalOrdered drawn
        have hb := h.known b base
        have hrec := commits.recorded
        have hold := hb.recorded
        refine ⟨by omega, ?_, ?_, ?_⟩
        · rw [Journal.lastFillSeq]; omega
        · rw [hrec]; exact hb.rows
        · rw [hrec]; exact hb.trades
      | derisk since reasons => exact (h.known b base).congr rfl rfl
      | live books =>
        have hbooked := bookDelistingSettlements_eq_ok books
        exact (h.known b base).congr hbooked.applied hbooked.recorded
    obtain ⟨hj, hfills, htax, -, hfile⟩ := writes.frame
    have hgrow : ∀ {s : LedgerState}, StateSound sys.disk s → StateSound sys'.disk s := fun hs =>
      hs.grow hj (hfills ▸ prefix_refl _) (htax ▸ prefix_refl _)
    refine hframe hj (hfills ▸ prefix_refl _) (htax ▸ prefix_refl _) ?_ ?_ fun b' hb' => ?_
    · refine ⟨hfills ▸ h.rows.1, ?_, htax ▸ h.rows.3, ?_⟩
      · rw [hfills, hj]; exact h.rows.2
      · rw [htax, hj]; exact h.rows.4
    · rcases hfile with hfile | hfile <;> rw [hfile]
      · exact hgrow h.file
      · exact hgrow hs.saved
    · rcases known b' hb' with hold | rfl
      · exact Or.inl hold
      · exact Or.inr (hgrow hs)
  | @books b call io sys' base calls writes known =>
    have hbase := (hscript io).2 _ (h.known b base)
    obtain ⟨hj, hfills, htax⟩ := BookWrites.frame writes
    have hsound : JournalSound st ({ sys.disk with script := io } : Disk).journal := h.journal
    obtain ⟨hrows, hfile⟩ := EvidenceInv.bookWrites hsound hbase writes (hscript io).1
      ((hscript io).2 _ h.file)
    refine hframe hj hfills htax hrows hfile fun b' hb' => ?_
    rcases known b' hb' with hold | ⟨s, rfl, hs⟩
    · exact Or.inl hold
    · right
      have hbase' : StateSound sys'.disk b.state := hbase.grow hj hfills htax
      have hj' : sys'.disk.journal = sys.disk.journal := hj
      rw [← hj'] at hs
      have hsound : JournalSound st sys'.disk.journal := hj' ▸ h.journal
      rcases hs with hs | ⟨s', hs', hev, hmark⟩
      · exact hbase'.committed hsound.toJournalOrdered hs
      · exact (hbase'.committed hsound.toJournalOrdered hs').marked hsound hev hmark
  | @settles i b market runId io sys' posts chosen writes known =>
    have hbase := (hscript io).2 _ (h.known b (mem_of_getElem? chosen))
    obtain ⟨hj, hfills, htax, -⟩ := SettleWrites.frame writes
    obtain ⟨hrows, hfile⟩ := EvidenceInv.settleWrites hbase writes (hscript io).1
      ((hscript io).2 _ h.file)
    refine hframe hj (hfills ▸ prefix_refl _) htax hrows hfile fun b' hb' => ?_
    rcases known b' hb' with hold | ⟨p, hp, rfl⟩
    · exact Or.inl hold
    · right
      exact (hbase.grow hj (hfills ▸ prefix_refl _) htax).congr hp.watermarks.1 hp.watermarks.2

section

variable (h : RowsSound d) (hj : JournalOrdered d.journal) (hf : f ∈ d.journal.fills)

include h hj hf

theorem RowsSound.one_fillRow (hrow : ∃ row ∈ d.fillRows, row.fillId = some (journalFillId f.fillSeq)) :
    ∃ row, RowOf f row ∧
      d.fillRows.filter (fun r => decide (r.fillId = some (journalFillId f.fillSeq))) = [row] := by
  -- a row with the identity of the fill carries the fill, so it stands in the month of the fill
  have hof : ∀ row ∈ d.fillRows, row.fillId = some (journalFillId f.fillSeq) → RowOf f row := by
    intro row hrow hid
    obtain ⟨g, hg, j, fallback, rfl⟩ := h.fillRows row hrow
    have hseq : g.fillSeq = f.fillSeq := journalFillId_injective (Option.some.inj hid)
    rw [hj.sequenced.eq_of_fillSeq_eq hg hf hseq]; exact ⟨j, fallback, rfl⟩
  obtain ⟨row, hmem, hid⟩ := hrow
  refine ⟨row, hof row hmem hid, ?_⟩
  refine filter_eq_singleton (k := (monthKey f.filledAt, journalFillId f.fillSeq)) h.fillKeys ?_ hmem
    (decide_eq_true hid)
  intro row' hrow' hid'
  obtain ⟨j, fallback, rfl⟩ := hof row' hrow' (of_decide_eq_true hid'); rfl

theorem RowsSound.one_tradeRecord (hrow : ∃ r ∈ d.taxRows, r.recordId = simulatedTradeId f.fillSeq) :
    ∃ r, TradeOf f r ∧ d.taxRows.filter (fun r =>
      decide (r.kind = "TRADE" ∧ r.recordId = simulatedTradeId f.fillSeq)) = [r] := by
  have hof : ∀ r ∈ d.taxRows, r.recordId = simulatedTradeId f.fillSeq → TradeOf f r := by
    intro r hr hid
    obtain ⟨g, hg, j, fallback, seq, mode, rfl⟩ := h.trades r hr f.fillSeq hid
    have hseq : g.fillSeq = f.fillSeq := simulatedTradeId_injective hid
    rw [hj.sequenced.eq_of_fillSeq_eq hg hf hseq]; exact ⟨j, fallback, seq, mode, rfl⟩
  obtain ⟨r, hmem, hid⟩ := hrow
  have hcarries := hof r hmem hid
  have hkind : r.kind = "TRADE" := by
    obtain ⟨j, fallback, seq, mode, rfl⟩ := hcarries; rfl
  refine ⟨r, hcarries, ?_⟩
  have hkeys : (d.taxRows.filterMap fun r => some r.key).Nodup := by
    rw [filterMap_eq_map']; exact h.taxKeys
  refine filter_eq_singleton (k := (monthKey f.filledAt, simulatedTradeId f.fillSeq)) hkeys ?_ hmem
    (decide_eq_true ⟨hkind, hid⟩)
  intro r' hr' hp
  obtain ⟨j, fallback, seq, mode, rfl⟩ := hof r' hr' (of_decide_eq_true hp).2; rfl

end

theorem evidenceInv_run (st : LiveSettings) (acts : List (BookActivity × List IoStep)) :
    EvidenceInv st (BookSys.run st {} acts) := by
  have hinit : EvidenceInv st {} := by
    refine ⟨⟨JournalOrdered.empty, fun f hf => absurd hf not_mem_nil,
      fun f hf => absurd hf not_mem_nil⟩, ⟨nodup_nil, fun r hr => absurd hr not_mem_nil,
      nodup_nil, fun r hr => absurd hr not_mem_nil⟩, ⟨le_refl _, by decide,
      fun f hf => absurd hf not_mem_nil, fun f hf => absurd hf not_mem_nil⟩,
      fun b hb => absurd hb not_mem_nil⟩
  exact @BookSys.run_invariant st (EvidenceInv st) (fun _ => True)
    (fun sys sys' act _ h hm => EvidenceInv.step h hm) acts _ (fun _ _ => trivial) hinit

/-- **Exactly-once evidence**, after every run from a fresh installation, whatever crashes and write
failures it had. -/
theorem recorded_fills_have_evidence_once (st : LiveSettings)
    (acts : List (BookActivity × List IoStep)) :
    (∀ f ∈ (BookSys.run st {} acts).disk.journal.fills, f.kind ≠ .operatorResync →
      f.fillSeq ≤ (BookSys.run st {} acts).disk.ledger.journalRecordedFillSeq →
      (∃ row, RowOf f row ∧ (BookSys.run st {} acts).disk.fillRows.filter
        (fun r => decide (r.fillId = some (journalFillId f.fillSeq))) = [row]) ∧
      (f.simulated → ∃ r, TradeOf f r ∧ (BookSys.run st {} acts).disk.taxRows.filter
        (fun r => decide (r.kind = "TRADE" ∧ r.recordId = simulatedTradeId f.fillSeq)) = [r])) ∧
    (BookSys.run st {} acts).disk.ledger.journalRecordedFillSeq
      ≤ (BookSys.run st {} acts).disk.ledger.journalAppliedFillSeq ∧
    (BookSys.run st {} acts).disk.ledger.journalAppliedFillSeq
      ≤ (BookSys.run st {} acts).disk.journal.lastFillSeq := by
  have hrun := evidenceInv_run st acts
  refine ⟨fun f hf hkind hle => ?_, hrun.file.recorded, hrun.file.applied⟩
  have hev : f.evidenced := by simp [JournalFill.evidenced, hkind]
  exact ⟨hrun.rows.one_fillRow hrun.journal.toJournalOrdered hf (hrun.file.rows f hf hev hle),
    fun hsim => hrun.rows.one_tradeRecord hrun.journal.toJournalOrdered hf
      (hrun.file.trades f hf hev hle hsim)⟩

example : (BookSys.run paperSettings {} crashedRun).disk.ledger.journalRecordedFillSeq = 1 ∧
    (BookSys.run paperSettings {} crashedRun).disk.fillRows.length = 2 ∧
    (BookSys.run paperSettings {} crashedRun).disk.taxRows.length = 2 := by decide +kernel

end Evidence

/-! ## Every cash reconciliation is exact -/

section Cash

variable {st : LiveSettings}

structure BaseSound (b : CycleBase) : Prop where
  recorded : b.state.journalRecordedFillSeq ≤ b.state.journalAppliedFillSeq
  explained : Explained b.state b.cashBefore b.fundingRecords b.settlementRecords

theorem BaseSound.plain {s : LedgerState} (h : s.journalRecordedFillSeq ≤ s.journalAppliedFillSeq) :
    BaseSound (CycleBase.plain s) := ⟨h, Explained.plain s⟩

structure CashInv (sys : BookSys) : Prop where
  exact : ∀ r ∈ sys.disk.reconciliations, r.difference = 0
  known : ∀ b ∈ sys.known, BaseSound b

variable {call : CommitCall}

theorem Committed.recorded_le_applied {base s : LedgerState} {j : Journal} (h : Committed st base call j s)
    (hle : base.journalRecordedFillSeq ≤ base.journalAppliedFillSeq) :
    s.journalRecordedFillSeq ≤ s.journalAppliedFillSeq := by
  cases h with
  | kept | stamped => exact hle
  | folded hc =>
    rw [hc.recorded, hc.applied]; omega

theorem Calls.explained {b : CycleBase} (h : Calls b call) (hb : BaseSound b) :
    Explained b.state call.reconcileCashBefore call.fundingRecords call.settlementRecords := by
  cases h with
  | final attempt equity executed => exact hb.explained
  | abort attempt equity => exact Explained.plain b.state

theorem CashInv.bookWrites {b : CycleBase} {j : Journal} {d d' : Disk}
    (hb : BaseSound b) (hcall : Calls b call) (h : BookWrites st b.state call j d d')
    (hd : ∀ r ∈ d.reconciliations, r.difference = 0) : ∀ r ∈ d'.reconciliations, r.difference = 0 := by
  induction h with
  | refl => exact hd
  | tail _ hw ih =>
    cases hw with
    | reconcile hs simulated built computed =>
      intro r hr
      rcases mem_append.mp hr with hr | hr
      · exact ih r hr
      · rw [mem_singleton.mp hr]
        exact reconcileBatch_difference hs simulated hb.recorded (hcall.explained hb) built computed
    | _ => exact ih

theorem CashInv.step {sys sys' : BookSys} {act : BookActivity} (h : CashInv sys)
    (hm : Moves st sys act sys') : CashInv sys' := by
  cases hm with
  | fill recorded new simulated | attempt a | idle script => exact ⟨h.exact, h.known⟩
  | loads loaded script =>
    refine ⟨h.exact, fun b hb => ?_⟩
    rcases mem_cons.mp hb with rfl | hb
    · -- a file whose recorded watermark is above the applied one does not load
      unfold LedgerState.loaded at loaded
      split_ifs at loaded with hle
      rw [← ok.inj loaded]; exact BaseSound.plain (not_lt.mp hle)
    · exact h.known b hb
  | @saves b s io sys' base derives writes known =>
    have hle := (h.known b base).recorded
    have hs : s.journalRecordedFillSeq ≤ s.journalAppliedFillSeq := by
      cases derives with
      | same => exact hle
      | batch track capital drawn commits =>
        rw [commits.recorded, commits.applied]; omega
      | derisk since reasons => exact hle
      | live books =>
        have hbooked := bookDelistingSettlements_eq_ok books
        rw [hbooked.recorded, hbooked.applied]; exact hle
    obtain ⟨-, -, -, hrec, -⟩ := writes.frame
    refine ⟨hrec ▸ h.exact, fun b' hb' => ?_⟩
    rcases known b' hb' with hold | rfl
    · exact h.known b' hold
    · exact BaseSound.plain hs
  | @books b call io sys' base calls writes known =>
    have hb := h.known b base
    refine ⟨CashInv.bookWrites hb calls writes h.exact, fun b' hb' => ?_⟩
    rcases known b' hb' with hold | ⟨s, rfl, hs | ⟨s', hs', -, hmark⟩⟩
    · exact h.known b' hold
    · exact BaseSound.plain (hs.recorded_le_applied hb.recorded)
    · obtain ⟨last, hlast, rfl⟩ := hmark.spec
      rw [freshJournalFills_eq, mem_between] at hlast; exact BaseSound.plain hlast.2.2
  | @settles i b market runId io sys' posts chosen writes known =>
    obtain ⟨-, -, -, hrec⟩ := SettleWrites.frame writes
    refine ⟨hrec ▸ h.exact, fun b' hb' => ?_⟩
    rcases known b' hb' with hold | ⟨p, hp, rfl⟩
    · exact h.known b' hold
    · obtain ⟨happlied, hrecorded⟩ := hp.watermarks
      refine ⟨?_, hp.explained⟩
      rw [happlied, hrecorded]; exact (h.known b (mem_of_getElem? chosen)).recorded

def BookSys.started (journal : Journal) (ledger : LedgerState) (fillRows : List FillEvent)
    (taxRows : List TaxRecord) : BookSys :=
  { disk := { journal := journal, ledger := ledger, fillRows := fillRows, taxRows := taxRows } }

/-- **The cash reconciles exactly**, from any ledger, journal and rows of evidence, through every
run. -/
theorem cash_reconciles_exactly (st : LiveSettings) (journal : Journal) (ledger : LedgerState)
    (fillRows : List FillEvent) (taxRows : List TaxRecord)
    (acts : List (BookActivity × List IoStep)) :
    ∀ r ∈ (BookSys.run st (BookSys.started journal ledger fillRows taxRows) acts).disk.reconciliations,
      r.difference = 0 := by
  have hinit : CashInv (BookSys.started journal ledger fillRows taxRows) :=
    ⟨fun r hr => absurd hr not_mem_nil, fun b hb => absurd hb not_mem_nil⟩
  have hrun := @BookSys.run_invariant st CashInv (fun _ => True)
    (fun sys sys' act _ h hm => CashInv.step h hm) acts _ (fun _ _ => trivial) hinit
  exact hrun.exact

/-- A cycle that pays funding and is delisted out of one position, fills, and reconciles. -/
def settledRun : List (BookActivity × List IoStep) :=
  [(.recordFill (paperFill "BUY" 3 100), []),
   (.loadLedger, allDone),
   (.commitAndRecord 0 paperAttempt none none, allDone),
   (.settlePaper 0
      { listing := [⟨"BTCUSDT", "SETTLING", some 1100000000⟩],
        funding := Dict.ofPairs [("BTCUSDT", [(1036800, some (1 / 10000))])],
        closes := Dict.ofPairs [("BTCUSDT", [(1036800, some 120)])],
        settlementPrices := Dict.ofPairs [("BTCUSDT", 125)], now := 1200000 } "19700114", allDone),
   (.recordFill (paperFill "SELL" 1 110), []),
   (.commitAndRecord 0 paperAttempt none none, allDone)]

example : ((BookSys.run paperSettings {} settledRun).disk.reconciliations.map
    fun r => (r.expectedDelta, r.actualDelta)) = [(484909 / 1000, 484909 / 1000)] := by decide +kernel

theorem cash_reconciles_exactly_settled :
    ∃ r ∈ (BookSys.run paperSettings (BookSys.started Journal.empty {} [] []) settledRun).disk.reconciliations,
      r.difference = 0 := by
  have hlength : (BookSys.run paperSettings (BookSys.started Journal.empty {} [] [])
      settledRun).disk.reconciliations.length = 1 := by decide +kernel
  obtain ⟨r, hr⟩ := length_eq_one_iff.mp hlength
  have hmem : r ∈ (BookSys.run paperSettings (BookSys.started Journal.empty {} [] [])
      settledRun).disk.reconciliations := by
    rw [hr]; exact mem_singleton_self r
  exact ⟨r, hmem, cash_reconciles_exactly paperSettings Journal.empty {} [] [] settledRun r hmem⟩

end Cash

end CryptoPilot.Live
