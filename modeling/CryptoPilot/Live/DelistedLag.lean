/- # DelistedLag — the funding lag of a symbol that a delisting settlement closed.

The settlement appends a position snapshot at the instant of the settling cycle, so the symbol
counts as released at that instant.  Its funding series ended before; so its watermark stays below
the release, and every later accrual reports a growing lag, until the lag halts the account
(`delisted_symbol_halts_account`). -/
import CryptoPilot.Live.FundingEvidence

namespace CryptoPilot.Live

open CryptoPilot.Lib List

/-! ## Histories in which a symbol stays flat -/

section History

variable {symbol : String} {instant : ℚ}

def PositionSnapshot.flatIn (snap : PositionSnapshot) (symbol : String) : Prop :=
  snap.positions.lookup symbol = none

variable {snap : PositionSnapshot} {history : List PositionSnapshot} {positions watermarks : Dict ℚ}

theorem PositionSnapshot.flatIn.held (h : snap.flatIn symbol) : snap.held symbol = 0 := by
  rw [PositionSnapshot.held, Dict.get, h]; rfl

/-- The symbol is flat from some snapshot on, and no snapshot before it is later than `instant`. -/
def FlatSince (symbol : String) (instant : ℚ) (history : List PositionSnapshot) : Prop :=
  (∃ pre first post, history = pre ++ first :: post ∧
    (∀ snap ∈ pre, snap.effectiveFrom ≤ first.effectiveFrom) ∧ first.effectiveFrom ≤ instant ∧
    first.flatIn symbol ∧ ∀ snap ∈ post, snap.flatIn symbol) ∨
  ∀ snap ∈ history, snap.flatIn symbol

section

variable (h : FlatSince symbol instant history)

include h

theorem FlatSince.last : ∀ snap, history.getLast? = some snap → snap.flatIn symbol := by
  intro snap hsnap
  rcases h with ⟨pre, first, post, rfl, -, -, hfirst, hpost⟩ | hall
  · rw [getLast?_append_cons] at hsnap
    have hmem := mem_of_getLast? hsnap
    rcases mem_cons.mp hmem with rfl | hmem
    · exact hfirst
    · exact hpost snap hmem
  · exact hall snap (mem_of_getLast? hsnap)

theorem FlatSince.current : (currentPositions history).lookup symbol = none := by
  unfold currentPositions
  cases hlast : history.getLast? with
  | none => exact AList.lookup_empty symbol
  | some snap => exact h.last snap hlast

theorem FlatSince.heldSince : heldSince history symbol = none := by
  unfold CryptoPilot.Live.heldSince
  cases hrev : history.reverse with
  | nil => rfl
  | cons last earlier =>
    have hlast : history.getLast? = some last := by
      rw [← head?_reverse, hrev]; rfl
    exact if_pos (h.last last hlast).held

end

theorem releasedFrom_flat {flat : List PositionSnapshot} (first : PositionSnapshot)
    (rest : List PositionSnapshot) (hfirst : first.flatIn symbol) :
    ∀ after, (∀ snap ∈ flat, snap.flatIn symbol) →
      releasedFrom symbol after (flat ++ first :: rest)
        = releasedFrom symbol (some first.effectiveFrom) rest := by
  induction flat with
  | nil =>
    intro after _
    rw [nil_append, releasedFrom, if_neg (not_not.mpr hfirst.held)]
  | cons snap flat ih =>
    intro after hflat
    rw [cons_append, releasedFrom, if_neg (not_not.mpr (hflat snap mem_cons_self).held)]
    exact ih _ fun snap' hsnap' => hflat snap' (mem_cons_of_mem snap hsnap')

theorem releasedFrom_le {rest : List PositionSnapshot} : ∀ {after released : ℚ},
    (∀ snap ∈ rest, snap.effectiveFrom ≤ instant) → after ≤ instant →
      releasedFrom symbol (some after) rest = some released → released ≤ instant := by
  induction rest with
  | nil =>
    intro after released _ _ h; cases h
  | cons snap rest ih =>
    intro after released hrest hafter h
    rw [releasedFrom] at h
    split_ifs at h
    · cases h; exact hafter
    · exact ih (fun snap' hsnap' => hrest snap' (mem_cons_of_mem snap hsnap'))
        (hrest snap mem_cons_self) h

theorem releasedFrom_all_flat : ∀ after,
    (∀ snap ∈ history, snap.flatIn symbol) → releasedFrom symbol after history = none := by
  induction history with
  | nil =>
    intro after _; rfl
  | cons snap rest ih =>
    intro after hflat
    rw [releasedFrom, if_neg (not_not.mpr (hflat snap mem_cons_self).held)]
    exact ih _ fun snap' hsnap' => hflat snap' (mem_cons_of_mem snap hsnap')

/-- **The release is not after the instant.** -/
theorem FlatSince.released {released : ℚ}
    (h : FlatSince symbol instant history)
    (hr : releasedAt history symbol = some released) : released ≤ instant := by
  unfold releasedAt at hr
  rcases h with ⟨pre, first, post, rfl, hpre, hinstant, hfirst, hpost⟩ | hall
  · rw [reverse_append, reverse_cons, append_assoc, singleton_append,
      releasedFrom_flat first _ hfirst none fun snap hsnap => hpost snap (mem_reverse.mp hsnap)]
      at hr
    refine releasedFrom_le (fun snap hsnap => ?_) hinstant hr
    exact (hpre snap (mem_reverse.mp hsnap)).trans hinstant
  · rw [releasedFrom_all_flat none fun snap hsnap => hall snap (mem_reverse.mp hsnap)] at hr
    cases hr

theorem FlatSince.drop (h : FlatSince symbol instant history)
    (k : ℕ) : FlatSince symbol instant (history.drop k) := by
  rcases h with ⟨pre, first, post, rfl, hpre, hinstant, hfirst, hpost⟩ | hall
  · rw [drop_append]
    by_cases hk : k ≤ pre.length
    · rw [Nat.sub_eq_zero_of_le hk]
      exact Or.inl ⟨_, first, post, rfl, fun snap hsnap => hpre snap (mem_of_mem_drop hsnap),
        hinstant, hfirst, hpost⟩
    · right
      intro snap hsnap
      rw [drop_of_length_le (by omega)] at hsnap
      rcases mem_cons.mp (mem_of_mem_drop hsnap) with rfl | hmem
      · exact hfirst
      · exact hpost snap hmem
  · exact Or.inr fun snap hsnap => hall snap (mem_of_mem_drop hsnap)

theorem FlatSince.snoc
    (h : FlatSince symbol instant history) (hsnap : snap.flatIn symbol) :
    FlatSince symbol instant (history ++ [snap]) := by
  have hcons : ∀ {flat : List PositionSnapshot}, (∀ s ∈ flat, s.flatIn symbol) →
      ∀ s ∈ flat ++ [snap], s.flatIn symbol := by
    intro flat hflat s hs
    rcases mem_append.mp hs with hs | hs
    · exact hflat s hs
    · rw [mem_singleton.mp hs]; exact hsnap
  rcases h with ⟨pre, first, post, rfl, hpre, hinstant, hfirst, hpost⟩ | hall
  · exact Or.inl ⟨pre, first, post ++ [snap], by rw [append_assoc, cons_append], hpre,
      hinstant, hfirst, hcons hpost⟩
  · exact Or.inr (hcons hall)

theorem orderedInsert_append {p q : PositionSnapshot} (a b : List PositionSnapshot)
    (h : p.effectiveFrom ≤ q.effectiveFrom) :
    (a ++ q :: b).orderedInsert (fun x y => x.effectiveFrom ≤ y.effectiveFrom) p
      = a.orderedInsert (fun x y => x.effectiveFrom ≤ y.effectiveFrom) p ++ q :: b := by
  induction a with
  | nil => simp [orderedInsert, h]
  | cons c a ih =>
    by_cases hc : p.effectiveFrom ≤ c.effectiveFrom
    · simp [orderedInsert, hc]
    · simp [orderedInsert, hc, ih]

theorem orderedInsert_eq_append (p : PositionSnapshot) (l : List PositionSnapshot) :
    ∃ a b, l.orderedInsert (fun x y => x.effectiveFrom ≤ y.effectiveFrom) p = a ++ p :: b ∧ l = a ++ b ∧
      ∀ x ∈ a, x.effectiveFrom ≤ p.effectiveFrom := by
  induction l with
  | nil => exact ⟨[], [], rfl, rfl, fun x hx => absurd hx not_mem_nil⟩
  | cons c l ih =>
    by_cases hc : p.effectiveFrom ≤ c.effectiveFrom
    · exact ⟨[], c :: l, by simp [orderedInsert, hc], rfl,
        fun x hx => absurd hx not_mem_nil⟩
    · obtain ⟨a, b, hins, hl, ha⟩ := ih
      refine ⟨c :: a, b, by simp [orderedInsert, hc, hins], by rw [hl, cons_append], ?_⟩
      intro x hx
      rcases mem_cons.mp hx with rfl | hx
      · exact (not_le.mp hc).le
      · exact ha x hx

/-- **Sorting on load**: the sort is stable, so what stood before the first flat snapshot stays
there. -/
theorem FlatSince.sort (h : FlatSince symbol instant history) :
    FlatSince symbol instant
      (history.insertionSort fun x y => x.effectiveFrom ≤ y.effectiveFrom) := by
  rcases h with ⟨pre, first, post, rfl, hpre, hinstant, hfirst, hpost⟩ | hall
  · have hsorted : ∃ a b, (pre ++ first :: post).insertionSort
        (fun x y => x.effectiveFrom ≤ y.effectiveFrom) = a ++ first :: b ∧
        (∀ snap ∈ a, snap.effectiveFrom ≤ first.effectiveFrom) ∧ ∀ snap ∈ b, snap.flatIn symbol := by
      induction pre with
      | nil =>
        obtain ⟨a, b, hins, hsplit, ha⟩ := orderedInsert_eq_append first
          (post.insertionSort fun x y => x.effectiveFrom ≤ y.effectiveFrom)
        refine ⟨a, b, hins, ha, fun snap hsnap => ?_⟩
        have hmem : snap ∈ post.insertionSort fun x y => x.effectiveFrom ≤ y.effectiveFrom :=
          hsplit ▸ mem_append_right a hsnap
        exact hpost snap ((mem_insertionSort _).mp hmem)
      | cons p pre ih =>
        obtain ⟨a, b, hsorted, ha, hb⟩ := ih fun snap hsnap => hpre snap (mem_cons_of_mem p hsnap)
        have hp := hpre p mem_cons_self
        refine ⟨a.orderedInsert (fun x y => x.effectiveFrom ≤ y.effectiveFrom) p, b, ?_, fun snap hsnap => ?_, hb⟩
        · rw [cons_append, insertionSort_cons, hsorted, orderedInsert_append a b hp]
        · rcases (mem_orderedInsert _).mp hsnap with rfl | hsnap
          · exact hp
          · exact ha snap hsnap
    obtain ⟨a, b, hsort, ha, hb⟩ := hsorted
    exact Or.inl ⟨a, first, b, hsort, ha, hinstant, hfirst, hb⟩
  · exact Or.inr fun snap hsnap => hall snap ((mem_insertionSort _).mp hsnap)

theorem lookup_dropDefault {positions : Dict ℚ} (h : positions.get symbol 0 = 0) :
    AList.lookup symbol (Dict.dropDefault positions 0) = none := by
  rw [Dict.lookup_dropDefault, if_pos h]

theorem appendPositionSnapshot_eq_drop (history : List PositionSnapshot) (effectiveFrom : ℚ)
    (positions watermarks : Dict ℚ) :
    ∃ k, appendPositionSnapshot history effectiveFrom positions watermarks =
      (match history.getLast? with
        | some (last : PositionSnapshot) =>
          if sameEntries last.positions (Dict.dropDefault positions 0) then history
            else history ++ [(⟨effectiveFrom, Dict.dropDefault positions 0⟩ : PositionSnapshot)]
        | none => [(⟨effectiveFrom, Dict.dropDefault positions 0⟩ : PositionSnapshot)]).drop k := by
  unfold appendPositionSnapshot
  simp only
  split_ifs with hlen
  · exact ⟨0, rfl⟩
  · exact ⟨_, rfl⟩

theorem FlatSince.append {effectiveFrom : ℚ} (h : FlatSince symbol instant history)
    (hflat : positions.get symbol 0 = 0) :
    FlatSince symbol instant (appendPositionSnapshot history effectiveFrom positions watermarks) := by
  obtain ⟨k, hk⟩ := appendPositionSnapshot_eq_drop history effectiveFrom positions watermarks
  rw [hk]
  refine FlatSince.drop ?_ k
  have hnew : (⟨effectiveFrom, Dict.dropDefault positions 0⟩ : PositionSnapshot).flatIn symbol :=
    lookup_dropDefault hflat
  cases hlast : history.getLast? with
  | none =>
    right
    intro snap hsnap
    rw [mem_singleton.mp hsnap]; exact hnew
  | some last =>
    simp only
    split_ifs
    · exact h
    · exact h.snoc hnew

structure Chronological (history : List PositionSnapshot) (now : ℚ) : Prop where
  ordered : history.Pairwise fun x y => x.effectiveFrom ≤ y.effectiveFrom
  past : ∀ snap ∈ history, snap.effectiveFrom ≤ now

/-- **A settlement closes the symbol**: its snapshot is the first flat one. -/
theorem flatSince_append
    (hhistory : Chronological history instant) (hflat : positions.get symbol 0 = 0) :
    FlatSince symbol instant (appendPositionSnapshot history instant positions watermarks) := by
  obtain ⟨k, hk⟩ := appendPositionSnapshot_eq_drop history instant positions watermarks
  rw [hk]
  refine FlatSince.drop ?_ k
  have hnew : (⟨instant, Dict.dropDefault positions 0⟩ : PositionSnapshot).flatIn symbol := lookup_dropDefault hflat
  cases hlast : history.getLast? with
  | none => exact Or.inl ⟨[], _, [], rfl, fun x hx => absurd hx not_mem_nil, le_refl _, hnew,
      fun x hx => absurd hx not_mem_nil⟩
  | some last =>
    simp only
    split_ifs with hsame
    · -- the last snapshot has the positions already
      obtain ⟨earlier, rfl⟩ := getLast?_eq_some_iff.mp hlast
      have hperm : last.positions.entries.Perm (Dict.dropDefault positions 0).entries := of_decide_eq_true hsame
      refine Or.inl ⟨earlier, last, [], rfl, ?_, hhistory.past last (by simp), ?_, fun x hx =>
        absurd hx not_mem_nil⟩
      · intro snap hsnap
        exact (pairwise_append.mp hhistory.ordered).2.2 snap hsnap last mem_cons_self
      · exact (AList.perm_lookup hperm).trans hnew
    · exact Or.inl ⟨history, _, [], rfl, hhistory.past, le_refl _, hnew,
        fun x hx => absurd hx not_mem_nil⟩

end History

/-! ## States in which a symbol stays quiet -/

section Quiet

variable {st : LiveSettings} {symbol : String} {instant : ℚ} {j : Journal}

/-- The symbol is flat, released by `instant`, accounted for up to there, and no fill of it is to
come. -/
structure Quiet (symbol : String) (instant : ℚ) (j : Journal) (s : LedgerState) : Prop where
  flat : s.held symbol = 0
  history : FlatSince symbol instant s.positionHistory
  watermark : ∀ w, s.fundingWatermarks.lookup symbol = some w → instant ≤ w
  coming : ∀ f ∈ j.fills, s.journalAppliedFillSeq < f.fillSeq → f.symbol ≠ symbol

variable {s s' : LedgerState}

theorem Quiet.congr (h : Quiet symbol instant j s)
    (hheld : s'.held symbol = s.held symbol) (hhistory : s'.positionHistory = s.positionHistory)
    (hwatermarks : s'.fundingWatermarks = s.fundingWatermarks)
    (happlied : s'.journalAppliedFillSeq = s.journalAppliedFillSeq) : Quiet symbol instant j s' where
  flat := hheld.trans h.flat
  history := hhistory ▸ h.history
  watermark := hwatermarks ▸ h.watermark
  coming := happlied ▸ h.coming

variable {s : LedgerState} {market : Market} {accrual : FundingAccrual}

theorem Quiet.saved (h : Quiet symbol instant j s) : Quiet symbol instant j s.saved :=
  h.congr (s.saved_held symbol) rfl rfl rfl

theorem Quiet.loaded (h : Quiet symbol instant j s) (hs : s.loaded = .ok s') : Quiet symbol instant j s' := by
  unfold LedgerState.loaded at hs
  split_ifs at hs
  rw [← Except.ok.inj hs]; exact ⟨h.flat, h.history.sort, h.watermark, h.coming⟩

section

variable {base s : LedgerState} (h : Quiet symbol instant j base)

include h

theorem Quiet.commit {c : CommitConfig} {batch : List JournalFill}
    (hbatch : ∀ f ∈ batch, f ∈ j.fills)
    (hc : Commits c base (pendingFills base.journalAppliedFillSeq batch) s) :
    Quiet symbol instant j s := by
  have hother : ∀ f ∈ pendingFills base.journalAppliedFillSeq batch, f.symbol ≠ symbol := by
    intro f hf
    rw [pendingFills, mem_insertionSort, mem_filter] at hf
    exact h.coming f (hbatch f hf.1) (of_decide_eq_true hf.2)
  have hmove : positionMove symbol (pendingFills base.journalAppliedFillSeq batch) = 0 := by
    refine sum_eq_zero fun x hx => ?_
    obtain ⟨f, hf, rfl⟩ := mem_map.mp hx; exact if_neg (hother f hf)
  have hflat : s.held symbol = 0 := by rw [hc.held, hmove, add_zero, h.flat]
  obtain ⟨latest, -, -, hhistory⟩ := hc.history
  refine ⟨hflat, ?_, ?_, fun f hf hlt => h.coming f hf ?_⟩
  · rw [hhistory]; exact h.history.append hflat
  · rw [hc.watermarks]; exact h.watermark
  · have := hc.applied; omega

theorem Quiet.committed {call : CommitCall} (hs : Committed st base call j s) :
    Quiet symbol instant j s := by
  cases hs with
  | kept => exact h
  | stamped => exact h.congr rfl rfl rfl rfl
  | folded hc => exact h.commit (fun f => mem_of_mem_fillsAfter) hc

end

theorem Quiet.marked (h : Quiet symbol instant j s) (hm : Marked j s s') : Quiet symbol instant j s' := by
  obtain ⟨last, -, rfl⟩ := hm.spec; exact h.congr rfl rfl rfl rfl

theorem Quiet.booked {now : ℚ} {booked : List DelistingSettlement}
    (h : Quiet symbol instant j s) (hb : SettlementBooked s now s' booked) : Quiet symbol instant j s' := by
  have hflat : s'.held symbol = 0 := by
    rw [hb.held]
    split
    · rfl
    · exact h.flat
  refine ⟨hflat, ?_, ?_, ?_⟩
  · rcases hb.history with ⟨hsame, -⟩ | happend
    · rw [hsame]; exact h.history
    · rw [happend]; exact h.history.append hflat
  · rw [hb.watermarks]; exact h.watermark
  · rw [hb.applied]; exact h.coming

theorem Quiet.accrualHistory (h : Quiet symbol instant j s) (now : ℚ) :
    FlatSince symbol instant (s.accrualHistory now) := by
  unfold LedgerState.accrualHistory
  split_ifs
  · refine FlatSince.append (Or.inr fun snap hsnap => absurd hsnap not_mem_nil) ?_
    rw [LedgerState.heldPositions, Dict.get_dropDefault]; exact h.flat
  · exact h.history

section

variable (h : Quiet symbol instant j s)

include h

/-- **The turn of a quiet symbol** starts no earlier than the instant, if there is one. -/
theorem Quiet.turn {closedAt : Dict ℚ} {t : SymbolAccrual}
    (ht : accrueSymbol (accrualInput s market closedAt) symbol = .ok (some t)) :
    instant ≤ t.watermark := by
  obtain ⟨w, hw, hle, -⟩ := accrueSymbol_watermark_le ht
  have hstart : instant ≤ w := by
    unfold AccrualInput.watermarkOf at hw
    have hnone : heldSince (accrualInput s market closedAt).history symbol = none :=
      (h.accrualHistory market.now).heldSince
    rw [hnone, Option.or_none] at hw; exact h.watermark w hw
  exact hstart.trans hle

theorem Quiet.accrued (ha : Accrues s market accrual) :
    Quiet symbol instant j (accruedLedger s market.now accrual) := by
  refine ⟨h.flat, h.accrualHistory market.now, fun w hw => ?_, h.coming⟩
  obtain ⟨t, ht, rfl⟩ := lookup_watermarks ha.1 hw; exact h.turn ht

/-- **A quiet symbol reports no lag.** -/
theorem Quiet.no_lag (ha : Accrues s market accrual) :
    accrual.lagBySymbol.lookup symbol = none := by
  cases hlag : accrual.lagBySymbol.lookup symbol with
  | none => rfl
  | some lag =>
    obtain ⟨t, ht, hl⟩ := lookup_lagBySymbol ha.1 hlag
    obtain ⟨-, w, -, -, -, hform⟩ := accrueSymbol_eq_ok ht
    have hhistory := h.accrualHistory market.now
    -- not current, and released no later than what was reached
    have hcurrent : (currentPositions (accrualInput s market (delistedOf s market)).history).lookup
        symbol = none := hhistory.current
    have hreleased : unreachedRelease (accrualInput s market (delistedOf s market)).history symbol
        t.watermark = false := by
      unfold unreachedRelease
      split
      · next released hr =>
        have hle : released ≤ instant := hhistory.released hr
        exact decide_eq_false (not_lt.mpr (hle.trans (h.turn ht)))
      · rfl
    rw [hl, hcurrent, hreleased] at hform; simp at hform

end

end Quiet

/-! ## Later runs -/

section Runs

variable {st : LiveSettings} {symbol : String} {instant : ℚ}

def BookActivity.leavesFlat (symbol : String) : BookActivity → Prop
  | .recordFill draft => draft.symbol ≠ symbol
  | _ => True

structure QuietInv (symbol : String) (instant : ℚ) (sys : BookSys) : Prop where
  file : Quiet symbol instant sys.disk.journal sys.disk.ledger
  known : ∀ b ∈ sys.known, Quiet symbol instant sys.disk.journal b.state

theorem Quiet.fill {j : Journal} {s : LedgerState} {draft : FillDraft} {f : JournalFill}
    (h : Quiet symbol instant j s) (hnew : j.newFill draft = .ok f) (hother : draft.symbol ≠ symbol) :
    Quiet symbol instant (j.apply (.fill f)) s := by
  refine ⟨h.flat, h.history, h.watermark, fun g hg hlt => ?_⟩
  rw [Journal.apply_fill_fills, mem_append, mem_singleton] at hg
  rcases hg with hg | rfl
  · exact h.coming g hg hlt
  · rw [(Journal.newFill_eq_ok hnew).1]; exact hother

theorem QuietInv.step {sys sys' : BookSys} {act : BookActivity} (hact : act.leavesFlat symbol)
    (h : QuietInv symbol instant sys) (hm : Moves st sys act sys') : QuietInv symbol instant sys' := by
  cases hm with
  | fill recorded new simulated =>
    subst recorded; exact ⟨h.file.fill new hact, fun b hb => (h.known b hb).fill new hact⟩
  | attempt a =>
    exact ⟨⟨h.file.1, h.file.2, h.file.3, h.file.4⟩, fun b hb =>
      ⟨(h.known b hb).1, (h.known b hb).2, (h.known b hb).3, (h.known b hb).4⟩⟩
  | idle script => exact ⟨h.file, h.known⟩
  | loads loaded script =>
    refine ⟨h.file, fun b hb => ?_⟩
    rcases mem_cons.mp hb with rfl | hb
    · exact h.file.loaded loaded
    · exact h.known b hb
  | @saves b s io sys' base derives writes known =>
    -- a saved book derives from one that the run knows
    have hs : Quiet symbol instant sys.disk.journal s := by
      cases derives with
      | same => exact h.known b base
      | batch track capital drawn commits => exact (h.known b base).commit drawn commits
      | derisk since reasons => exact (h.known b base).congr rfl rfl rfl rfl
      | live books => exact (h.known b base).booked (bookDelistingSettlements_eq_ok books)
    obtain ⟨hj, -, -, -, hfile⟩ := writes.frame
    refine ⟨?_, fun b' hb' => ?_⟩ <;> rw [hj]
    · rcases hfile with hfile | hfile <;> rw [hfile]
      · exact h.file
      · exact hs.saved
    · rcases known b' hb' with hold | rfl
      · exact h.known b' hold
      · exact hs
  | @books b call io sys' base calls writes known =>
    have hbase := h.known b base
    have hj : sys'.disk.journal = sys.disk.journal := (BookWrites.frame writes).1
    -- the run may die between any two of its writes
    have hfile : ∀ {d : Disk}, BookWrites st b.state call sys.disk.journal
        { sys.disk with script := io } d → Quiet symbol instant sys.disk.journal d.ledger := by
      intro d hw
      induction hw with
      | refl => exact h.file
      | tail _ hw ih =>
        cases hw with
        | commit hs => exact (hbase.committed hs).saved
        | mark hs evidence marked => exact ((hbase.committed hs).marked marked).saved
        | _ => exact ih
    refine ⟨?_, fun b' hb' => ?_⟩ <;> rw [hj]
    · exact hfile writes
    · rcases known b' hb' with hold | ⟨s, rfl, hs | ⟨s', hs', -, hmark⟩⟩
      · exact h.known b' hold
      · exact hbase.committed hs
      · exact (hbase.committed hs').marked hmark
  | @settles i b market runId io sys' posts chosen writes known =>
    have hbase := h.known b (mem_of_getElem? chosen)
    have hj : sys'.disk.journal = sys.disk.journal := (SettleWrites.frame writes).1
    have hfile : ∀ {d : Disk}, SettleWrites st b.state market runId
        { sys.disk with script := io } d → Quiet symbol instant sys.disk.journal d.ledger := by
      intro d hw
      induction hw with
      | refl => exact h.file
      | tail _ hw ih =>
        cases hw with
        | accrue haccrues recorded => exact (hbase.accrued haccrues).saved
        | settle haccrues books =>
          exact ((hbase.accrued haccrues).booked (bookDelistingSettlements_eq_ok books)).saved
        | _ => exact ih
    refine ⟨?_, fun b' hb' => ?_⟩ <;> rw [hj]
    · exact hfile writes
    · rcases known b' hb' with hold | ⟨p, hp, rfl⟩
      · exact h.known b' hold
      · obtain ⟨accrual, haccrues, -, ⟨hstate, -⟩ | ⟨booked, hbooks, -⟩⟩ := hp.state
        · exact hstate ▸ hbase.accrued haccrues
        · exact (hbase.accrued haccrues).booked (bookDelistingSettlements_eq_ok hbooks)

/-- A settlement accrues a delisted symbol up to its delivery and closes its position. -/
structure ClosesDelisted (st : LiveSettings) (base : LedgerState) (market : Market) (symbol : String)
    (series : Series) (delivery : ℚ) (settled : LedgerState) : Prop where
  delisted : (delistedOf base market).lookup symbol = some delivery
  funding : market.funding.lookup symbol = some series
  closes : ∃ accrual booked, Accrues base market accrual ∧
    BooksDelisted st base market accrual settled booked ∧
    symbol ∈ booked.map DelistingSettlement.symbol ∧
    ∀ p ∈ series, p.1 ≤ delivery → ∀ w, accrual.watermarks.lookup symbol = some w → p.1 ≤ w

/-- The settling cycle runs by some funding epoch of the symbol up to its delivery, on a history
that runs forward.  A settlement being at or after the delivery, this is one at the delivery
instant, with an epoch there. -/
structure SettlesInTime (base : LedgerState) (market : Market) (series : Series) (delivery : ℚ) : Prop where
  history : Chronological (base.accrualHistory market.now) market.now
  epoch : ∃ p ∈ series, p.1 ≤ delivery ∧ market.now ≤ p.1

theorem ClosesDelisted.quiet {base settled : LedgerState} {market : Market} {series : Series}
    {delivery : ℚ} {j : Journal} (h : ClosesDelisted st base market symbol series delivery settled)
    (hcond : SettlesInTime base market series delivery)
    (hcoming : ∀ f ∈ j.fills, settled.journalAppliedFillSeq < f.fillSeq → f.symbol ≠ symbol) :
    Quiet symbol market.now j settled := by
  obtain ⟨accrual, booked, -, hbooks, hclosed, haccrued⟩ := h.closes
  have hbooked := bookDelistingSettlements_eq_ok hbooks
  have hflat : settled.held symbol = 0 := by rw [hbooked.held, if_pos hclosed]
  refine ⟨hflat, ?_, fun w hw => ?_, hcoming⟩
  · rcases hbooked.history with ⟨-, hnone⟩ | happend
    · rw [hnone] at hclosed; exact absurd hclosed not_mem_nil
    · rw [happend]; exact flatSince_append hcond.history hflat
  · obtain ⟨p, hp, hdelivery, hnow⟩ := hcond.epoch
    rw [hbooked.watermarks] at hw; exact hnow.trans (haccrued p hp hdelivery w hw)

/-- **A settlement at or before the last funding epoch** leaves no lag for the symbol, in any run
in which it stays flat. -/
theorem released_symbol_reports_no_lag (st : LiveSettings) (base settled : LedgerState)
    (market : Market) (symbol : String) (delivery : ℚ) (series : Series)
    (hcloses : ClosesDelisted st base market symbol series delivery settled)
    (hcond : SettlesInTime base market series delivery)
    (d : Disk) (hd : d.ledger = settled.saved) (first : CycleBase) (hfirst : first.state = settled)
    (hcoming : ∀ f ∈ d.journal.fills, settled.journalAppliedFillSeq < f.fillSeq → f.symbol ≠ symbol)
    (acts : List (BookActivity × List IoStep)) (hacts : ∀ a ∈ acts, a.1.leavesFlat symbol)
    (b : CycleBase) (hb : b ∈ (BookSys.run st ⟨d, [first]⟩ acts).known) (later : Market)
    (accrual : FundingAccrual) (hlater : Accrues b.state later accrual) :
    accrual.lagBySymbol.lookup symbol = none := by
  have hquiet : Quiet symbol market.now d.journal settled := hcloses.quiet hcond hcoming
  have hinit : QuietInv symbol market.now ⟨d, [first]⟩ := by
    refine ⟨hd ▸ hquiet.saved, fun b hb => ?_⟩
    rw [mem_singleton.mp hb, hfirst]; exact hquiet
  have hrun := @BookSys.run_invariant st (QuietInv symbol market.now)
    (fun act => act.leavesFlat symbol) (fun sys sys' act hact h hm => QuietInv.step hact h hm) acts _
    hacts hinit
  exact (hrun.known b hb).no_lag hlater

end Runs

/-! ## A delisted symbol, settled in time and settled late -/

def heldLedger : LedgerState where
  positions := Dict.ofPairs [("BTCUSDT", 3)]
  cashUsdt := some 1000
  positionHistory := [⟨1000000, Dict.ofPairs [("BTCUSDT", 3)]⟩]

/-- The funding series of the delisted symbol: its last epoch is its delivery. -/
def deliveredSeries : Series := [(1036800, some (1 / 10000))]

def deliveredMarket (now : ℚ) : Market where
  listing := [⟨"BTCUSDT", "SETTLING", some 1036800000⟩]
  funding := Dict.ofPairs [("BTCUSDT", deliveredSeries)]
  closes := Dict.ofPairs [("BTCUSDT", [(1036800, some 120)])]
  settlementPrices := Dict.ofPairs [("BTCUSDT", 125)]
  now := now

def settledLedger (now : ℚ) : LedgerState :=
  match accrueFundingByWatermark (accrualInput heldLedger (deliveredMarket now)
      (delistedOf heldLedger (deliveredMarket now))) with
  | .error _ => heldLedger
  | .ok accrual =>
    match bookDelistingSettlements (accruedLedger heldLedger now accrual) .paper
        (deliveredMarket now).listing ∅
        (provenSettlements (delistedOf heldLedger (deliveredMarket now))
          (deliveredMarket now).settlementPrices) paperSettings.delistingSettlementFeeBps now with
    | .error _ => heldLedger
    | .ok (settled, _) => settled

theorem closesDelisted_settledLedger (now : ℚ) (h : now = 1036800 ∨ now = 1040000) :
    ClosesDelisted paperSettings heldLedger (deliveredMarket now) "BTCUSDT" deliveredSeries 1036800
      (settledLedger now) := by
  have hreturns : (accrueFundingByWatermark (accrualInput heldLedger (deliveredMarket now)
      (delistedOf heldLedger (deliveredMarket now)))).toOption.any (fun accrual =>
        accrual.watermarks.lookup "BTCUSDT" = some 1036800 ∧
        (bookDelistingSettlements (accruedLedger heldLedger now accrual) .paper
          (deliveredMarket now).listing ∅
          (provenSettlements (delistedOf heldLedger (deliveredMarket now))
            (deliveredMarket now).settlementPrices)
          paperSettings.delistingSettlementFeeBps now).toOption.any fun r =>
            "BTCUSDT" ∈ r.2.map DelistingSettlement.symbol) = true := by
    rcases h with rfl | rfl <;> decide +kernel
  obtain ⟨accrual, haccrual, hbooks⟩ := exists_ok hreturns
  obtain ⟨hreached, hbooks⟩ := of_decide_eq_true hbooks
  obtain ⟨⟨settled, booked⟩, hbooked, hmem⟩ := exists_ok hbooks
  have hsettled : settledLedger now = settled := by
    unfold settledLedger; simp only [haccrual, hbooked]
  refine ⟨?_, by rcases h with rfl | rfl <;> decide +kernel, accrual, booked,
    ⟨haccrual, Or.inr nofun⟩, hsettled ▸ hbooked, of_decide_eq_true hmem, ?_⟩
  · rcases h with rfl | rfl <;> decide +kernel
  · intro p hp hdelivery w hw
    rw [hreached] at hw
    rw [← Option.some.inj hw]; exact hdelivery

def releasedRun (now : ℚ) : BookSys :=
  BookSys.run paperSettings
    ⟨{ ledger := (settledLedger now).saved }, [CycleBase.plain (settledLedger now)]⟩
    [(.settlePaper 0 (deliveredMarket 1200000) "19700114", allDone)]

/-- A position settled at its last funding epoch: the accrual after the next cycle reports no lag.
-/
theorem released_symbol_reports_no_lag_in_time :
    ∃ b ∈ (releasedRun 1036800).known, ∃ accrual, Accrues b.state (deliveredMarket 1300000) accrual ∧
      accrual.lagBySymbol.lookup "BTCUSDT" = none := by
  have hknown : (releasedRun 1036800).known.head?.any (fun b =>
      (accrueFundingByWatermark (accrualInput b.state (deliveredMarket 1300000)
        (delistedOf b.state (deliveredMarket 1300000)))).toOption.any fun accrual =>
          accrual.cashDelta = 0) = true := by
    decide +kernel
  obtain ⟨b, hhead, hb⟩ := (Option.any_eq_true _ _).mp hknown
  have hmem : b ∈ (releasedRun 1036800).known := mem_of_head? hhead
  obtain ⟨accrual, haccrual, hzero⟩ := exists_ok hb
  have haccrues : Accrues b.state (deliveredMarket 1300000) accrual :=
    ⟨haccrual, Or.inl (of_decide_eq_true hzero)⟩
  have htime : SettlesInTime heldLedger (deliveredMarket 1036800) deliveredSeries 1036800 := by
    refine ⟨⟨?_, ?_⟩, (1036800, some (1 / 10000)), mem_cons_self, le_refl _, le_refl _⟩ <;>
      decide +kernel
  have hflat : ∀ a ∈ [(BookActivity.settlePaper 0 (deliveredMarket 1200000) "19700114", allDone)],
      a.1.leavesFlat "BTCUSDT" := by
    intro a ha
    rw [mem_singleton.mp ha]; trivial
  exact ⟨b, hmem, accrual, haccrues,
    released_symbol_reports_no_lag paperSettings heldLedger (settledLedger 1036800)
      (deliveredMarket 1036800) "BTCUSDT" 1036800 deliveredSeries
      (closesDelisted_settledLedger 1036800 (Or.inl rfl)) htime _ rfl _ rfl
      (fun f hf => absurd hf not_mem_nil) _ hflat b hmem _ accrual haccrues⟩

/-- **A position settled an hour after its delivery**: every epoch up to delivery is accrued, and
still the accruals of later cycles report a lag, which in three days halts the account. -/
theorem delisted_symbol_halts_account :
    ClosesDelisted paperSettings heldLedger (deliveredMarket 1040000) "BTCUSDT" deliveredSeries 1036800
      (settledLedger 1040000) ∧
    ∃ accrual, Accrues (settledLedger 1040000) (deliveredMarket 1300000) accrual ∧
      accrual.lagBySymbol.lookup "BTCUSDT" = some 263200 ∧
      enforceFundingLag accrual = .error .dataIntegrityError := by
  refine ⟨closesDelisted_settledLedger 1040000 (Or.inr rfl), ?_⟩
  have hreturns : (accrueFundingByWatermark (accrualInput (settledLedger 1040000)
      (deliveredMarket 1300000) (delistedOf (settledLedger 1040000)
        (deliveredMarket 1300000)))).toOption.any (fun accrual =>
          accrual.cashDelta = 0 ∧ accrual.lagBySymbol.lookup "BTCUSDT" = some 263200 ∧
          accrual.lagBySymbol.entries.any fun e => decide (paperFundingLagHalt < e.2)) = true := by
    decide +kernel
  obtain ⟨accrual, haccrual, h⟩ := exists_ok hreturns
  obtain ⟨hzero, hlag, hhalt⟩ := of_decide_eq_true h
  exact ⟨accrual, ⟨haccrual, Or.inl hzero⟩, hlag, if_pos hhalt⟩

end CryptoPilot.Live
