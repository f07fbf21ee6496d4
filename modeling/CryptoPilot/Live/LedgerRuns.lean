/- # LedgerRuns — a ledger over its writers, and what its file keeps of it.

A run is a list of operations: commits of journal fills, the stamps of a cycle, the recorded
watermark, funding accruals and their backfill, delisting settlements, the de-risk flag, and
restarts.  One that raises changes nothing. -/
import CryptoPilot.Lib.Interleave
import CryptoPilot.Live.HistoryTrim
import CryptoPilot.Live.JournalFileRuns
import CryptoPilot.Live.LedgerFile
import CryptoPilot.Live.PaperCycle
import CryptoPilot.Live.Recovery

namespace CryptoPilot.Live

open CryptoPilot.Lib List
open CryptoPilot.Lib.Interleave (Along Steps along_iff_steps)

/-! ## Writers -/

/-- `apply_funding_backfill`, with the fields of the plan. -/
def applyFundingBackfill (s : LedgerState) (cashDelta stop : ℚ) (seedsAccrualStart : Bool) :
    Except Exc LedgerState :=
  match s.cashUsdt with
  | none => .error .dataIntegrityError
  | some cash => .ok { s with
      cashUsdt := some (cash + cashDelta), fundingBackfilledThrough := some stop
      fundingAccrualStartedAt := s.fundingAccrualStartedAt.or (some stop)
      fundingAccruedThrough := if seedsAccrualStart then some stop else s.fundingAccruedThrough }

inductive LedgerOp where
  | commit (c : CommitConfig) (fills : List JournalFill)
  | stamp (call : CommitCall)
  | markRecorded (through : ℤ)
  | accrue (market : Market) (closedAt : Dict ℚ)
  | backfill (cashDelta stop : ℚ) (seedsAccrualStart : Bool)
  | settle (mode : ExecutionMode) (listing : List ListingEntry) (venuePositions : Dict ℚ)
      (evidence : Dict SettlementEvidence) (feeBps now : ℚ)
  | enterDerisk (reasons : List String) (now : ℚ)
  | clearDerisk
  | restart

section Runs

variable (P : LedgerTexts)

def LedgerState.perform (s : LedgerState) : LedgerOp → LedgerState
  | .commit c fills =>
    match commitFold c s fills with
    | .ok (some s') => s'
    | _ => s
  | .stamp call => if stampChanges s call then stampExecuted s call else s
  | .markRecorded through =>
    match markFillsRecorded s through with
    | .ok (some s') => s'
    | _ => s
  | .accrue market closedAt =>
    match accrueFundingByWatermark (accrualInput s market closedAt) with
    | .ok accrual => if accrual.cashDelta ≠ 0 ∧ s.cashUsdt = none then s else accruedLedger s market.now accrual
    | .error _ => s
  | .backfill cashDelta stop seeds => ((applyFundingBackfill s cashDelta stop seeds).toOption).getD s
  | .settle mode listing venuePositions evidence feeBps now =>
    match bookDelistingSettlements s mode listing venuePositions evidence feeBps now with
    | .ok (s', _) => s'
    | .error _ => s
  | .enterDerisk reasons now => (Live.enterDerisk s reasons now).getD s
  | .clearDerisk => (Live.clearDerisk s).getD s
  | .restart => ((loadLedgerText P (saveLedgerText P s)).toOption).getD s

def LedgerState.run (s : LedgerState) (ops : List LedgerOp) : LedgerState := ops.foldl (LedgerState.perform P) s

/-! ## What a file should keep -/

/-- The last snapshot holds the current positions; without a snapshot all are flat. -/
def LedgerState.Current (s : LedgerState) : Prop :=
  match s.positionHistory.getLast? with
  | some last => last.positions.entries.Perm (Dict.dropDefault s.positions 0).entries
  | none => (Dict.dropDefault s.positions 0).entries = []

def InTimeOrder (history : List PositionSnapshot) : Prop :=
  history.Pairwise fun x y => x.effectiveFrom ≤ y.effectiveFrom

/-- The file of the ledger loads as the ledger without flat positions, the snapshots in the same
order. -/
def RoundTrips (s : LedgerState) : Prop :=
  ∃ s', loadLedgerText P (saveLedgerText P s) = .ok s' ∧ s.saved.Same s' ∧ s'.Current

def LedgerState.Follows (s : LedgerState) (stamped : ℚ → Prop) : Prop :=
  ∀ last ∈ s.positionHistory.getLast?, stamped last.effectiveFrom

/-- A commit that moves a position holds a fill at or after the last snapshot; a settlement that
books something is dated so. -/
def LedgerState.InOrder (s : LedgerState) : LedgerOp → Prop
  | .commit _ fills =>
    let pending := pendingFills s.journalAppliedFillSeq fills
    consecutive s.journalAppliedFillSeq pending → (∀ f ∈ pending, f.sided) →
      (∃ symbol, positionMove symbol pending ≠ 0) → s.Follows fun t => ∃ f ∈ pending, t ≤ f.filledAt
  | .settle mode listing venuePositions evidence feeBps now =>
    (∃ s' first rest, bookDelistingSettlements s mode listing venuePositions evidence feeBps now =
      .ok (s', first :: rest)) → s.Follows fun t => t ≤ now
  | _ => True

end Runs

/-! ## The history of a writer -/

section History

variable {s s' : LedgerState} {history : List PositionSnapshot} {stamp : ℚ} {positions watermarks : Dict ℚ}

theorem getLast?_extendHistory (history : List PositionSnapshot) (stamp : ℚ) (positions : Dict ℚ) :
    ∃ last, (extendHistory history stamp positions).getLast? = some last ∧
      last.positions.entries.Perm (Dict.dropDefault positions 0).entries := by
  unfold extendHistory
  cases hlast : history.getLast? with
  | none => exact ⟨_, rfl, List.Perm.refl _⟩
  | some last =>
    dsimp only
    split_ifs with hsame
    · exact ⟨last, hlast, of_decide_eq_true hsame⟩
    · exact ⟨_, by rw [getLast?_append]; rfl, List.Perm.refl _⟩

theorem current_append
    (h : s'.positionHistory = appendPositionSnapshot history stamp s'.positions watermarks) : s'.Current := by
  obtain ⟨last, hlast, hperm⟩ := getLast?_extendHistory history stamp s'.positions
  obtain ⟨dropped, kept, hsplit, htrim, htrims⟩ :=
    @trimHistory_trims _ watermarks (extendHistory_ne_nil history stamp s'.positions)
  rw [hsplit, getLast?_append_of_ne_nil _ htrims.kept_ne] at hlast
  unfold LedgerState.Current
  rw [h, appendPositionSnapshot_eq, htrim, hlast]; exact hperm

/-- **The order of an extended history** is kept if no position moves or the stamp is not before the
last snapshot; and only then, because a trim keeps the last two. -/
theorem inTimeOrder_append (hcurrent : s.Current) (horder : InTimeOrder s.positionHistory) :
    InTimeOrder (appendPositionSnapshot s.positionHistory stamp positions watermarks) ↔
      (∀ symbol, positions.get symbol 0 = s.held symbol) ∨ s.Follows fun t => t ≤ stamp := by
  obtain ⟨dropped, kept, hsplit, htrim, htrims⟩ :=
    @trimHistory_trims _ watermarks (extendHistory_ne_nil s.positionHistory stamp positions)
  rw [appendPositionSnapshot_eq, htrim]
  have hkept : InTimeOrder (extendHistory s.positionHistory stamp positions) → InTimeOrder kept := by
    rw [hsplit]; exact fun h => (pairwise_append.mp h).2.1
  unfold LedgerState.Follows
  unfold LedgerState.Current at hcurrent
  cases hlast : s.positionHistory.getLast? with
  | none =>
    rw [getLast?_eq_none_iff] at hlast
    refine iff_of_true (hkept ?_) (.inr fun last h => (by cases h))
    rw [hlast]; exact pairwise_singleton _ _
  | some last =>
    rw [hlast] at hcurrent
    obtain ⟨init, hinit⟩ := getLast?_eq_some_iff.mp hlast
    have hsame : sameEntries last.positions (Dict.dropDefault positions 0) = true ↔
        ∀ symbol, positions.get symbol 0 = s.held symbol := by
      rw [sameEntries, decide_eq_true_iff]
      constructor
      · intro h symbol; exact Dict.perm_dropDefault_iff.mp (h.symm.trans hcurrent) symbol
      · exact fun h => hcurrent.trans (Dict.perm_dropDefault_iff.mpr fun symbol => (h symbol).symm)
    by_cases hmoved : sameEntries last.positions (Dict.dropDefault positions 0) = true
    · refine iff_of_true (hkept ?_) (.inl (hsame.mp hmoved))
      simp only [extendHistory, hlast, hmoved, if_true]; exact horder
    · have hextended : extendHistory s.positionHistory stamp positions =
          init ++ [last, ⟨stamp, Dict.dropDefault positions 0⟩] := by
        simp only [extendHistory, hlast, hmoved]
        rw [hinit, append_assoc]; rfl
      constructor
      · intro hpairwise
        right
        rintro last' hlast'
        cases hlast'
        -- the last two snapshots are among the kept ones
        have htwo : [last, ⟨stamp, Dict.dropDefault positions 0⟩] <:+ kept := by
          have hsuffix : kept <:+ init ++ [last, ⟨stamp, Dict.dropDefault positions 0⟩] :=
            ⟨dropped, hsplit.symm.trans hextended⟩
          refine suffix_of_suffix_length_le (suffix_append _ _) hsuffix ?_
          rcases htrims.enough with hnone | henough
          · rw [hnone, nil_append] at hsplit
            rw [← hsplit, hextended, length_append]; exact Nat.le_add_left _ _
          · exact le_trans (show 2 ≤ positionHistoryMax by decide) henough
        have hpair := hpairwise.sublist htwo.sublist
        exact (pairwise_cons.mp hpair).1 _ (mem_singleton.mpr rfl)
      · rintro (hfixed | hfollows)
        · exact absurd (hsame.mpr hfixed) hmoved
        · have hle : last.effectiveFrom ≤ stamp := hfollows last rfl
          refine hkept ?_
          rw [hextended]
          have hfront : InTimeOrder (init ++ [last]) := hinit ▸ horder
          obtain ⟨hinitOrder, -, hbefore⟩ := pairwise_append.mp hfront
          refine pairwise_append.mpr ⟨hinitOrder, ?_, ?_⟩
          · simpa using hle
          · intro x hx y hy
            have hxlast := hbefore x hx last (mem_singleton.mpr rfl)
            rcases mem_cons.mp hy with rfl | hy
            · exact hxlast
            · rw [mem_singleton.mp hy]; exact hxlast.trans hle

end History

/-! ## What a load preserves -/

section Same

variable {a b s : LedgerState} {history history' : List PositionSnapshot}

theorem same_getLast? (h : List.Forall₂ PositionSnapshot.Same history history') :
    history.getLast? = none ∧ history'.getLast? = none ∨
      ∃ x y, history.getLast? = some x ∧ history'.getLast? = some y ∧ x.Same y := by
  induction h with
  | nil => exact .inl ⟨rfl, rfl⟩
  | @cons x y rest rest' hxy _ ih =>
    rw [getLast?_cons, getLast?_cons]
    rcases ih with ⟨hrest, hrest'⟩ | ⟨x', y', hx', hy', hsame⟩
    · rw [hrest, hrest']; exact .inr ⟨x, y, rfl, rfl, hxy⟩
    · rw [hx', hy']; exact .inr ⟨x', y', rfl, rfl, hsame⟩

theorem LedgerState.Same.current (h : a.Same b) (ha : a.Current) : b.Current := by
  have hpositions : (Dict.dropDefault a.positions 0).entries.Perm (Dict.dropDefault b.positions 0).entries :=
    h.positions.filter _
  unfold LedgerState.Current at ha ⊢
  rcases same_getLast? h.positionHistory with ⟨hnone, hnone'⟩ | ⟨x, y, hx, hy, hsame⟩
  · rw [hnone] at ha
    rw [hnone']; exact perm_nil.mp (hpositions.symm.trans (ha ▸ List.Perm.refl _))
  · rw [hx] at ha
    rw [hy]; exact (hsame.positions.symm.trans ha).trans hpositions

theorem LedgerState.Current.saved (h : s.Current) : s.saved.Current := by
  have htwice : (Dict.dropDefault (Dict.dropDefault s.positions 0) 0).entries =
      (Dict.dropDefault s.positions 0).entries := by
    simp only [Dict.dropDefault, filter_filter, Bool.and_self]
  unfold LedgerState.Current at h ⊢
  rw [LedgerState.saved, htwice]; exact h

theorem inTimeOrder_same (h : List.Forall₂ PositionSnapshot.Same history history') :
    InTimeOrder history ↔ InTimeOrder history' := by
  have htimes : history.map PositionSnapshot.effectiveFrom = history'.map PositionSnapshot.effectiveFrom := by
    induction h with
    | nil => rfl
    | cons hxy _ ih => rw [map_cons, map_cons, hxy.effectiveFrom, ih]
  have hmap : ∀ l : List PositionSnapshot,
      InTimeOrder l ↔ (l.map PositionSnapshot.effectiveFrom).Pairwise fun x y => x ≤ y :=
    fun l => pairwise_map.symm
  rw [hmap, hmap, htimes]

theorem inTimeOrder_loaded {P : LedgerTexts} {text : List Char} (h : loadLedgerText P text = .ok s) :
    InTimeOrder s.positionHistory := by
  unfold loadLedgerText at h
  split at h
  · next fields _ =>
    split at h
    · next loaded hread =>
      cases h
      unfold readLedger at hread
      split at hread
      · obtain ⟨positions, -, rfl⟩ := Option.map_eq_some_iff.mp hread; exact List.Pairwise.nil
      · -- the sort stands behind thirteen fallible reads
        iterate 13 obtain ⟨_, -, hread⟩ := Option.bind_eq_some_iff.mp hread
        split_ifs at hread; cases hread; exact pairwise_insertionSort _ _
    · cases h
  · cases h

end Same

/-! ## Ledgers that a file keeps -/

structure LedgerState.Steady (s : LedgerState) : Prop where
  storable : s.Storable
  current : s.Current
  ordered : InTimeOrder s.positionHistory

section Steady

variable {P : LedgerTexts} {s s' : LedgerState}

theorem RoundTrips.inTimeOrder (h : RoundTrips P s) : InTimeOrder s.positionHistory := by
  obtain ⟨s', hload, hsame, -⟩ := h
  exact (inTimeOrder_same hsame.positionHistory).mpr (inTimeOrder_loaded hload)

theorem LedgerState.Steady.load (h : s.Steady) :
    ∃ s', loadLedgerText P (saveLedgerText P s) = .ok s' ∧ s.saved.Same s' := by
  obtain ⟨s', hload, t, hloaded, hsame⟩ := load_save P h.storable
  refine ⟨s', hload, ?_⟩
  have hsorted : s.saved.positionHistory.insertionSort (fun a b => a.effectiveFrom ≤ b.effectiveFrom) =
      s.saved.positionHistory := h.ordered.insertionSort_eq
  unfold LedgerState.loaded at hloaded
  rw [hsorted] at hloaded
  split_ifs at hloaded; cases hloaded; exact hsame

theorem LedgerState.Steady.roundTrips (h : s.Steady) : RoundTrips P s := by
  obtain ⟨s', hload, hsame⟩ := h.load (P := P)
  exact ⟨s', hload, hsame, hsame.current h.current.saved⟩

theorem LedgerState.Steady.congr (h : s.Steady) (hstorable : s'.Storable) (hpositions : s'.positions = s.positions)
    (hhistory : s'.positionHistory = s.positionHistory) : s'.Steady where
  storable := hstorable
  current := by
    have hcurrent := h.current
    unfold LedgerState.Current at hcurrent ⊢; rwa [hpositions, hhistory]
  ordered := hhistory ▸ h.ordered

theorem LedgerState.Storable.congr (h : s.Storable) (happlied : s.journalAppliedFillSeq ≤ s'.journalAppliedFillSeq)
    (hrecorded : s'.journalRecordedFillSeq = s.journalRecordedFillSeq)
    (hderisk : s'.deriskSince = s.deriskSince ∧ s'.deriskReasons = s.deriskReasons) : s'.Storable where
  recorded := hrecorded ▸ h.recorded
  counted := (hrecorded ▸ h.counted).trans happlied
  flagged := by
    rw [hderisk.1, hderisk.2]; exact h.flagged
  reasons := by
    rw [hderisk.2]; exact h.reasons

end Steady

/-! ## One operation -/

section Step

variable {P : LedgerTexts} {s s' : LedgerState}

theorem LedgerState.Steady.commit (h : s.Steady) (c : CommitConfig) (fills : List JournalFill) :
    s.InOrder (.commit c fills) ∧ (s.perform P (.commit c fills)).Steady ∨
      ¬s.InOrder (.commit c fills) ∧ ¬InTimeOrder (s.perform P (.commit c fills)).positionHistory := by
  rcases commitFold_cases c s fills with ⟨hnil, hfold⟩ | ⟨hfold, -, hbad⟩ | ⟨s', hfold, hcommits⟩
  · simp only [LedgerState.perform, hfold]
    refine .inl ⟨fun _ _ hmoves => ?_, h⟩
    obtain ⟨symbol, hmoves⟩ := hmoves
    rw [hnil] at hmoves; exact absurd rfl hmoves
  · simp only [LedgerState.perform, hfold]
    refine .inl ⟨fun hruns hsided _ => ?_, h⟩
    rcases hbad with hgap | ⟨f, hf, hside⟩
    · exact absurd hruns hgap
    · exact absurd (hsided f hf) hside
  · simp only [LedgerState.perform, hfold]
    obtain ⟨latest, hbound, ⟨newest, hnewest, hlatest⟩, hhistory⟩ := hcommits.history
    have hfollows : (s.Follows fun t => t ≤ latest) ↔
        s.Follows fun t => ∃ f ∈ pendingFills s.journalAppliedFillSeq fills, t ≤ f.filledAt := by
      constructor
      · exact fun hf last hlast => ⟨newest, hnewest, hlatest ▸ hf last hlast⟩
      · intro hf last hlast
        obtain ⟨f, hmem, hle⟩ := hf last hlast; exact hle.trans (hbound f hmem)
    have hfixed : (∀ symbol, s'.positions.get symbol 0 = s.held symbol) ↔
        ∀ symbol, positionMove symbol (pendingFills s.journalAppliedFillSeq fills) = 0 := by
      refine forall_congr' fun symbol => ?_
      have hheld := hcommits.held symbol
      rw [show s'.positions.get symbol 0 = s'.held symbol from rfl, hheld]; exact add_eq_left
    have hiff : InTimeOrder s'.positionHistory ↔ s.InOrder (.commit c fills) := by
      rw [hhistory, inTimeOrder_append h.current h.ordered, hfixed, hfollows]
      constructor
      · rintro (hstill | hf) - - ⟨symbol, hmoves⟩
        · exact absurd (hstill symbol) hmoves
        · exact hf
      · intro hord
        by_cases hmoves : ∃ symbol, positionMove symbol (pendingFills s.journalAppliedFillSeq fills) ≠ 0
        · exact .inr (hord hcommits.runs hcommits.sided hmoves)
        · push Not at hmoves
          exact .inl hmoves
    by_cases hord : s.InOrder (.commit c fills)
    · have happlied : s.journalAppliedFillSeq ≤ s'.journalAppliedFillSeq := by
        rw [hcommits.applied]; exact le_add_of_nonneg_right (Int.natCast_nonneg _)
      exact .inl ⟨hord, h.storable.congr happlied hcommits.recorded hcommits.derisk, current_append hhistory,
        hiff.mpr hord⟩
    · exact .inr ⟨hord, fun horder => hord (hiff.mp horder)⟩

theorem bookDelistingSettlements_cases {mode : ExecutionMode} {listing : List ListingEntry}
    {venuePositions : Dict ℚ}
    {evidence : Dict SettlementEvidence} {feeBps now : ℚ} {booked : List DelistingSettlement}
    (h : bookDelistingSettlements s mode listing venuePositions evidence feeBps now = .ok (s', booked)) :
    booked = [] ∧ s' = s ∨ booked ≠ [] ∧ ∃ cash, s' = bookedState s now cash booked := by
  unfold bookDelistingSettlements at h
  split_ifs at h
  cases mode with
  | shadow =>
    cases h; exact .inl ⟨rfl, rfl⟩
  | paper =>
    simp only at h
    unfold bookPaperSettlements at h
    split at h
    · cases h; exact .inl ⟨rfl, rfl⟩
    · split at h
      · cases h
      · cases h; exact .inr ⟨cons_ne_nil _ _, _, rfl⟩
  | liveTestnet | liveMainnet =>
    simp only at h
    unfold bookLiveSettlements at h
    split at h
    · cases h; exact .inl ⟨rfl, rfl⟩
    · cases h; exact .inr ⟨cons_ne_nil _ _, _, rfl⟩

theorem LedgerState.Steady.settle (h : s.Steady) (mode : ExecutionMode) (listing : List ListingEntry)
    (venuePositions : Dict ℚ) (evidence : Dict SettlementEvidence) (feeBps now : ℚ) :
    s.InOrder (.settle mode listing venuePositions evidence feeBps now) ∧
        (s.perform P (.settle mode listing venuePositions evidence feeBps now)).Steady ∨
      ¬s.InOrder (.settle mode listing venuePositions evidence feeBps now) ∧
        ¬InTimeOrder (s.perform P (.settle mode listing venuePositions evidence feeBps now)).positionHistory := by
  cases hbooks : bookDelistingSettlements s mode listing venuePositions evidence feeBps now with
  | error e =>
    simp only [LedgerState.perform, LedgerState.InOrder, hbooks]
    exact .inl ⟨fun hbooked => (by obtain ⟨_, _, _, heq⟩ := hbooked; cases heq), h⟩
  | ok r =>
    obtain ⟨s', booked⟩ := r
    simp only [LedgerState.perform, LedgerState.InOrder, hbooks]
    rcases bookDelistingSettlements_cases hbooks with ⟨rfl, rfl⟩ | ⟨hne, cash, rfl⟩
    · exact .inl ⟨fun hbooked => (by obtain ⟨_, _, _, heq⟩ := hbooked; cases heq), h⟩
    · obtain ⟨first, rest, rfl⟩ := exists_cons_of_ne_nil hne
      have hbooked := bookDelistingSettlements_eq_ok hbooks
      -- the first booking flattens a position that was held
      have hmoved : ¬∀ symbol, (bookedState s now cash (first :: rest)).positions.get symbol 0 = s.held symbol := by
        intro hall
        obtain ⟨hquantity, hheld⟩ := hbooked.quantity first mem_cons_self
        have hflat := hbooked.held first.symbol
        rw [if_pos (by simp)] at hflat
        exact hheld (hquantity.trans ((hall first.symbol).symm.trans hflat))
      have hiff : InTimeOrder (bookedState s now cash (first :: rest)).positionHistory ↔
          s.Follows fun t => t ≤ now := by
        refine (inTimeOrder_append h.current h.ordered).trans ?_; exact or_iff_right hmoved
      by_cases hfollows : s.Follows fun t => t ≤ now
      · refine .inl ⟨fun _ => hfollows, h.storable.congr le_rfl rfl ⟨rfl, rfl⟩, ?_, hiff.mpr hfollows⟩
        have hcurrent : (bookedState s now cash (first :: rest)).Current := current_append rfl
        exact hcurrent
      · exact .inr ⟨fun hord => hfollows (hord ⟨_, _, _, rfl⟩), fun horder => hfollows (hiff.mp horder)⟩

theorem sortedReasons_idem (reasons : List String) :
    sortedReasons (sortedReasons reasons) = sortedReasons reasons := by
  have hnodup : (sortedReasons reasons).Nodup := (perm_insertionSort _ _).nodup_iff.mpr (nodup_dedup reasons)
  have hsorted : (sortedReasons reasons).Pairwise fun a b => a ≤ b := pairwise_insertionSort _ _
  rw [sortedReasons, hnodup.dedup]; exact hsorted.insertionSort_eq

theorem LedgerState.Current.accrualHistory (h : s.Current) (now : ℚ) :
    s.accrualHistory now = s.positionHistory := by
  have hboot : s.needsBootstrap = false := by
    unfold LedgerState.needsBootstrap LedgerState.heldPositions
    cases hhistory : s.positionHistory with
    | cons snap rest => rfl
    | nil =>
      unfold LedgerState.Current at h
      rw [hhistory] at h
      have hflat : (Dict.dropDefault s.positions 0).entries = [] := h
      rw [hflat]; rfl
  rw [LedgerState.accrualHistory, hboot]; rfl

/-- **One operation**: where it is in order the ledger stays steady, elsewhere its history loses
order. -/
theorem LedgerState.Steady.step (h : s.Steady) (op : LedgerOp) :
    s.InOrder op ∧ (s.perform P op).Steady ∨ ¬s.InOrder op ∧ ¬InTimeOrder (s.perform P op).positionHistory := by
  cases op with
  | commit c fills => exact h.commit c fills
  | settle mode listing venuePositions evidence feeBps now =>
    exact h.settle mode listing venuePositions evidence feeBps now
  | stamp call =>
    refine .inl ⟨trivial, ?_⟩
    simp only [LedgerState.perform]
    split_ifs
    · exact h.congr (h.storable.congr le_rfl rfl ⟨rfl, rfl⟩) rfl rfl
    · exact h
  | markRecorded through =>
    refine .inl ⟨trivial, ?_⟩
    simp only [LedgerState.perform, markFillsRecorded]
    split_ifs with hback hahead hsame
    · exact h
    · exact h
    · exact h
    · rw [not_lt] at hback hahead
      exact h.congr ⟨h.storable.recorded.trans hback, hahead, h.storable.flagged, h.storable.reasons⟩ rfl rfl
  | accrue market closedAt =>
    refine .inl ⟨trivial, ?_⟩
    simp only [LedgerState.perform]
    split
    · split_ifs
      · exact h
      · exact h.congr (h.storable.congr le_rfl rfl ⟨rfl, rfl⟩) rfl (h.current.accrualHistory market.now)
    · exact h
  | backfill cashDelta stop seeds =>
    refine .inl ⟨trivial, ?_⟩
    simp only [LedgerState.perform, applyFundingBackfill]
    cases s.cashUsdt with
    | none => exact h
    | some cash => exact h.congr (h.storable.congr le_rfl rfl ⟨rfl, rfl⟩) rfl rfl
  | enterDerisk reasons now =>
    refine .inl ⟨trivial, ?_⟩
    simp only [LedgerState.perform, Live.enterDerisk]
    split_ifs
    · exact h
    · exact h.congr ⟨h.storable.recorded, h.storable.counted, nofun, sortedReasons_idem _⟩ rfl rfl
  | clearDerisk =>
    refine .inl ⟨trivial, ?_⟩
    simp only [LedgerState.perform, Live.clearDerisk]
    split_ifs
    · exact h
    · exact h.congr ⟨h.storable.recorded, h.storable.counted, fun _ => rfl, rfl⟩ rfl rfl
  | restart =>
    refine .inl ⟨trivial, ?_⟩
    obtain ⟨s', hload, hsame⟩ := h.load (P := P)
    simp only [LedgerState.perform, hload]
    refine ⟨⟨?_, ?_, ?_, ?_⟩, hsame.current h.current.saved, inTimeOrder_loaded hload⟩
    · exact hsame.journalRecordedFillSeq ▸ h.storable.recorded
    · exact hsame.journalRecordedFillSeq ▸ hsame.journalAppliedFillSeq ▸ h.storable.counted
    · exact hsame.deriskSince ▸ hsame.deriskReasons ▸ h.storable.flagged
    · exact hsame.deriskReasons ▸ h.storable.reasons

end Step

/-! ## Whole runs -/

theorem steady_empty : LedgerState.Steady {} where
  storable := ⟨le_rfl, le_rfl, fun _ => rfl, rfl⟩
  current := rfl
  ordered := List.Pairwise.nil

/-- **The ledger file over a run**: it keeps the ledger in every state exactly if every operation is
in order in the state that it finds. -/
theorem ledger_round_trips_iff (P : LedgerTexts) (ops : List LedgerOp) :
    (∀ before, before <+: ops → RoundTrips P (LedgerState.run P {} before)) ↔
      ∀ before op, before ++ [op] <+: ops → (LedgerState.run P {} before).InOrder op :=
  along_iff_steps (fun _ (h : LedgerState.Steady _) => h.roundTrips)
    (fun _ op h => (h.step (P := P) op).imp id fun hbad => ⟨hbad.1, fun htrips => hbad.2 htrips.inTimeOrder⟩)
    steady_empty

/-! ## A recovered fill -/

section Recovered

def epochLedger : LedgerTexts where
  toJournalTexts := epochTexts
  decimal := epochTexts.parseDecimal
  decimal_text := epochTexts.parseDecimal_text
  utc := epochTexts.parseTs
  utc_iso := epochTexts.parseTs_iso
  stamp := epochTexts.parseTs
  stamp_iso := epochTexts.parseTs_iso

def tradedFill : JournalFill := ⟨{ firstFill with filledAt := 2000 }, 0⟩

def lostSubmit : JournalSubmit where
  clientOrderId := "cp-0-1"
  symbol := "ETHUSDT"
  submitSeq := 0
  attemptSeq := some 0
  side := some "BUY"
  quantity := some 1
  reduceOnly := some false
  legIndex := some 0
  recordedAt := some 1000

def lostJournal : Journal := Journal.load [.schema, .submit lostSubmit, .fill tradedFill]

def lostPayload : OrderPayload where
  status := "FILLED"
  executedQty := .value 1
  avgPrice := .value 1
  side := some "BUY"
  updateTime := some 1000000
  time := some 1000000

/-- The next cycle recovers it: the query, the clock margin, and the writes. -/
def recoveredJournal : Journal :=
  (recoverUnresolvedOrders { now := 5000, lookback := 86400, takerFeeBps := 5 }
    (World.fresh lostJournal [{ reply := .order lostPayload }, { reply := .millis (some 0) }, {},
      {}, {}, {}, {}])).2.journal

def liveCommit : CommitConfig := ⟨none, false, 0, none⟩

/-- The fill of the lost order is filled before the one that the ledger holds. -/
theorem recovered_fill_reorders_history :
    ¬RoundTrips epochLedger (LedgerState.run epochLedger {}
      [.commit liveCommit lostJournal.fills, .commit liveCommit recoveredJournal.fills]) := by
  intro htrips
  have htimes : (LedgerState.run epochLedger {} [.commit liveCommit lostJournal.fills,
      .commit liveCommit recoveredJournal.fills]).positionHistory.map
        PositionSnapshot.effectiveFrom = [2000, 1000] := by
    decide +kernel
  have horder := pairwise_map.mpr htrips.inTimeOrder
  rw [htimes] at horder
  revert horder
  decide +kernel

end Recovered

end CryptoPilot.Live
