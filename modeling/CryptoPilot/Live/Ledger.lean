/- # Ledger — the internal position ledger and the fold of journal fills into it.

`LedgerState` is what the ledger file holds.  `commitFold` is `commit_journal_fills` up to its one
atomic write: it takes the candidate fills above the applied watermark, refuses a gap in their
sequence and an unknown side, and folds the rest into positions and (in the mutation-suppressed
modes) simulated cash. -/
import Mathlib.Algebra.Order.Group.Unbundled.Abs
import Mathlib.Algebra.BigOperators.Group.List.Basic
import Mathlib.Tactic.Ring
import CryptoPilot.Live.OrderJournal

namespace CryptoPilot.Live

open CryptoPilot.Lib List

/-! ## The state -/

/-- `PositionSnapshot`: the positions held from an instant on. -/
structure PositionSnapshot where
  effectiveFrom : ℚ
  positions : Dict ℚ

structure LedgerState where
  positions : Dict ℚ := ∅
  equityHighWaterMark : ℚ := 0
  cashUsdt : Option ℚ := none
  fundingAccruedThrough : Option ℚ := none
  lastExecutedDecisionTime : Option ℚ := none
  fundingWatermarks : Dict ℚ := ∅
  positionHistory : List PositionSnapshot := []
  fundingAccrualStartedAt : Option ℚ := none
  fundingBackfilledThrough : Option ℚ := none
  journalAppliedFillSeq : ℤ := -1
  journalRecordedFillSeq : ℤ := -1
  deriskSince : Option ℚ := none
  deriskReasons : List String := []

namespace LedgerState

def held (s : LedgerState) (symbol : String) : ℚ := s.positions.get symbol 0

/-- What `save_ledger` leaves on disk: flat positions are not written. -/
def saved (s : LedgerState) : LedgerState := { s with positions := Dict.dropDefault s.positions 0 }

@[simp] theorem saved_held (s : LedgerState) (symbol : String) : s.saved.held symbol = s.held symbol :=
  Dict.get_dropDefault s.positions symbol 0

/-- What `load_ledger` makes of a file: the snapshots in time order; a recorded watermark above the
applied one is corruption. -/
def loaded (s : LedgerState) : Except Exc LedgerState :=
  if s.journalRecordedFillSeq > s.journalAppliedFillSeq then .error .dataIntegrityError
  else .ok { s with
    positionHistory := s.positionHistory.insertionSort (fun a b => a.effectiveFrom ≤ b.effectiveFrom) }

end LedgerState

/-! ## Position history -/

def positionHistoryMax : ℕ := 4

def sameEntries (d e : Dict ℚ) : Bool := decide (d.entries.Perm e.entries)

def leastValue (d : Dict ℚ) : Option ℚ := (d.entries.map Sigma.snd).min?

/-- The index of the last snapshot, from the front, that is not after `oldest`; 0 when there is
none. -/
def activeIndex (oldest : ℚ) : List PositionSnapshot → ℕ
  | [] => 0
  | [_] => 0
  | a :: b :: rest =>
    if a.effectiveFrom ≤ oldest ∧ b.effectiveFrom ≤ oldest then activeIndex oldest (b :: rest) + 1
    else 0

/-- `append_position_snapshot`. -/
def appendPositionSnapshot (history : List PositionSnapshot) (effectiveFrom : ℚ) (positions : Dict ℚ)
    (watermarks : Dict ℚ) : List PositionSnapshot :=
  let nonzero := Dict.dropDefault positions 0
  let snaps :=
    match history.getLast? with
    | some last =>
      if sameEntries last.positions nonzero then history
      else history ++ [⟨effectiveFrom, nonzero⟩]
    | none => [⟨effectiveFrom, nonzero⟩]
  if snaps.length ≤ positionHistoryMax then snaps
  else
    let start := snaps.length - positionHistoryMax
    let start :=
      match leastValue watermarks with
      | none => start
      | some oldest => min start (activeIndex oldest snaps)
    snaps.drop start

/-! ## Committing journal fills -/

def fillCashDelta (side : String) (quantity price feeBps : ℚ) : ℚ :=
  let signed := if side = "BUY" then quantity else -quantity
  let notional := |quantity * price|
  let flow := -signed * price
  let fee := notional * feeBps / 10000
  flow - fee

/-- One turn of the loop of `commit_journal_fills`. -/
def foldFill (trackCash : Bool) (acc : Dict ℚ × Option ℚ) (fill : JournalFill) : Except Exc (Dict ℚ × Option ℚ) :=
  if fill.side ≠ "BUY" ∧ fill.side ≠ "SELL" then .error .dataIntegrityError
  else
    let position := acc.1.get fill.symbol 0
    let positions := acc.1.insert fill.symbol
      (if fill.side = "BUY" then position + fill.quantity else position - fill.quantity)
    if trackCash ∧ fill.kind ≠ .operatorResync then
      .ok (positions, acc.2.map fun cash =>
        cash + fillCashDelta fill.side fill.quantity fill.price fill.feeBps)
    else .ok (positions, acc.2)

def pendingFills (watermark : ℤ) (fills : List JournalFill) : List JournalFill :=
  (fills.filter fun f => decide (watermark < f.fillSeq)).insertionSort
    (fun a b => a.fillSeq ≤ b.fillSeq)

/-- `seqs == list(range(watermark + 1, seqs[-1] + 1))`. -/
def consecutive : ℤ → List JournalFill → Bool
  | _, [] => true
  | watermark, f :: rest => decide (f.fillSeq = watermark + 1) && consecutive (watermark + 1) rest

structure CommitConfig where
  equity : Option ℚ
  trackCash : Bool
  startingCapital : ℚ
  executedDecisionTime : Option ℚ

/-- `commit_journal_fills` up to `save_ledger`: the state to persist, if a fill is pending. -/
def commitFold (c : CommitConfig) (base : LedgerState) (fills : List JournalFill) :
    Except Exc (Option LedgerState) :=
  match pendingFills base.journalAppliedFillSeq fills with
  | [] => .ok none
  | first :: rest =>
    let pending := first :: rest
    if consecutive base.journalAppliedFillSeq pending then do
      let seed := if c.trackCash ∧ base.cashUsdt = none then some c.startingCapital else base.cashUsdt
      let (positions, cash) ← pending.foldlM (foldFill c.trackCash) (base.positions, seed)
      let latestFilledAt := (rest.map (·.filledAt)).foldl max first.filledAt
      let history := appendPositionSnapshot base.positionHistory latestFilledAt positions
        base.fundingWatermarks
      let hwm := match c.equity with
        | some equity => max base.equityHighWaterMark equity
        | none => base.equityHighWaterMark
      .ok <| some { base with
        positions := positions, equityHighWaterMark := hwm, cashUsdt := cash,
        lastExecutedDecisionTime := c.executedDecisionTime.or base.lastExecutedDecisionTime,
        positionHistory := history,
        journalAppliedFillSeq := (rest.getLastD first).fillSeq }
    else .error .dataIntegrityError

/-- `mark_fills_recorded` up to `save_ledger`. -/
def markFillsRecorded (base : LedgerState) (through : ℤ) : Except Exc (Option LedgerState) :=
  if through < base.journalRecordedFillSeq then .error .valueError
  else if through > base.journalAppliedFillSeq then .error .valueError
  else if through = base.journalRecordedFillSeq then .ok none
  else .ok (some { base with journalRecordedFillSeq := through })

/-- `sorted(set(reasons))`. -/
def sortedReasons (reasons : List String) : List String :=
  reasons.dedup.insertionSort (fun a b => a ≤ b)

/-- `enter_derisk` up to `save_ledger`. -/
def enterDerisk (base : LedgerState) (reasons : List String) (now : ℚ) : Option LedgerState :=
  let merged := sortedReasons (base.deriskReasons ++ reasons)
  if base.deriskSince.isSome ∧ merged = base.deriskReasons then none
  else some { base with deriskSince := some (base.deriskSince.getD now), deriskReasons := merged }

/-- `clear_derisk` up to `save_ledger`. -/
def clearDerisk (base : LedgerState) : Option LedgerState :=
  if base.deriskSince = none ∧ base.deriskReasons = [] then none
  else some { base with deriskSince := none, deriskReasons := [] }

/-! ## The moves of a fill -/

def JournalFill.signedQty (f : JournalFill) : ℚ := if f.side = "BUY" then f.quantity else -f.quantity

def JournalFill.cashMove (f : JournalFill) : ℚ :=
  if f.kind = .operatorResync then 0 else fillCashDelta f.side f.quantity f.price f.feeBps

def positionMove (symbol : String) (fills : List JournalFill) : ℚ :=
  (fills.map fun f => if f.symbol = symbol then f.signedQty else 0).sum

def cashMove (fills : List JournalFill) : ℚ := (fills.map JournalFill.cashMove).sum

def JournalFill.sided (f : JournalFill) : Prop := f.side = "BUY" ∨ f.side = "SELL"

@[simp] theorem positionMove_nil (symbol : String) : positionMove symbol [] = 0 := rfl

@[simp] theorem cashMove_nil : cashMove [] = 0 := rfl

@[simp] theorem positionMove_append (symbol : String) (xs ys : List JournalFill) :
    positionMove symbol (xs ++ ys) = positionMove symbol xs + positionMove symbol ys := by
  simp [positionMove]

theorem foldFill_eq (trackCash : Bool) (acc : Dict ℚ × Option ℚ) (fill : JournalFill) :
    (¬ fill.sided ∧ foldFill trackCash acc fill = .error .dataIntegrityError) ∨
    (fill.sided ∧ ∃ acc', foldFill trackCash acc fill = .ok acc' ∧
      (∀ symbol, acc'.1.get symbol 0 = acc.1.get symbol 0 + positionMove symbol [fill]) ∧
      acc'.2 = if trackCash then acc.2.map (· + fill.cashMove) else acc.2) := by
  by_cases hside : fill.sided
  · right
    refine ⟨hside, ?_⟩
    have hknown : ¬ (fill.side ≠ "BUY" ∧ fill.side ≠ "SELL") := by
      rintro ⟨hb, hs⟩; exact hside.elim hb hs
    rw [foldFill, if_neg hknown]
    set positions : Dict ℚ := acc.1.insert fill.symbol (if fill.side = "BUY"
      then acc.1.get fill.symbol 0 + fill.quantity else acc.1.get fill.symbol 0 - fill.quantity)
      with hpositions
    have hmoved : ∀ symbol, Dict.get positions symbol 0
        = acc.1.get symbol 0 + positionMove symbol [fill] := by
      intro symbol
      rw [Dict.get_insert]
      by_cases hsym : symbol = fill.symbol
      · subst hsym
        by_cases hbuy : fill.side = "BUY" <;>
          simp [positionMove, JournalFill.signedQty, hbuy, sub_eq_add_neg]
      · have hsym' : ¬ fill.symbol = symbol := fun h => hsym h.symm
        simp [positionMove, hsym, hsym']
    by_cases hcash : trackCash ∧ fill.kind ≠ .operatorResync
    · refine ⟨_, if_pos hcash, hmoved, ?_⟩
      rw [if_pos hcash.1]; simp [JournalFill.cashMove, hcash.2]
    · refine ⟨_, if_neg hcash, hmoved, ?_⟩
      cases htrack : trackCash with
      | false => rfl
      | true =>
        have hkind : fill.kind = .operatorResync := by
          by_contra hk; exact hcash ⟨htrack, hk⟩
        simp [JournalFill.cashMove, hkind]
  · left
    refine ⟨hside, if_pos ⟨fun h => hside (Or.inl h), fun h => hside (Or.inr h)⟩⟩

/-- **The loop.**  It succeeds exactly when every side is known, and moves positions and cash by its
fills. -/
theorem foldlM_foldFill (trackCash : Bool) (fills : List JournalFill) :
    ∀ acc : Dict ℚ × Option ℚ,
      (fills.foldlM (foldFill trackCash) acc = .error .dataIntegrityError ∧
        ∃ f ∈ fills, ¬ f.sided) ∨
      ((∀ f ∈ fills, f.sided) ∧ ∃ acc', fills.foldlM (foldFill trackCash) acc = .ok acc' ∧
        (∀ symbol, acc'.1.get symbol 0 = acc.1.get symbol 0 + positionMove symbol fills) ∧
        acc'.2 = if trackCash then acc.2.map (· + cashMove fills) else acc.2) := by
  induction fills with
  | nil =>
    intro acc
    refine Or.inr ⟨by simp, acc, rfl, by simp, ?_⟩
    cases trackCash <;> simp
  | cons f rest ih =>
    intro acc
    rw [foldlM_cons]
    rcases foldFill_eq trackCash acc f with ⟨hside, herr⟩ | ⟨hside, mid, hok, hpos, hcash⟩
    · rw [herr]; exact Or.inl ⟨rfl, f, mem_cons_self, hside⟩
    · rw [hok]
      change (rest.foldlM (foldFill trackCash) mid = _ ∧ _) ∨ _ ∧
        ∃ acc', rest.foldlM (foldFill trackCash) mid = _ ∧ _
      rcases ih mid with ⟨herr, g, hg, hgside⟩ | ⟨hsides, fin, hfin, hpos', hcash'⟩
      · exact Or.inl ⟨herr, g, mem_cons_of_mem f hg, hgside⟩
      · refine Or.inr ⟨?_, fin, hfin, fun symbol => ?_, ?_⟩
        · intro g hg
          rcases mem_cons.mp hg with rfl | hg
          · exact hside
          · exact hsides g hg
        · rw [hpos', hpos, add_assoc, ← positionMove_append, singleton_append]
        · rw [hcash', hcash]
          cases trackCash with
          | false => rfl
          | true =>
            simp only [if_true, Option.map_map]
            congr 1
            funext cash
            change cash + f.cashMove + cashMove rest = cash + cashMove (f :: rest)
            rw [add_assoc]; simp [cashMove]

/-! ## Consecutive sequence numbers -/

section Consecutive

variable {w : ℤ} {fills : List JournalFill}

theorem consecutive_cons {f : JournalFill} :
    consecutive w (f :: fills) ↔ f.fillSeq = w + 1 ∧ consecutive (w + 1) fills := by
  simp [consecutive]

section

variable (h : consecutive w fills)

include h

theorem consecutive_bounds {f : JournalFill} (hf : f ∈ fills) :
    w < f.fillSeq ∧ f.fillSeq ≤ w + fills.length := by
  induction fills generalizing w with
  | nil => cases hf
  | cons g rest ih =>
    obtain ⟨hg, hrest⟩ := consecutive_cons.mp h
    rcases mem_cons.mp hf with rfl | hf
    · rw [length_cons]; omega
    · have := ih hrest hf
      rw [length_cons]; omega

theorem consecutive_covers {q : ℤ} (hlo : w < q) (hhi : q ≤ w + fills.length) :
    ∃ f ∈ fills, f.fillSeq = q := by
  induction fills generalizing w with
  | nil =>
    rw [length_nil] at hhi; omega
  | cons g rest ih =>
    obtain ⟨hg, hrest⟩ := consecutive_cons.mp h
    by_cases hq : q = w + 1
    · exact ⟨g, mem_cons_self, hg.trans hq.symm⟩
    · rw [length_cons] at hhi
      obtain ⟨f, hf, hfq⟩ := ih hrest (by omega) (by omega); exact ⟨f, mem_cons_of_mem g hf, hfq⟩

theorem consecutive_pairwise : fills.Pairwise fun a b => a.fillSeq < b.fillSeq := by
  induction fills generalizing w with
  | nil => exact List.Pairwise.nil
  | cons g rest ih =>
    obtain ⟨hg, hrest⟩ := consecutive_cons.mp h
    refine List.Pairwise.cons (fun f hf => ?_) (ih hrest)
    have := consecutive_bounds hrest hf; omega

end

theorem consecutive_getLastD {first : JournalFill} (h : consecutive w (first :: fills)) :
    (fills.getLastD first).fillSeq = w + (first :: fills).length := by
  induction fills generalizing w first with
  | nil =>
    simpa using (consecutive_cons.mp h).1
  | cons g rest ih =>
    rw [getLastD_cons, ih (consecutive_cons.mp h).2]
    simp only [length_cons]
    push_cast; ring

end Consecutive

def between (lo hi : ℤ) (fills : List JournalFill) : List JournalFill :=
  fills.filter fun f => decide (lo < f.fillSeq ∧ f.fillSeq ≤ hi)

variable {lo hi : ℤ} {f : JournalFill} {fills : List JournalFill}

theorem mem_between : f ∈ between lo hi fills ↔ f ∈ fills ∧ lo < f.fillSeq ∧ f.fillSeq ≤ hi := by
  simp [between]

theorem between_self (w : ℤ) (fills : List JournalFill) : between w w fills = [] := by
  rw [between, filter_eq_nil_iff]
  intro f _ hf
  have := of_decide_eq_true hf; omega

theorem between_append_of_lt {fills more : List JournalFill}
    (h : ∀ f ∈ more, hi < f.fillSeq) : between lo hi (fills ++ more) = between lo hi fills := by
  have hmore : more.filter (fun f => decide (lo < f.fillSeq ∧ f.fillSeq ≤ hi)) = [] := by
    rw [filter_eq_nil_iff]
    intro f hf hin
    have := of_decide_eq_true hin
    have := h f hf; omega
  rw [between, filter_append, hmore, append_nil, between]

variable (rest : List JournalFill)

theorem between_cons_of_mem
    (h : lo < f.fillSeq ∧ f.fillSeq ≤ hi) : between lo hi (f :: rest) = f :: between lo hi rest :=
  filter_cons_of_pos (decide_eq_true h)

theorem between_cons_of_not_mem
    (h : ¬ (lo < f.fillSeq ∧ f.fillSeq ≤ hi)) : between lo hi (f :: rest) = between lo hi rest :=
  filter_cons_of_neg (by rw [decide_eq_false h]; exact Bool.false_ne_true)

theorem sum_between_add (g : JournalFill → ℚ) {lo mid hi : ℤ} (hlo : lo ≤ mid) (hhi : mid ≤ hi)
    (fills : List JournalFill) :
    ((between lo hi fills).map g).sum
      = ((between lo mid fills).map g).sum + ((between mid hi fills).map g).sum := by
  induction fills with
  | nil => simp [between]
  | cons f rest ih =>
    by_cases h1 : lo < f.fillSeq ∧ f.fillSeq ≤ mid
    · rw [between_cons_of_mem rest h1, between_cons_of_mem rest (by omega),
        between_cons_of_not_mem rest (by omega)]
      simp only [map_cons, sum_cons, ih]; ring
    · by_cases h2 : mid < f.fillSeq ∧ f.fillSeq ≤ hi
      · rw [between_cons_of_not_mem rest h1, between_cons_of_mem rest h2,
          between_cons_of_mem rest (by omega)]
        simp only [map_cons, sum_cons, ih]; ring
      · rw [between_cons_of_not_mem rest h1, between_cons_of_not_mem rest h2,
          between_cons_of_not_mem rest (by omega), ih]

/-- INV-FILL-WAL: the fills of a journal carry lifetime-unique sequence numbers. -/
def Sequenced (fills : List JournalFill) : Prop := (fills.map (·.fillSeq)).Nodup

theorem consecutive_sequenced {w : ℤ} (h : consecutive w fills) : Sequenced fills :=
  pairwise_map.mpr ((consecutive_pairwise h).imp fun hlt => hlt.ne)

theorem Sequenced.eq_of_fillSeq_eq (h : Sequenced fills)
    {f g : JournalFill} (hf : f ∈ fills) (hg : g ∈ fills) (hseq : f.fillSeq = g.fillSeq) : f = g :=
  inj_on_of_nodup_map h hf hg hseq

theorem pendingFills_perm_between {w : ℤ} {journal batch : List JournalFill}
    (hj : Sequenced journal) (hbatch : ∀ f ∈ batch, f ∈ journal) (hc : consecutive w (pendingFills w batch)) :
    (pendingFills w batch).Perm (between w (w + (pendingFills w batch).length) journal) := by
  have hsub : ∀ f ∈ pendingFills w batch, f ∈ journal := by
    intro f hf
    rw [pendingFills, mem_insertionSort, mem_filter] at hf; exact hbatch f hf.1
  have hnodup := List.Nodup.of_map _ (consecutive_sequenced hc)
  refine (perm_ext_iff_of_nodup hnodup ((List.Nodup.of_map _ hj).filter _)).mpr fun f => ?_
  change _ ↔ f ∈ between _ _ journal
  rw [mem_between]
  constructor
  · intro hf; exact ⟨hsub f hf, consecutive_bounds hc hf⟩
  · rintro ⟨hf, hlo, hhi⟩
    obtain ⟨g, hg, hgf⟩ := consecutive_covers hc hlo hhi
    rw [← hj.eq_of_fillSeq_eq (hsub g hg) hf hgf]; exact hg

/-! ## What a commit does -/

/-- A commit that persists: the pending fills run on from the watermark, and move the old state to
the new. -/
structure Commits (c : CommitConfig) (base : LedgerState) (pending : List JournalFill)
    (s' : LedgerState) : Prop where
  nonempty : pending ≠ []
  runs : consecutive base.journalAppliedFillSeq pending
  sided : ∀ f ∈ pending, f.sided
  applied : s'.journalAppliedFillSeq = base.journalAppliedFillSeq + pending.length
  held : ∀ symbol, s'.held symbol = base.held symbol + positionMove symbol pending
  cash : s'.cashUsdt = if c.trackCash
    then some (base.cashUsdt.getD c.startingCapital + cashMove pending) else base.cashUsdt
  recorded : s'.journalRecordedFillSeq = base.journalRecordedFillSeq
  watermarks : s'.fundingWatermarks = base.fundingWatermarks
  accrued : s'.fundingAccruedThrough = base.fundingAccruedThrough
  derisk : s'.deriskSince = base.deriskSince ∧ s'.deriskReasons = base.deriskReasons
  history : ∃ latest, (∀ f ∈ pending, f.filledAt ≤ latest) ∧ (∃ f ∈ pending, f.filledAt = latest) ∧
    s'.positionHistory
      = appendPositionSnapshot base.positionHistory latest s'.positions base.fundingWatermarks

theorem foldl_max_spec (xs : List ℚ) : ∀ x : ℚ, x ≤ xs.foldl max x ∧ (∀ y ∈ xs, y ≤ xs.foldl max x) ∧
    (xs.foldl max x = x ∨ xs.foldl max x ∈ xs) := by
  induction xs with
  | nil =>
    intro x; simp
  | cons y rest ih =>
    intro x
    obtain ⟨hle, hall, hin⟩ := ih (max x y)
    refine ⟨(le_max_left x y).trans hle, ?_, ?_⟩
    · intro z hz
      rcases mem_cons.mp hz with rfl | hz
      · exact (le_max_right x z).trans hle
      · exact hall z hz
    · rcases hin with hin | hin
      · rcases max_choice x y with hmax | hmax
        · exact Or.inl (hin.trans hmax)
        · exact Or.inr (mem_cons.mpr (Or.inl (hin.trans hmax)))
      · exact Or.inr (mem_cons_of_mem y hin)

/-- **What `commit_journal_fills` can do**: nothing; raise on a gap or an unknown side; or persist
the moved state. -/
theorem commitFold_cases (c : CommitConfig) (base : LedgerState) (fills : List JournalFill) :
    let pending := pendingFills base.journalAppliedFillSeq fills
    (pending = [] ∧ commitFold c base fills = .ok none) ∨
    (commitFold c base fills = .error .dataIntegrityError ∧ pending ≠ [] ∧
      (¬ consecutive base.journalAppliedFillSeq pending ∨ ∃ f ∈ pending, ¬ f.sided)) ∨
    ∃ s', commitFold c base fills = .ok (some s') ∧ Commits c base pending s' := by
  intro pending
  unfold commitFold
  cases hp : pendingFills base.journalAppliedFillSeq fills with
  | nil => exact Or.inl ⟨hp, rfl⟩
  | cons first rest =>
    have hpending : pending = first :: rest := hp
    right
    have hne : pending ≠ [] := by
      rw [hpending]; exact cons_ne_nil first rest
    by_cases hc : consecutive base.journalAppliedFillSeq (first :: rest)
    · simp only [hc, if_true]
      rcases foldlM_foldFill c.trackCash (first :: rest)
        (base.positions, if c.trackCash ∧ base.cashUsdt = none then some c.startingCapital
          else base.cashUsdt) with ⟨herr, hbad⟩ | ⟨hsided, acc, hok, hpos, hcash⟩
      · rw [herr]
        left
        refine ⟨rfl, hne, Or.inr ?_⟩
        rw [hpending]; exact hbad
      · rw [hok]
        right
        obtain ⟨hle, hall, hin⟩ := foldl_max_spec (rest.map (·.filledAt)) first.filledAt
        refine ⟨_, rfl, hne, hpending ▸ hc, hpending ▸ hsided, ?_, ?_, ?_, rfl, rfl, rfl, ⟨rfl, rfl⟩,
          (rest.map (·.filledAt)).foldl max first.filledAt, ?_, ?_, rfl⟩
        · rw [hpending]; exact consecutive_getLastD hc
        · rw [hpending]; exact hpos
        · rw [hpending]
          refine hcash.trans ?_
          cases htrack : c.trackCash with
          | false => simp
          | true => cases hb : base.cashUsdt <;> simp
        · intro f hf
          rw [hpending] at hf
          rcases mem_cons.mp hf with rfl | hf
          · exact hle
          · exact hall _ (mem_map_of_mem hf)
        · rw [hpending]
          rcases hin with hin | hin
          · exact ⟨first, mem_cons_self, hin.symm⟩
          · obtain ⟨f, hf, hfeq⟩ := mem_map.mp hin; exact ⟨f, mem_cons_of_mem first hf, hfeq⟩
    · left
      simp only [hc, Bool.false_eq_true, if_false, true_and]
      refine ⟨hne, Or.inl ?_⟩
      rw [hpending]; exact hc

/-! ## The ledger as a fold of the journal -/

/-- **The abstract ledger**: `init` plus the moves of the journal fills up to the watermark of `s`.
Cash is tracked in the mutation-suppressed modes only, where the first fill seeds a missing balance.
-/
structure LedgerFold (trackCash : Bool) (startingCapital : ℚ) (journal : List JournalFill)
    (init s : LedgerState) : Prop where
  le_applied : init.journalAppliedFillSeq ≤ s.journalAppliedFillSeq
  held : ∀ symbol, s.held symbol = init.held symbol + positionMove symbol
    (between init.journalAppliedFillSeq s.journalAppliedFillSeq journal)
  cash : s.cashUsdt =
    if trackCash ∧ init.journalAppliedFillSeq < s.journalAppliedFillSeq then
      some (init.cashUsdt.getD startingCapital
        + cashMove (between init.journalAppliedFillSeq s.journalAppliedFillSeq journal))
    else init.cashUsdt

section Fold

variable {trackCash : Bool} {startingCapital : ℚ} {journal : List JournalFill} {init s : LedgerState}

theorem LedgerFold.refl (trackCash : Bool) (startingCapital : ℚ) (journal : List JournalFill)
    (init : LedgerState) : LedgerFold trackCash startingCapital journal init init where
  le_applied := le_rfl
  held symbol := by rw [between_self, positionMove_nil, add_zero]
  cash := by rw [if_neg fun h => lt_irrefl _ h.2]

theorem LedgerFold.congr {s' : LedgerState} (h : LedgerFold trackCash startingCapital journal init s)
    (happlied : s'.journalAppliedFillSeq = s.journalAppliedFillSeq)
    (hheld : ∀ symbol, s'.held symbol = s.held symbol) (hcash : s'.cashUsdt = s.cashUsdt) :
    LedgerFold trackCash startingCapital journal init s' where
  le_applied := happlied ▸ h.le_applied
  held symbol := by rw [hheld, happlied, h.held]
  cash := by rw [hcash, happlied, h.cash]

/-- **The step.**  A commit of any batch drawn from the journal keeps the ledger a fold of it. -/
theorem LedgerFold.commit {c : CommitConfig} {batch : List JournalFill} {s' : LedgerState}
    (h : LedgerFold c.trackCash c.startingCapital journal init s) (hj : Sequenced journal)
    (hbatch : ∀ f ∈ batch, f ∈ journal) (hc : Commits c s (pendingFills s.journalAppliedFillSeq batch) s') :
    LedgerFold c.trackCash c.startingCapital journal init s' := by
  have hperm := pendingFills_perm_between hj hbatch hc.runs
  rw [← hc.applied] at hperm
  have hlt : s.journalAppliedFillSeq < s'.journalAppliedFillSeq := by
    rw [hc.applied]
    have := length_pos_iff.mpr hc.nonempty; omega
  have hsum : ∀ g : JournalFill → ℚ,
      ((between init.journalAppliedFillSeq s'.journalAppliedFillSeq journal).map g).sum
        = ((between init.journalAppliedFillSeq s.journalAppliedFillSeq journal).map g).sum
          + ((pendingFills s.journalAppliedFillSeq batch).map g).sum := by
    intro g
    rw [sum_between_add g h.le_applied hlt.le, (hperm.map g).sum_eq]
  refine ⟨h.le_applied.trans hlt.le, fun symbol => ?_, ?_⟩
  · rw [hc.held, h.held]; simp only [positionMove, hsum]; ring
  · rw [hc.cash]
    cases htrack : c.trackCash with
    | false =>
      have hcash := h.cash
      rw [htrack] at hcash; simpa using hcash
    | true =>
      have hcash := h.cash
      rw [htrack] at hcash
      have hlt' := h.le_applied.trans_lt hlt
      rw [if_pos rfl, if_pos ⟨rfl, hlt'⟩, hcash, Option.some.injEq]
      simp only [cashMove, hsum]
      by_cases hfirst : init.journalAppliedFillSeq < s.journalAppliedFillSeq
      · rw [if_pos ⟨trivial, hfirst⟩, Option.getD_some]; ring
      · have heq : init.journalAppliedFillSeq = s.journalAppliedFillSeq :=
          le_antisymm h.le_applied (not_lt.mp hfirst)
        rw [heq, between_self]; simp

theorem LedgerFold.grow {more : List JournalFill} (h : LedgerFold trackCash startingCapital journal init s)
    (hmore : init.journalAppliedFillSeq < s.journalAppliedFillSeq →
      ∀ f ∈ more, s.journalAppliedFillSeq < f.fillSeq) :
    LedgerFold trackCash startingCapital (journal ++ more) init s := by
  have hsame : between init.journalAppliedFillSeq s.journalAppliedFillSeq (journal ++ more)
      = between init.journalAppliedFillSeq s.journalAppliedFillSeq journal := by
    by_cases hlt : init.journalAppliedFillSeq < s.journalAppliedFillSeq
    · exact between_append_of_lt (hmore hlt)
    · rw [le_antisymm (not_lt.mp hlt) h.le_applied, between_self, between_self]
  refine ⟨h.le_applied, fun symbol => ?_, ?_⟩
  · rw [hsame, h.held]
  · rw [hsame, h.cash]

end Fold

end CryptoPilot.Live
