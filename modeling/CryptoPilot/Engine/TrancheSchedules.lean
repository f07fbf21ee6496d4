/- # TrancheSchedules — the schedules of one order, for any tranche count and any path.

The public functions of `microstructure.py`: the ladder, strict or touch, the peg chase and its
tranched form, with the checks they make on their inputs.  A bar is `none` where the array has no
finite value there. -/
import CryptoPilot.Engine.Schedules
import CryptoPilot.Lib.Carry

namespace CryptoPilot.Engine.Microstructure

open CryptoPilot.Live (Exc)
open CryptoPilot.Lib List

/-! ## §1 The functions with their checks -/

def checkOrder (price : ℚ) (side : ℤ) (adverse closes : List (Option ℚ)) : Except Exc Unit :=
  if side ≠ -1 ∧ side ≠ 1 then .error .valueError
  else if price ≤ 0 then .error .valueError
  else if adverse.length = 0 then .error .valueError
  else if ¬ adverse.all Option.isSome then .error .valueError
  else if closes.length < adverse.length then .error .valueError
  else .ok ()

/-- `laddered_fill_schedule`. -/
def ladderedFillSchedule (decisionPrice : ℚ) (side : ℤ) (adverse closes : List (Option ℚ)) (trancheCount : ℕ)
    (spec : ExecutionSpec) (requireStrict : Bool) : Except Exc (List Tranche) :=
  if trancheCount < 1 then .error .valueError
  else
    (checkOrder decisionPrice side adverse closes).bind fun _ =>
      if ¬ (closes.take (adverse.length + 1)).all Option.isSome then .error .valueError
      else .ok (ladderSchedule decisionPrice side adverse closes trancheCount spec requireStrict)

section PegChase

variable (anchorPrice : ℚ) (side : ℤ) (adverse closes : List (Option ℚ)) (spec : ExecutionSpec)
  (takerCostBps : Option ℚ) (lin : Linspace)

def pegChaseFillSchedule : Except Exc (Option WindowFill) :=
  (checkOrder anchorPrice side adverse closes).bind fun _ =>
    let n := adverse.length
    if (closes.take n).all Option.isNone then .ok none
    else
      let passive := passiveLen spec n
      match firstHit n fun w => if w < passive then makerHit anchorPrice side adverse closes spec 0 w else none with
      | some fill => .ok (some fill)
      | none => .ok (firstHit n (backstopHit closes spec takerCostBps 0 (min passive (n - 1))))

def pegChasePartialSchedule : Except Exc (List Tranche) :=
  (checkOrder anchorPrice side adverse closes).bind fun _ =>
    if (closes.take adverse.length).all Option.isNone then .ok []
    else .ok (pegSchedule anchorPrice side adverse closes spec takerCostBps lin)

end PegChase

/-! ## §2 First hits and boundaries -/

variable {length : ℕ} {β : Type}

theorem firstHit_some {hit : ℕ → Option β} {x : β} (h : firstHit length hit = some x) :
    ∃ i < length, hit i = some x := by
  obtain ⟨i, hi, hx⟩ := exists_of_findSome?_eq_some h; exact ⟨i, mem_range.mp hi, hx⟩

theorem firstHit_eq_none_iff {hit : ℕ → Option β} :
    firstHit length hit = none ↔ ∀ i < length, hit i = none := by
  rw [firstHit, findSome?_eq_none_iff]; simp only [mem_range]

theorem firstHit_eq_some_iff {hit : ℕ → Option β} {x : β} :
    firstHit length hit = some x ↔ ∃ i < length, hit i = some x ∧ ∀ j < i, hit j = none := by
  induction length with
  | zero => simp [firstHit]
  | succ length ih =>
    have hstep : firstHit (length + 1) hit = (firstHit length hit).or (hit length) := by
      rw [firstHit, range_succ, findSome?_append, findSome?_singleton, firstHit]
    rw [hstep]
    cases hprior : firstHit length hit with
    | some y =>
      rw [Option.some_or]
      rw [hprior] at ih
      rw [ih]
      obtain ⟨i, hi, hiy⟩ := firstHit_some hprior
      constructor
      · rintro ⟨j, hj, h⟩; exact ⟨j, by omega, h⟩
      · rintro ⟨j, hj, hjx, hnone⟩
        refine ⟨j, ?_, hjx, hnone⟩
        by_contra hle
        rw [hnone i (by omega)] at hiy; cases hiy
    | none =>
      have hnone := firstHit_eq_none_iff.mp hprior
      constructor
      · exact fun h => ⟨length, by omega, h, hnone⟩
      · rintro ⟨j, hj, hjx, -⟩
        rcases Nat.lt_succ_iff_lt_or_eq.mp hj with hj | rfl
        · rw [hnone j hj] at hjx; cases hjx
        · exact hjx

theorem firstHit_early (lo : ℕ) {hit hit' : ℕ → Option WindowFill} {length bound : ℕ} {x : WindowFill}
    (hrel : ∀ i x, hit i = some x → x.rel = lo + i) (hsame : ∀ i, lo + i ≤ bound → hit i = hit' i)
    (h : firstHit length hit = some x) (hx : x.rel ≤ bound) : firstHit length hit' = some x := by
  obtain ⟨i, hi, hix, hnone⟩ := firstHit_eq_some_iff.mp h
  rw [hrel i x hix] at hx
  refine firstHit_eq_some_iff.mpr ⟨i, hi, (hsame i hx).symm.trans hix, fun j hj => ?_⟩
  exact (hsame j (by omega)).symm.trans (hnone j hj)

namespace Linspace

variable (lin : Linspace) (n : ℕ) {tranches : ℕ}

@[simp] theorem boundary_zero (tranches : ℕ) : lin.boundary n tranches 0 = 0 := by
  rw [boundary, lin.start, Nat.floor_zero]

theorem boundary_last (h : 0 < tranches) : lin.boundary n tranches tranches = n := by
  rw [boundary, lin.stop n h, Nat.floor_natCast]

theorem sample_le (hn : 0 < n) {i j : ℕ} (hij : i ≤ j) (hj : j ≤ tranches) :
    lin.sample n tranches i ≤ lin.sample n tranches j := by
  induction j, hij using Nat.le_induction with
  | base => exact le_rfl
  | succ j hij ih => exact (ih (by omega)).trans (lin.increasing hn hj).le

theorem boundary_mono (hn : 0 < n) : MonotoneOn (lin.boundary n tranches) (Set.Iic tranches) :=
  fun _ _ _ hj hij => Nat.floor_le_floor (lin.sample_le n hn hij hj)

theorem boundary_pred_lt (hn : 0 < n) {index : ℕ} (h : index < tranches) : lin.boundary n tranches index < n := by
  have hpos : 0 < tranches := by omega
  have hlt : lin.sample n tranches index < n := by
    rw [← lin.stop n hpos]; exact (lin.increasing hn h).trans_le (lin.sample_le n hn h le_rfl)
  refine (Nat.floor_lt ?_).mpr hlt
  rw [← lin.start n tranches]; exact lin.sample_le n hn (Nat.zero_le _) h.le

end Linspace

/-! ## §3 Honest schedules -/

def Through (side : ℤ) (strict : Bool) (price bar : ℚ) : Prop :=
  if strict then side * bar < side * price else side * bar ≤ side * price

/-- A schedule over `n` bars: not empty, its fractions positive with sum one, every maker fill
traded through at its bar, and only the last entry a taker fill. -/
structure Honest (side : ℤ) (strict : Bool) (adverse : List ℚ) (schedule : List Tranche) : Prop where
  nonempty : schedule ≠ []
  fraction_pos : ∀ t ∈ schedule, 0 < t.fraction
  total : (schedule.map Tranche.fraction).sum = 1
  traded : ∀ t ∈ schedule, t.maker = true → ∃ bar, adverse[t.rel]? = some bar ∧ Through side strict t.price bar
  takers : ∀ t ∈ schedule.dropLast, t.maker = true

theorem through_of_crossed {side : ℤ} (hside : side = 1 ∨ side = -1) {strict : Bool} {price : ℚ} {bar : Option ℚ}
    (h : crossed (side == 1) strict price bar = true) : ∃ b, bar = some b ∧ Through side strict price b := by
  cases bar with
  | none => cases h
  | some b =>
    refine ⟨b, rfl, ?_⟩
    rcases hside with rfl | rfl <;> cases strict <;> simpa [crossed, Through] using h

theorem getD_map_some (path : List ℚ) (i : ℕ) : (path.map some).getD i none = path[i]? := by
  rw [getD_eq_getElem?_getD, getElem?_map]
  cases path[i]? <;> rfl

theorem checkOrder_ok {price : ℚ} (hprice : 0 < price) {side : ℤ} (hside : side = 1 ∨ side = -1)
    {adverse closes : List ℚ} (hn : adverse ≠ []) (hlen : adverse.length ≤ closes.length) :
    checkOrder price side (adverse.map some) (closes.map some) = .ok () := by
  unfold checkOrder
  rw [if_neg (by omega), if_neg (not_le.mpr hprice), if_neg (by simpa using hn), if_neg (by simp),
    if_neg (by simpa using hlen)]

/-! ## §4 Entries with their shares -/

def tranches (entries : List (WindowFill × ℚ)) : List Tranche := entries.map fun p => p.1.tranche p.2

theorem mem_tranches {entries : List (WindowFill × ℚ)} {t : Tranche} (h : t ∈ tranches entries) :
    ∃ p ∈ entries, t = p.1.tranche p.2 := by
  obtain ⟨p, hp, rfl⟩ := mem_map.mp h; exact ⟨p, hp, rfl⟩

variable (entries : List (WindowFill × ℚ))

theorem sum_tranches : ((tranches entries).map Tranche.fraction).sum = (entries.map Prod.snd).sum := by
  rw [tranches, map_map]; rfl

theorem tranches_append (entries later : List (WindowFill × ℚ)) :
    tranches (entries ++ later) = tranches entries ++ tranches later := map_append

theorem filter_tranches (bound : ℕ) :
    (tranches entries).filter (fun t => decide (t.rel ≤ bound)) =
      tranches (entries.filter fun p => decide (p.1.rel ≤ bound)) := by
  rw [tranches, filter_map]; rfl

theorem tranches_sorted (edge : ℕ → ℕ) (total : ℕ) (slot : ℕ → Option WindowFill)
    (hmono : MonotoneOn edge (Set.Iic total))
    (hin : ∀ k < total, ∀ x, slot k = some x → edge k ≤ x.rel ∧ x.rel < edge (k + 1)) (share : ℚ) :
    (∀ t ∈ tranches (carry share 0 ((List.range total).map slot)), t.rel < edge total) ∧
      (tranches (carry share 0 ((List.range total).map slot))).Pairwise fun t u => t.rel < u.rel := by
  obtain ⟨hlt, hsorted⟩ := entries_sorted WindowFill.rel edge total hmono hin total le_rfl
  rw [← carry_entries share 0] at hlt hsorted
  constructor
  · intro t ht
    obtain ⟨p, hp, rfl⟩ := mem_tranches ht; exact hlt p.1 (mem_map_of_mem hp)
  · have hentries : List.Pairwise (fun p q : WindowFill × ℚ => p.1.rel < q.1.rel)
        (carry share 0 ((List.range total).map slot)) :=
      (pairwise_map (R := fun x y : WindowFill => x.rel < y.rel)).mp hsorted
    exact pairwise_map.mpr hentries

/-! ## §5 The ladder -/

section Ladder

variable {decisionPrice : ℚ} {side : ℤ} {adverse closes : List (Option ℚ)} {trancheCount : ℕ}
  {spec : ExecutionSpec} {requireStrict : Bool}

variable (decisionPrice side adverse closes trancheCount spec requireStrict) in
theorem ladderRounds_eq (m : ℕ) :
    (List.range m).foldl (ladderRound decisionPrice side adverse closes trancheCount spec requireStrict) ([], 0) =
      (tranches (carry (1 / (trancheCount : ℚ)) 0
          ((List.range m).map (ladderFill decisionPrice side adverse closes trancheCount spec requireStrict))),
        residue (1 / (trancheCount : ℚ)) 0
          ((List.range m).map (ladderFill decisionPrice side adverse closes trancheCount spec requireStrict))) := by
  induction m with
  | zero => rfl
  | succ m ih =>
    rw [range_succ, foldl_append, ih, foldl_cons, map_append, carry_append,
      residue_append, ladderRound]
    cases hfill : ladderFill decisionPrice side adverse closes trancheCount spec requireStrict m with
    | none | some fill => simp [carry, residue, tranches, hfill]

theorem subEnd_eq {n k : ℕ} (hk : k < trancheCount) :
    subEnd trancheCount n k = subStart trancheCount n (k + 1) := by
  unfold subEnd subStart
  split
  · rfl
  · rw [show k + 1 = trancheCount by omega, Nat.mul_div_cancel_left _ (by omega)]

variable (trancheCount) in
theorem subStart_mono (n : ℕ) : Monotone (subStart trancheCount n) := fun _ _ h =>
  Nat.div_le_div_right (Nat.mul_le_mul_right n h)

theorem subStart_last {n : ℕ} (h : 1 ≤ trancheCount) : subStart trancheCount n trancheCount = n :=
  Nat.mul_div_cancel_left _ h

theorem ladderFill_spec {k : ℕ} {x : WindowFill} (hk : k < trancheCount)
    (h : ladderFill decisionPrice side adverse closes trancheCount spec requireStrict k = some x) :
    (subStart trancheCount adverse.length k ≤ x.rel ∧ x.rel < subStart trancheCount adverse.length (k + 1)) ∧
      x.maker = true ∧ crossed (side == 1) requireStrict x.price (adverse.getD x.rel none) = true := by
  obtain ⟨i, hi, hx⟩ := firstHit_some h
  rw [subEnd_eq hk] at hi
  rw [Option.ite_none_right_eq_some] at hx
  obtain ⟨hcross, hx⟩ := hx
  cases hx; exact ⟨⟨Nat.le_add_right _ _, Nat.add_lt_of_lt_sub' hi⟩, rfl, hcross⟩

variable {adverse' closes' : List (Option ℚ)} {bound : ℕ}

theorem ladderFills_agree (hlen : adverse.length = adverse'.length)
    (hadverse : ∀ i ≤ bound, adverse.getD i none = adverse'.getD i none)
    (hcloses : ∀ i ≤ bound, closes.getD i none = closes'.getD i none) :
    AgreeTo WindowFill.rel bound
      ((List.range trancheCount).map (ladderFill decisionPrice side adverse closes trancheCount spec requireStrict))
      ((List.range trancheCount).map
        (ladderFill decisionPrice side adverse' closes' trancheCount spec requireStrict)) := by
  -- one direction of what the sub-windows do up to the position
  have hearly : ∀ {adverse adverse' closes closes' : List (Option ℚ)}, adverse.length = adverse'.length →
      (∀ i ≤ bound, adverse.getD i none = adverse'.getD i none) →
      (∀ i ≤ bound, closes.getD i none = closes'.getD i none) → ∀ k < trancheCount, ∀ x,
        ladderFill decisionPrice side adverse closes trancheCount spec requireStrict k = some x → x.rel ≤ bound →
          ladderFill decisionPrice side adverse' closes' trancheCount spec requireStrict k = some x := by
    intro adverse adverse' closes closes' hlen hadverse hcloses k hk x hx hbound
    have hstart := (ladderFill_spec hk hx).1.1.trans hbound
    have hlimit : limitPrice decisionPrice side adverse closes trancheCount k =
        limitPrice decisionPrice side adverse' closes' trancheCount k := by
      unfold limitPrice
      rw [← hlen, hcloses _ hstart]
    unfold ladderFill at hx ⊢
    rw [← hlen, ← hlimit]
    refine firstHit_early (subStart trancheCount adverse.length k) (fun i y hy => ?_) (fun i hi => ?_) hx hbound
    · rw [Option.ite_none_right_eq_some] at hy; cases hy.2; rfl
    · rw [hadverse _ hi]
  rw [range_eq_range']
  refine agreeTo_of_windows _ (subStart trancheCount adverse.length) trancheCount
    ((subStart_mono _ _).monotoneOn _) (fun k hk x hx => (ladderFill_spec hk hx).1) (fun k hk x hx => ?_)
    (hearly hlen hadverse hcloses)
    (hearly hlen.symm (fun i hi => (hadverse i hi).symm) fun i hi => (hcloses i hi).symm) trancheCount 0 (by omega)
  rw [hlen]; exact (ladderFill_spec hk hx).1

variable (decisionPrice side trancheCount spec requireStrict) in
def ladderEntries (adverse closes : List (Option ℚ)) : List Tranche :=
  tranches (carry (1 / (trancheCount : ℚ)) 0
    ((List.range trancheCount).map (ladderFill decisionPrice side adverse closes trancheCount spec requireStrict)))

variable (decisionPrice side trancheCount spec requireStrict) in
def ladderRest (adverse closes : List (Option ℚ)) : ℚ :=
  residue (1 / (trancheCount : ℚ)) 0
    ((List.range trancheCount).map (ladderFill decisionPrice side adverse closes trancheCount spec requireStrict))

def ladderFallback (spec : ExecutionSpec) (adverse closes : List (Option ℚ)) (rest : ℚ) : Tranche :=
  ⟨adverse.length, (closes.getD (min adverse.length (closes.length - 1)) none).getD 0,
    spec.takerFeeBps + spec.takerSlippageBps, rest, false⟩

variable (decisionPrice side adverse closes trancheCount spec requireStrict) in
theorem ladderSchedule_eq :
    ladderSchedule decisionPrice side adverse closes trancheCount spec requireStrict =
      if 0 < ladderRest decisionPrice side trancheCount spec requireStrict adverse closes then
        ladderEntries decisionPrice side trancheCount spec requireStrict adverse closes ++
          [ladderFallback spec adverse closes
            (ladderRest decisionPrice side trancheCount spec requireStrict adverse closes)]
      else ladderEntries decisionPrice side trancheCount spec requireStrict adverse closes := by
  unfold ladderSchedule
  rw [ladderRounds_eq]; rfl

theorem ladderedFillSchedule_eq (hcount : 1 ≤ trancheCount)
    (hcheck : checkOrder decisionPrice side adverse closes = .ok ())
    (hfinite : ∀ close ∈ closes, close.isSome = true) :
    ladderedFillSchedule decisionPrice side adverse closes trancheCount spec requireStrict =
      .ok (ladderSchedule decisionPrice side adverse closes trancheCount spec requireStrict) := by
  have htake : (closes.take (adverse.length + 1)).all Option.isSome = true :=
    all_eq_true.mpr fun close hclose => hfinite close (mem_of_mem_take hclose)
  unfold ladderedFillSchedule
  rw [if_neg (by omega), hcheck]; exact if_neg (not_not_intro htake)

variable (decisionPrice side adverse closes spec requireStrict) in
theorem ladder_total (hcount : 1 ≤ trancheCount) :
    ((ladderEntries decisionPrice side trancheCount spec requireStrict adverse closes).map Tranche.fraction).sum +
      ladderRest decisionPrice side trancheCount spec requireStrict adverse closes = 1 := by
  rw [ladderEntries, ladderRest, sum_tranches, sum_carry, length_map, length_range, nsmul_eq_mul]
  field_simp; ring

variable (decisionPrice side adverse closes spec requireStrict) in
theorem ladderEntries_spec (hcount : 1 ≤ trancheCount) :
    (∀ t ∈ ladderEntries decisionPrice side trancheCount spec requireStrict adverse closes,
      t.maker = true ∧ 0 < t.fraction ∧ t.rel < adverse.length ∧
        crossed (side == 1) requireStrict t.price (adverse.getD t.rel none) = true) ∧
      (ladderEntries decisionPrice side trancheCount spec requireStrict adverse closes).Pairwise
        fun t u => t.rel < u.rel := by
  have hshare : 0 < 1 / (trancheCount : ℚ) := one_div_pos.mpr (Nat.cast_pos.mpr (by omega))
  obtain ⟨hrel, hsorted⟩ := tranches_sorted (subStart trancheCount adverse.length) trancheCount
    (ladderFill decisionPrice side adverse closes trancheCount spec requireStrict)
    ((subStart_mono _ _).monotoneOn _) (fun k hk x hx => (ladderFill_spec hk hx).1) (1 / (trancheCount : ℚ))
  rw [subStart_last hcount] at hrel
  refine ⟨fun t ht => ?_, hsorted⟩
  have hlt := hrel t ht
  obtain ⟨p, hp, rfl⟩ := mem_tranches ht
  obtain ⟨k, hk, hfill⟩ := mem_map.mp (mem_carry_fst hp)
  obtain ⟨-, hmaker, hcross⟩ := ladderFill_spec (mem_range.mp hk) hfill
  exact ⟨hmaker, carry_pos hshare le_rfl _ p hp, hlt, hcross⟩

variable (decisionPrice side adverse closes spec requireStrict) in
/-- A ladder goes from bar to bar and past the last one with its fallback only; at every bar it
trades through. -/
theorem ladderSchedule_sorted (hcount : 1 ≤ trancheCount) :
    (∀ t ∈ ladderSchedule decisionPrice side adverse closes trancheCount spec requireStrict,
      t.rel < adverse.length + 1 ∧
        (t.rel < adverse.length → crossed (side == 1) requireStrict t.price (adverse.getD t.rel none) = true)) ∧
      (ladderSchedule decisionPrice side adverse closes trancheCount spec requireStrict).Pairwise
        fun t u => t.rel < u.rel := by
  obtain ⟨hentries, hsorted⟩ := ladderEntries_spec decisionPrice side adverse closes spec requireStrict hcount
  have hentry : ∀ t ∈ ladderEntries decisionPrice side trancheCount spec requireStrict adverse closes,
      t.rel < adverse.length + 1 ∧
        (t.rel < adverse.length → crossed (side == 1) requireStrict t.price (adverse.getD t.rel none) = true) :=
    fun t ht => ⟨(hentries t ht).2.2.1.trans (Nat.lt_succ_self _), fun _ => (hentries t ht).2.2.2⟩
  rw [ladderSchedule_eq]
  split
  · refine ⟨fun t ht => ?_, pairwise_append.mpr ⟨hsorted, pairwise_singleton _ _, fun t ht u hu => ?_⟩⟩
    · rcases mem_append.mp ht with ht | ht
      · exact hentry t ht
      · rw [mem_singleton.mp ht]; exact ⟨Nat.lt_succ_self _, fun hlt => absurd hlt (lt_irrefl _)⟩
    · rw [mem_singleton.mp hu]; exact (hentries t ht).2.2.1
  · exact ⟨hentry, hsorted⟩

end Ladder

end CryptoPilot.Engine.Microstructure
