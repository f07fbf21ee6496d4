/-
# TrancheContracts — the schedules of an order are complete, and honest about its bars.
-/
import CryptoPilot.Engine.TrancheSchedules

namespace CryptoPilot.Engine.Microstructure

open CryptoPilot.Live (Exc)
open CryptoPilot.Lib List Option

/-! ## §1 The peg chase -/

section PegChase

variable {anchorPrice : ℚ} {side : ℤ} {adverse closes : List (Option ℚ)} {spec : ExecutionSpec}
  {takerCostBps : Option ℚ} {lin : Linspace}

theorem localPeg_within {lo i : ℕ} {limit : ℚ} (hside : side = 1 ∨ side = -1)
    (h : localPeg anchorPrice side closes spec lo i = some limit) :
    side * limit ≤ side * bandCap anchorPrice side spec := by
  obtain ⟨peg, -, hlimit⟩ := map_eq_some_iff.mp h
  rcases hside with rfl | rfl
  · have hle : limit ≤ bandCap anchorPrice 1 spec := by
      rw [← hlimit]; exact min_le_right _ _
    simpa using hle
  · have hle : bandCap anchorPrice (-1) spec ≤ limit := by
      rw [← hlimit]; exact le_max_right _ _
    simpa using hle

variable {x : WindowFill} {final : Bool} {lo hi : ℕ}

theorem makerHit_spec {lo i : ℕ} (hside : side = 1 ∨ side = -1)
    (h : makerHit anchorPrice side adverse closes spec lo i = some x) :
    x.rel = lo + i ∧ x.maker = true ∧ crossed (side == 1) true x.price (adverse.getD x.rel none) = true ∧
      side * x.price ≤ side * bandCap anchorPrice side spec := by
  obtain ⟨limit, hlimit, hx⟩ := bind_eq_some_iff.mp h
  rw [ite_none_right_eq_some] at hx
  obtain ⟨hcross, hx⟩ := hx; cases hx; exact ⟨rfl, rfl, hcross, localPeg_within hside hlimit⟩

theorem backstopHit_spec {lo backstopFrom i : ℕ}
    (h : backstopHit closes spec takerCostBps lo backstopFrom i = some x) :
    x.rel = lo + i ∧ x.maker = false ∧ backstopFrom ≤ i := by
  unfold backstopHit at h
  rw [ite_none_right_eq_some] at h
  obtain ⟨hfrom, h⟩ := h
  obtain ⟨close, -, hx⟩ := map_eq_some_iff.mp h; cases hx; exact ⟨rfl, rfl, hfrom⟩

/-- The maker fills of a sub-window: the last one only in its passive part. -/
def makerIn (anchorPrice : ℚ) (side : ℤ) (adverse closes : List (Option ℚ)) (spec : ExecutionSpec)
    (lo length : ℕ) (final : Bool) (i : ℕ) : Option WindowFill :=
  if final && decide (passiveLen spec length ≤ i) then none else makerHit anchorPrice side adverse closes spec lo i

theorem makerIn_some {lo length i : ℕ} (h :
    makerIn anchorPrice side adverse closes spec lo length final i = some x) :
    makerHit anchorPrice side adverse closes spec lo i = some x := by
  unfold makerIn at h
  split at h
  · cases h
  · exact h

theorem subwindowFill_iff :
    subwindowFill anchorPrice side adverse closes spec takerCostBps lo hi final = some x ↔
      firstHit (hi - lo) (makerIn anchorPrice side adverse closes spec lo (hi - lo) final) = some x ∨
        final = true ∧
          firstHit (hi - lo) (makerIn anchorPrice side adverse closes spec lo (hi - lo) final) = none ∧
          firstHit (hi - lo) (backstopHit closes spec takerCostBps lo
            (min (passiveLen spec (hi - lo)) (hi - lo - 1))) = some x := by
  unfold subwindowFill
  simp only
  split
  · next hempty => simp [hempty, firstHit]
  · cases hmaker : firstHit (hi - lo) (makerIn anchorPrice side adverse closes spec lo (hi - lo) final) with
    | some fill =>
      unfold makerIn at hmaker
      rw [hmaker]; simp
    | none =>
      unfold makerIn at hmaker
      rw [hmaker]; simp

theorem subwindowFill_spec (hside : side = 1 ∨ side = -1)
    (h : subwindowFill anchorPrice side adverse closes spec takerCostBps lo hi final = some x) :
    (lo ≤ x.rel ∧ x.rel < hi) ∧
      (x.maker = true → crossed (side == 1) true x.price (adverse.getD x.rel none) = true ∧
        side * x.price ≤ side * bandCap anchorPrice side spec) ∧
      (x.maker = false → final = true) := by
  rcases subwindowFill_iff.mp h with h | ⟨hfinal, -, h⟩
  · obtain ⟨i, hi, hx⟩ := firstHit_some h
    obtain ⟨hrel, hmaker, hcross, hwithin⟩ := makerHit_spec hside (makerIn_some hx)
    exact ⟨by omega, fun _ => ⟨hcross, hwithin⟩, fun hfalse => absurd (hmaker.symm.trans hfalse) (by simp)⟩
  · obtain ⟨i, hi, hx⟩ := firstHit_some h
    obtain ⟨hrel, hmaker, -⟩ := backstopHit_spec hx
    exact ⟨by omega, fun htrue => absurd (hmaker.symm.trans htrue) (by simp), fun _ => hfinal⟩

theorem subwindowFill_final (hlen : lo < hi) (hclose : (closes.getD (hi - 1) none).isSome = true) :
    ∃ x, subwindowFill anchorPrice side adverse closes spec takerCostBps lo hi true = some x := by
  cases hmaker : firstHit (hi - lo) (makerIn anchorPrice side adverse closes spec lo (hi - lo) true) with
  | some x => exact ⟨x, subwindowFill_iff.mpr (.inl hmaker)⟩
  | none =>
    cases hback : firstHit (hi - lo) (backstopHit closes spec takerCostBps lo
        (min (passiveLen spec (hi - lo)) (hi - lo - 1))) with
    | some x => exact ⟨x, subwindowFill_iff.mpr (.inr ⟨rfl, hmaker, hback⟩)⟩
    | none =>
      -- the final bar is always eligible
      have hlast := firstHit_eq_none_iff.mp hback (hi - lo - 1) (by omega)
      unfold backstopHit at hlast
      rw [if_pos (min_le_right _ _), show lo + (hi - lo - 1) = hi - 1 by omega, map_eq_none_iff] at hlast
      rw [hlast] at hclose; cases hclose

variable {adverse' closes' : List (Option ℚ)} {bound : ℕ}

theorem subwindowFill_early (hside : side = 1 ∨ side = -1)
    (hadverse : ∀ i ≤ bound, adverse.getD i none = adverse'.getD i none)
    (hcloses : ∀ i ≤ bound, closes.getD i none = closes'.getD i none)
    (h : subwindowFill anchorPrice side adverse closes spec takerCostBps lo hi final = some x)
    (hx : x.rel ≤ bound) :
    subwindowFill anchorPrice side adverse' closes' spec takerCostBps lo hi final = some x := by
  have hmaker : ∀ i, lo + i ≤ bound → makerIn anchorPrice side adverse closes spec lo (hi - lo) final i =
      makerIn anchorPrice side adverse' closes' spec lo (hi - lo) final i := by
    intro i hi
    have hpeg : localPeg anchorPrice side closes spec lo i = localPeg anchorPrice side closes' spec lo i := by
      unfold localPeg
      rw [hcloses (lo + i - 1) (by omega)]
    unfold makerIn makerHit
    rw [hpeg, hadverse _ hi]
  obtain ⟨hin, -, -⟩ := subwindowFill_spec hside h
  refine subwindowFill_iff.mpr ?_
  rcases subwindowFill_iff.mp h with h | ⟨rfl, hnone, h⟩
  · exact .inl (firstHit_early lo (fun i y hy => (makerHit_spec hside (makerIn_some hy)).1) hmaker h hx)
  · refine .inr ⟨rfl, firstHit_eq_none_iff.mpr fun i hlt => ?_, ?_⟩
    · -- a backstop comes after every bar that a maker fill was looked for at
      obtain ⟨j, hj, hjx⟩ := firstHit_some h
      obtain ⟨hrel, -, hfrom⟩ := backstopHit_spec hjx
      by_cases hpassive : passiveLen spec (hi - lo) ≤ i
      · simp [makerIn, hpassive]
      · rw [← hmaker i (by omega)]; exact firstHit_eq_none_iff.mp hnone i hlt
    · refine firstHit_early lo (fun i y hy => (backstopHit_spec hy).1) (fun i hi => ?_) h hx
      unfold backstopHit
      rw [hcloses _ hi]

/-! ### The loop -/

variable (anchorPrice side adverse closes spec takerCostBps lin) in
def pegSlots (m : ℕ) : List (Option WindowFill) :=
  (List.range m).map (pegFill anchorPrice side adverse closes spec takerCostBps lin)

variable (spec) in
def pegShare : ℚ := 1 / (spec.pegChaseTranches : ℚ)

theorem pegRounds_eq (m : ℕ) (hm : m < spec.pegChaseTranches) :
    (List.range m).foldlM (pegRound anchorPrice side adverse closes spec takerCostBps lin) ([], 0, 0) =
      some (tranches (carry (pegShare spec) 0 (pegSlots anchorPrice side adverse closes spec takerCostBps lin m)),
        ((carry (pegShare spec) 0 (pegSlots anchorPrice side adverse closes spec takerCostBps lin m)).map
          Prod.snd).sum,
        residue (pegShare spec) 0 (pegSlots anchorPrice side adverse closes spec takerCostBps lin m)) := by
  induction m with
  | zero => rfl
  | succ m ih =>
    have hfinal : (m + 1 == spec.pegChaseTranches) = false := by
      rw [beq_eq_false_iff_ne]; omega
    have hslots : pegSlots anchorPrice side adverse closes spec takerCostBps lin (m + 1) =
        pegSlots anchorPrice side adverse closes spec takerCostBps lin m ++
          [pegFill anchorPrice side adverse closes spec takerCostBps lin m] := by
      rw [pegSlots, range_succ, map_append]; rfl
    rw [range_succ, foldlM_append, ih (by omega), hslots, carry_append, residue_append]
    simp only [bind_eq_bind, bind_some, foldlM_cons, foldlM_nil, pegRound, hfinal]
    cases pegFill anchorPrice side adverse closes spec takerCostBps lin m with
    | none | some fill => simp [carry, residue, tranches, pegShare, add_comm]

section

variable {last : ℕ} {fill : WindowFill} (hlast : last + 1 = spec.pegChaseTranches)
  (hfill : pegFill anchorPrice side adverse closes spec takerCostBps lin last = some fill)

include hlast hfill

theorem pegSlots_last :
    pegSlots anchorPrice side adverse closes spec takerCostBps lin spec.pegChaseTranches =
      pegSlots anchorPrice side adverse closes spec takerCostBps lin last ++ [some fill] := by
  rw [pegSlots, ← hlast, range_succ, map_append, map_cons, hfill]; rfl

theorem pegSchedule_eq :
    pegSchedule anchorPrice side adverse closes spec takerCostBps lin =
        tranches (carry (pegShare spec) 0
          (pegSlots anchorPrice side adverse closes spec takerCostBps lin spec.pegChaseTranches)) ∧
      ((carry (pegShare spec) 0 (pegSlots anchorPrice side adverse closes spec takerCostBps lin
        spec.pegChaseTranches)).map Prod.snd).sum = 1 := by
  have hne : (spec.pegChaseTranches : ℚ) ≠ 0 := Nat.cast_ne_zero.mpr (by omega)
  have hslots := pegSlots_last hlast hfill
  have htotal := sum_carry (pegShare spec) 0
    (pegSlots anchorPrice side adverse closes spec takerCostBps lin spec.pegChaseTranches)
  have hresidue : residue (pegShare spec) 0
      (pegSlots anchorPrice side adverse closes spec takerCostBps lin spec.pegChaseTranches) = 0 := by
    rw [hslots, residue_append]; rfl
  have hshares : spec.pegChaseTranches • pegShare spec = 1 := by
    rw [nsmul_eq_mul, pegShare]
    field_simp
  have hlength : (pegSlots anchorPrice side adverse closes spec takerCostBps lin spec.pegChaseTranches).length =
      spec.pegChaseTranches := by rw [pegSlots, length_map, length_range]
  rw [hresidue, add_zero, zero_add, hlength, hshares] at htotal
  refine ⟨?_, htotal⟩
  -- the last fraction is what the shares leave
  have hfraction : 1 - ((carry (pegShare spec) 0
      (pegSlots anchorPrice side adverse closes spec takerCostBps lin last)).map Prod.snd).sum =
        residue (pegShare spec) 0 (pegSlots anchorPrice side adverse closes spec takerCostBps lin last) +
          pegShare spec := by
    rw [hslots, carry_append, map_append, sum_append] at htotal
    simp only [carry, map_cons, map_nil, sum_cons, sum_nil, add_zero] at htotal; linarith
  have hfinal : (last + 1 == spec.pegChaseTranches) = true := by rw [hlast, beq_self_eq_true]
  have hrounds : (List.range spec.pegChaseTranches).foldlM
      (pegRound anchorPrice side adverse closes spec takerCostBps lin) ([], 0, 0) =
        some (tranches (carry (pegShare spec) 0
          (pegSlots anchorPrice side adverse closes spec takerCostBps lin spec.pegChaseTranches)),
          ((carry (pegShare spec) 0
            (pegSlots anchorPrice side adverse closes spec takerCostBps lin last)).map Prod.snd).sum +
            (1 - ((carry (pegShare spec) 0
              (pegSlots anchorPrice side adverse closes spec takerCostBps lin last)).map Prod.snd).sum), 0) := by
    rw [hslots, ← hlast, range_succ, foldlM_append, pegRounds_eq last (by omega), carry_append]
    simp only [bind_eq_bind, bind_some, foldlM_cons, foldlM_nil, pegRound, hfinal, hfill, if_true, hfraction]
    simp [carry, tranches]
  unfold pegSchedule
  rw [hrounds]

end

variable (anchorPrice side adverse closes spec takerCostBps lin) in
/-- The schedule is one of shares carried over the sub-windows, or empty. -/
theorem pegSchedule_cases : pegSchedule anchorPrice side adverse closes spec takerCostBps lin = [] ∨
    pegSchedule anchorPrice side adverse closes spec takerCostBps lin =
      tranches (carry (pegShare spec) 0
        (pegSlots anchorPrice side adverse closes spec takerCostBps lin spec.pegChaseTranches)) := by
  have htranches := spec.pegTranches_pos
  have hlast : spec.pegChaseTranches - 1 + 1 = spec.pegChaseTranches := by omega
  cases hfill : pegFill anchorPrice side adverse closes spec takerCostBps lin (spec.pegChaseTranches - 1) with
  | some fill => exact .inr (pegSchedule_eq hlast hfill).1
  | none =>
    left
    have hfinal : (spec.pegChaseTranches - 1 + 1 == spec.pegChaseTranches) = true := by rw [hlast, beq_self_eq_true]
    have hrounds : (List.range spec.pegChaseTranches).foldlM
        (pegRound anchorPrice side adverse closes spec takerCostBps lin) ([], 0, 0) = none := by
      rw [← hlast, range_succ]; simp [pegRound, hfill, hfinal]
    unfold pegSchedule
    rw [hrounds]

/-! ### One tranche -/

theorem length_ne_zero_of_check {price : ℚ} (h : checkOrder price side adverse closes = .ok ()) :
    adverse.length ≠ 0 := by
  intro hzero
  unfold checkOrder at h
  split at h
  · cases h
  · split at h <;> cases h

variable (anchorPrice side closes takerCostBps lin) in
theorem pegFill_one (hone : spec.pegChaseTranches = 1) (hn : adverse.length ≠ 0) :
    pegFill anchorPrice side adverse closes spec takerCostBps lin 0 =
      match firstHit adverse.length (fun w =>
          if w < passiveLen spec adverse.length then makerHit anchorPrice side adverse closes spec
            0 w else none) with
      | some fill => some fill
      | none => firstHit adverse.length
          (backstopHit closes spec takerCostBps 0 (min (passiveLen spec adverse.length) (adverse.length - 1))) := by
  have hmakers : (fun i => if (true && decide (passiveLen spec adverse.length ≤ i)) = true then none
      else makerHit anchorPrice side adverse closes spec 0 i) = fun w =>
        if w < passiveLen spec adverse.length then makerHit anchorPrice side adverse closes spec 0 w else none := by
    funext w
    by_cases hw : w < passiveLen spec adverse.length
    · simp [hw]
    · simp [hw, not_lt.mp hw]
  unfold pegFill subwindowFill
  cases hhit : firstHit adverse.length fun w =>
      if w < passiveLen spec adverse.length then makerHit anchorPrice side adverse closes spec 0 w else none <;>
    simp only [hone, lin.boundary_zero, lin.boundary_last adverse.length Nat.one_pos, Nat.zero_add, Nat.sub_zero,
      beq_self_eq_true, if_neg hn, if_true, hmakers, hhit]

variable (anchorPrice side adverse closes takerCostBps lin) in
theorem pegChasePartialSchedule_one (hone : spec.pegChaseTranches = 1) :
    pegChasePartialSchedule anchorPrice side adverse closes spec takerCostBps lin =
      (pegChaseFillSchedule anchorPrice side adverse closes spec takerCostBps).map
        fun fill => fill.toList.map fun fill => fill.tranche 1 := by
  unfold pegChasePartialSchedule pegSchedule pegChaseFillSchedule
  cases hcheck : checkOrder anchorPrice side adverse closes with
  | error e => rfl
  | ok u =>
    show (if _ then _ else _) = Except.map _ (if _ then _ else _)
    split
    · rfl
    · have hfill := pegFill_one anchorPrice side closes takerCostBps lin hone (length_ne_zero_of_check hcheck)
      simp only [hone, range_one, foldlM_cons, foldlM_nil, pegRound, hfill, Nat.zero_add, beq_self_eq_true, if_true]
      cases firstHit adverse.length (fun w =>
          if w < passiveLen spec adverse.length then makerHit anchorPrice side adverse closes spec
            0 w else none) with
      | some fill => simp [Except.map]
      | none =>
        cases firstHit adverse.length (backstopHit closes spec takerCostBps 0
            (min (passiveLen spec adverse.length) (adverse.length - 1))) with
        | some fill | none => simp [Except.map]

end PegChase

/-! ## §2 Both schedules -/

section Schedules

variable {price : ℚ} {side : ℤ} {adverse closes adverse' closes' : List ℚ} {spec : ExecutionSpec}
  {trancheCount : ℕ} {strict : Bool} {takerCostBps : Option ℚ} {lin : Linspace}

structure SamePaths (bound : ℕ) (adverse closes adverse' closes' : List ℚ) : Prop where
  bars : adverse.length = adverse'.length
  length : closes.length = closes'.length
  adverse : ∀ i ≤ bound, adverse[i]? = adverse'[i]?
  closes : ∀ i ≤ bound, closes[i]? = closes'[i]?

theorem finite_map_some (path : List ℚ) : ∀ close ∈ path.map some, close.isSome = true := by
  simp

theorem ladderedFillSchedule_finite (hprice : 0 < price) (hside : side = 1 ∨ side = -1) (hn : adverse ≠ [])
    (hlen : adverse.length ≤ closes.length) (hcount : 1 ≤ trancheCount) :
    ladderedFillSchedule price side (adverse.map some) (closes.map some) trancheCount spec strict =
      .ok (if 0 < ladderRest price side trancheCount spec strict (adverse.map some) (closes.map some) then
          ladderEntries price side trancheCount spec strict (adverse.map some) (closes.map some) ++
            [ladderFallback spec (adverse.map some) (closes.map some)
              (ladderRest price side trancheCount spec strict (adverse.map some) (closes.map some))]
        else ladderEntries price side trancheCount spec strict (adverse.map some) (closes.map some)) := by
  rw [ladderedFillSchedule_eq hcount (checkOrder_ok hprice hside hn hlen) (finite_map_some closes),
    ladderSchedule_eq]

variable (spec strict) in
theorem laddered_honest (hprice : 0 < price) (hside : side = 1 ∨ side = -1) (hn : adverse ≠ [])
    (hlen : adverse.length ≤ closes.length) (hcount : 1 ≤ trancheCount) :
    ∃ schedule, ladderedFillSchedule price side (adverse.map some) (closes.map some) trancheCount spec strict =
        .ok schedule ∧
      Honest side strict adverse schedule ∧ (∀ t ∈ schedule, t.rel ≤ adverse.length) ∧
      schedule.Pairwise fun t u => t.rel ≤ u.rel := by
  have htotal := ladder_total price side (adverse.map some) (closes.map some) spec strict hcount
  obtain ⟨hentries, hsorted⟩ := ladderEntries_spec price side (adverse.map some) (closes.map some)
    spec strict hcount
  have hrest : 0 ≤ ladderRest price side trancheCount spec strict (adverse.map some) (closes.map some) :=
    residue_nonneg (one_div_pos.mpr (Nat.cast_pos.mpr hcount)) le_rfl _
  have htraded : ∀ t ∈ ladderEntries price side trancheCount spec strict (adverse.map some) (closes.map some),
      ∃ bar, adverse[t.rel]? = some bar ∧ Through side strict t.price bar := by
    intro t ht
    have hcross := (hentries t ht).2.2.2
    rw [getD_map_some] at hcross; exact through_of_crossed hside hcross
  refine ⟨_, ladderedFillSchedule_finite hprice hside hn hlen hcount, ?_⟩
  have hrel : ∀ t ∈ ladderEntries price side trancheCount spec strict (adverse.map some) (closes.map some),
      t.rel < adverse.length := by
    intro t ht; simpa using (hentries t ht).2.2.1
  by_cases hpos : 0 < ladderRest price side trancheCount spec strict (adverse.map some) (closes.map some)
  · -- the last tranche was not filled: its share crosses at the boundary
    rw [if_pos hpos]
    refine ⟨⟨by simp, fun t ht => ?_, ?_, fun t ht hmaker => ?_, fun t ht => ?_⟩, fun t ht => ?_, ?_⟩
    · rcases mem_append.mp ht with ht | ht
      · exact (hentries t ht).2.1
      · rw [mem_singleton.mp ht]; exact hpos
    · simpa [ladderFallback] using htotal
    · rcases mem_append.mp ht with ht | ht
      · exact htraded t ht
      · rw [mem_singleton.mp ht] at hmaker; cases hmaker
    · rw [dropLast_concat] at ht; exact (hentries t ht).1
    · rcases mem_append.mp ht with ht | ht
      · exact (hrel t ht).le
      · rw [mem_singleton.mp ht]; exact (length_map some).le
    · refine pairwise_append.mpr ⟨hsorted.imp le_of_lt, pairwise_singleton _ _, fun t ht u hu => ?_⟩
      rw [mem_singleton.mp hu]; exact (hrel t ht).le.trans (length_map some).ge
  · rw [if_neg hpos]
    have hzero := le_antisymm (not_lt.mp hpos) hrest
    rw [hzero, add_zero] at htotal
    refine ⟨⟨fun hnil => ?_, fun t ht => (hentries t ht).2.1, htotal, fun t ht _ => htraded t ht,
      fun t ht => (hentries t (dropLast_subset _ ht)).1⟩, fun t ht => (hrel t ht).le, hsorted.imp le_of_lt⟩
    rw [hnil] at htotal; simp at htotal

variable {bound : ℕ} {schedule schedule' : List Tranche}

section

variable (h : SamePaths bound adverse closes adverse' closes')

include h

theorem SamePaths.getD_adverse :
    ∀ i ≤ bound, (adverse.map some).getD i none = (adverse'.map some).getD i none := by
  intro i hi
  rw [getD_map_some, getD_map_some, h.adverse i hi]

theorem SamePaths.getD_closes :
    ∀ i ≤ bound, (closes.map some).getD i none = (closes'.map some).getD i none := by
  intro i hi
  rw [getD_map_some, getD_map_some, h.closes i hi]

end

theorem laddered_causal (hprice : 0 < price) (hside : side = 1 ∨ side = -1) (hn : adverse ≠ [])
    (hlen : adverse.length ≤ closes.length) (hcount : 1 ≤ trancheCount)
    (hpaths : SamePaths bound adverse closes adverse' closes')
    (h : ladderedFillSchedule price side (adverse.map some) (closes.map some) trancheCount spec strict =
      .ok schedule)
    (h' : ladderedFillSchedule price side (adverse'.map some) (closes'.map some) trancheCount spec strict =
      .ok schedule') :
    schedule.filter (fun t => decide (t.rel ≤ bound)) = schedule'.filter fun t => decide (t.rel ≤ bound) := by
  have hn' : adverse' ≠ [] := by
    rw [← length_pos_iff, ← hpaths.bars]; exact length_pos_iff.mpr hn
  by_cases hbound : bound < adverse.length
  · -- the fallback comes after the position, so only the entries count
    have hentries : ∀ {adverse closes : List ℚ} {schedule : List Tranche}, adverse ≠ [] →
        adverse.length ≤ closes.length → bound < adverse.length →
        ladderedFillSchedule price side (adverse.map some) (closes.map some) trancheCount spec strict =
          .ok schedule → schedule.filter (fun t => decide (t.rel ≤ bound)) =
            (ladderEntries price side trancheCount spec strict (adverse.map some) (closes.map some)).filter
              fun t => decide (t.rel ≤ bound) := by
      intro adverse closes schedule hn hlen hbound h
      rw [ladderedFillSchedule_finite hprice hside hn hlen hcount] at h
      cases h
      split
      · have hlate : ¬ adverse.length ≤ bound := by omega
        simp [ladderFallback, hlate]
      · rfl
    have hlen' : adverse'.length ≤ closes'.length := by
      rw [← hpaths.bars, ← hpaths.length]; exact hlen
    rw [hentries hn hlen hbound h, hentries hn' hlen' (hpaths.bars ▸ hbound) h', ladderEntries, ladderEntries,
      filter_tranches, filter_tranches]
    refine congrArg tranches (carry_filter _ (ladderFills_agree ?_ hpaths.getD_adverse hpaths.getD_closes) 0)
    rw [length_map, length_map, hpaths.bars]
  · -- the paths agree wherever the ladder looks
    have hadverse : adverse = adverse' := by
      refine ext_getElem? fun i => ?_
      rcases le_or_gt i bound with hi | hi
      · exact hpaths.adverse i hi
      · rw [getElem?_eq_none (by omega), getElem?_eq_none (by rw [← hpaths.bars]; omega)]
    subst hadverse
    have hslots : (List.range trancheCount).map
          (ladderFill price side (adverse.map some) (closes.map some) trancheCount spec strict) =
        (List.range trancheCount).map
          (ladderFill price side (adverse.map some) (closes'.map some) trancheCount spec strict) := by
      refine map_congr_left fun k hk => ?_
      have hstart : subStart trancheCount (adverse.map some).length k ≤ bound := by
        have hle := subStart_mono trancheCount (adverse.map some).length (mem_range.mp hk).le
        rw [subStart_last hcount] at hle
        have hbars : (adverse.map some).length = adverse.length := length_map some; omega
      unfold ladderFill limitPrice
      rw [hpaths.getD_closes _ hstart]
    have hfallback : ∀ rest, ladderFallback spec (adverse.map some) (closes.map some) rest =
        ladderFallback spec (adverse.map some) (closes'.map some) rest := by
      intro rest
      unfold ladderFallback
      rw [length_map, length_map, length_map, ← hpaths.length, hpaths.getD_closes _ (by omega)]
    rw [ladderedFillSchedule_finite hprice hside hn hlen hcount] at h
    rw [ladderedFillSchedule_finite hprice hside hn (hpaths.length ▸ hlen) hcount] at h'
    have hentries : ladderEntries price side trancheCount spec strict (adverse.map some) (closes.map some) =
        ladderEntries price side trancheCount spec strict (adverse.map some) (closes'.map some) := by
      rw [ladderEntries, hslots, ladderEntries]
    have hrest : ladderRest price side trancheCount spec strict (adverse.map some) (closes.map some) =
        ladderRest price side trancheCount spec strict (adverse.map some) (closes'.map some) := by
      rw [ladderRest, hslots, ladderRest]
    rw [hentries, hrest, hfallback, h'] at h; cases h; rfl

/-! ### The peg chase -/

theorem pegFill_spec (hside : side = 1 ∨ side = -1) {adverse closes : List (Option ℚ)} {index : ℕ} {x : WindowFill}
    (h : pegFill price side adverse closes spec takerCostBps lin index = some x) :
    (lin.boundary adverse.length spec.pegChaseTranches index ≤ x.rel ∧
        x.rel < lin.boundary adverse.length spec.pegChaseTranches (index + 1)) ∧
      (x.maker = true → crossed (side == 1) true x.price (adverse.getD x.rel none) = true ∧
        side * x.price ≤ side * bandCap price side spec) ∧
      (x.maker = false → index + 1 = spec.pegChaseTranches) := by
  obtain ⟨hin, hmaker, htaker⟩ := subwindowFill_spec hside h
  exact ⟨hin, hmaker, fun hx => beq_iff_eq.mp (htaker hx)⟩

variable (price spec takerCostBps lin) in
theorem pegSchedule_sorted (hside : side = 1 ∨ side = -1) {adverse : List (Option ℚ)} (hn : adverse ≠ [])
    (closes : List (Option ℚ)) :
    (∀ t ∈ pegSchedule price side adverse closes spec takerCostBps lin, t.rel < adverse.length) ∧
      (pegSchedule price side adverse closes spec takerCostBps lin).Pairwise fun t u => t.rel < u.rel := by
  rcases pegSchedule_cases price side adverse closes spec takerCostBps lin with h | h
  · rw [h]; simp
  · rw [h, ← lin.boundary_last adverse.length spec.pegTranches_pos]
    exact tranches_sorted (lin.boundary adverse.length spec.pegChaseTranches) spec.pegChaseTranches
      (pegFill price side adverse closes spec takerCostBps lin)
      (lin.boundary_mono adverse.length (length_pos_iff.mpr hn)) (fun k _ x hx => (pegFill_spec hside hx).1)
      (pegShare spec)

variable (price side takerCostBps lin) in
theorem pegFill_last (hn : adverse ≠ []) (hlen : adverse.length ≤ closes.length) {last : ℕ}
    (hlast : last + 1 = spec.pegChaseTranches) :
    ∃ fill, pegFill price side (adverse.map some) (closes.map some) spec takerCostBps lin last = some fill := by
  have hpos : 0 < adverse.length := length_pos_iff.mpr hn
  have hlt := lin.boundary_pred_lt adverse.length hpos (show last < spec.pegChaseTranches by omega)
  have hend := lin.boundary_last adverse.length (show 0 < spec.pegChaseTranches by omega)
  unfold pegFill
  simp only [length_map, hlast, hend, beq_self_eq_true]
  refine subwindowFill_final hlt ?_
  rw [getD_map_some, getElem?_eq_getElem (by omega)]; rfl

variable (spec takerCostBps lin) in
theorem pegChase_finite (hprice : 0 < price) (hside : side = 1 ∨ side = -1) (hn : adverse ≠ [])
    (hlen : adverse.length ≤ closes.length) :
    pegChasePartialSchedule price side (adverse.map some) (closes.map some) spec takerCostBps lin =
        .ok (tranches (carry (pegShare spec) 0 (pegSlots price side (adverse.map some) (closes.map some) spec
          takerCostBps lin spec.pegChaseTranches))) ∧
      ((carry (pegShare spec) 0 (pegSlots price side (adverse.map some) (closes.map some) spec takerCostBps lin
        spec.pegChaseTranches)).map Prod.snd).sum = 1 := by
  have htranches := spec.pegTranches_pos
  have hlast : spec.pegChaseTranches - 1 + 1 = spec.pegChaseTranches := by omega
  obtain ⟨fill, hfill⟩ := pegFill_last price side takerCostBps lin hn hlen hlast
  have hfinite : ¬ ((closes.map some).take (adverse.map some).length).all isNone = true := by
    obtain ⟨bar, rest, rfl⟩ := exists_cons_of_ne_nil hn
    cases closes with
    | nil => simp at hlen
    | cons close closes => simp
  obtain ⟨hschedule, htotal⟩ := pegSchedule_eq hlast hfill
  refine ⟨?_, htotal⟩
  unfold pegChasePartialSchedule
  rw [checkOrder_ok hprice hside hn hlen, ← hschedule]; exact if_neg hfinite

section

variable (hprice : 0 < price) (hside : side = 1 ∨ side = -1) (hn : adverse ≠ [])
  (hlen : adverse.length ≤ closes.length)

include hprice hside hn hlen

variable (spec takerCostBps lin) in
theorem pegChase_honest :
    ∃ schedule, pegChasePartialSchedule price side (adverse.map some) (closes.map some) spec takerCostBps lin =
        .ok schedule ∧
      Honest side true adverse schedule ∧ (∀ t ∈ schedule, t.rel < adverse.length) ∧
      (schedule.Pairwise fun t u => t.rel < u.rel) ∧
      ∀ t ∈ schedule, t.maker = true → side * t.price ≤ side * bandCap price side spec := by
  have hpos : 0 < adverse.length := length_pos_iff.mpr hn
  have htranches := spec.pegTranches_pos
  obtain ⟨hschedule, htotal⟩ := pegChase_finite spec takerCostBps lin hprice hside hn hlen
  have hshare : 0 < pegShare spec := one_div_pos.mpr (Nat.cast_pos.mpr htranches)
  obtain ⟨hrel, hsorted⟩ := tranches_sorted (lin.boundary adverse.length spec.pegChaseTranches)
    spec.pegChaseTranches
    (pegFill price side (adverse.map some) (closes.map some) spec takerCostBps lin)
    (lin.boundary_mono adverse.length hpos)
    (fun k _ x hx => by simpa using (pegFill_spec hside hx).1) (pegShare spec)
  rw [lin.boundary_last adverse.length htranches] at hrel
  -- each entry comes from its sub-window
  have hspec : ∀ p ∈ carry (pegShare spec) 0 (pegSlots price side (adverse.map some) (closes.map some) spec
      takerCostBps lin spec.pegChaseTranches), p.1.maker = true →
        (∃ bar, adverse[p.1.rel]? = some bar ∧ Through side true p.1.price bar) ∧
          side * p.1.price ≤ side * bandCap price side spec := by
    intro p hp hmaker
    obtain ⟨k, -, hfill⟩ := mem_map.mp (mem_carry_fst hp)
    obtain ⟨hcross, hwithin⟩ := (pegFill_spec hside hfill).2.1 hmaker
    rw [getD_map_some] at hcross; exact ⟨through_of_crossed hside hcross, hwithin⟩
  refine ⟨_, hschedule, ⟨fun hnil => ?_, fun t ht => ?_, ?_, fun t ht hmaker => ?_, fun t ht => ?_⟩, hrel, hsorted,
    fun t ht hmaker => ?_⟩
  · rw [← sum_tranches, hnil] at htotal; simp at htotal
  · obtain ⟨p, hp, rfl⟩ := mem_tranches ht; exact carry_pos hshare le_rfl _ p hp
  · rw [sum_tranches, htotal]
  · obtain ⟨p, hp, rfl⟩ := mem_tranches ht; exact (hspec p hp hmaker).1
  · -- only the last sub-window has a backstop
    have hlast : spec.pegChaseTranches - 1 + 1 = spec.pegChaseTranches := by omega
    obtain ⟨fill, hfill⟩ := pegFill_last price side takerCostBps lin hn hlen hlast
    rw [pegSlots_last hlast hfill, carry_append, tranches_append] at ht
    have hone : ∀ rest : ℚ, tranches (carry (pegShare spec) rest [some fill]) =
      [fill.tranche (rest + pegShare spec)] :=
      fun rest => rfl
    rw [hone, dropLast_concat] at ht
    obtain ⟨p, hp, rfl⟩ := mem_tranches ht
    obtain ⟨k, hk, hslot⟩ := mem_map.mp (mem_carry_fst hp)
    rw [mem_range] at hk
    by_contra hmaker
    have hfalse : p.1.maker = false := Bool.eq_false_iff.mpr hmaker
    have := (pegFill_spec hside hslot).2.2 hfalse; omega
  · obtain ⟨p, hp, rfl⟩ := mem_tranches ht; exact (hspec p hp hmaker).2

theorem pegChase_causal (hpaths : SamePaths bound adverse closes adverse' closes')
    (h : pegChasePartialSchedule price side (adverse.map some) (closes.map some) spec takerCostBps
      lin = .ok schedule)
    (h' : pegChasePartialSchedule price side (adverse'.map some) (closes'.map some) spec takerCostBps lin =
      .ok schedule') :
    schedule.filter (fun t => decide (t.rel ≤ bound)) = schedule'.filter fun t => decide (t.rel ≤ bound) := by
  have hpos : 0 < adverse.length := length_pos_iff.mpr hn
  have hn' : adverse' ≠ [] := length_pos_iff.mp (hpaths.bars ▸ hpos)
  have hlen' : adverse'.length ≤ closes'.length := by
    rw [← hpaths.bars, ← hpaths.length]; exact hlen
  rw [(pegChase_finite spec takerCostBps lin hprice hside hn hlen).1] at h
  rw [(pegChase_finite spec takerCostBps lin hprice hside hn' hlen').1] at h'
  cases h
  cases h'
  rw [filter_tranches, filter_tranches]
  refine congrArg tranches (carry_filter _ ?_ 0)
  have hbars : (adverse.map some).length = (adverse'.map some).length := by
    rw [length_map, length_map, hpaths.bars]
  rw [pegSlots, pegSlots, range_eq_range']
  refine agreeTo_of_windows _ (lin.boundary (adverse.map some).length spec.pegChaseTranches) spec.pegChaseTranches
    (lin.boundary_mono _ (by rwa [length_map])) (fun k _ x hx => (pegFill_spec hside hx).1) (fun k _ x hx => ?_)
    (fun k _ x hx hle => ?_) (fun k _ x hx hle => ?_) _ 0 (by omega)
  · rw [hbars]; exact (pegFill_spec hside hx).1
  · unfold pegFill at hx ⊢
    rw [← hbars]; exact subwindowFill_early hside hpaths.getD_adverse hpaths.getD_closes hx hle
  · unfold pegFill at hx ⊢
    rw [hbars]
    exact subwindowFill_early hside (fun i hi => (hpaths.getD_adverse i hi).symm)
      (fun i hi => (hpaths.getD_closes i hi).symm) hx hle

end

/-! ## §3 Complete and honest -/

/-- Every finite path gets a schedule that is complete and honest about its bars. -/
theorem tranche_schedules_honest (lin : Linspace) (spec : ExecutionSpec) (takerCostBps : Option ℚ) {price : ℚ}
    (hprice : 0 < price) {side : ℤ} (hside : side = 1 ∨ side = -1) {adverse closes : List ℚ} (hn : adverse ≠ [])
    (hlen : adverse.length ≤ closes.length) :
    (∀ trancheCount, 1 ≤ trancheCount → ∀ strict, ∃ schedule,
      ladderedFillSchedule price side (adverse.map some) (closes.map some) trancheCount spec strict = .ok schedule ∧
        Honest side strict adverse schedule ∧ (∀ t ∈ schedule, t.rel ≤ adverse.length) ∧
        (schedule.Pairwise fun t u => t.rel ≤ u.rel) ∧
        ∀ bound adverse' closes' schedule', SamePaths bound adverse closes adverse' closes' →
          ladderedFillSchedule price side (adverse'.map some) (closes'.map some) trancheCount spec strict =
            .ok schedule' →
          schedule.filter (fun t => decide (t.rel ≤ bound)) = schedule'.filter fun t => decide (t.rel ≤ bound)) ∧
      (∃ schedule,
        pegChasePartialSchedule price side (adverse.map some) (closes.map some) spec takerCostBps
          lin = .ok schedule ∧
          Honest side true adverse schedule ∧ (∀ t ∈ schedule, t.rel < adverse.length) ∧
          (schedule.Pairwise fun t u => t.rel < u.rel) ∧
          (∀ t ∈ schedule, t.maker = true → side * t.price ≤ side * bandCap price side spec) ∧
          ∀ bound adverse' closes' schedule', SamePaths bound adverse closes adverse' closes' →
            pegChasePartialSchedule price side (adverse'.map some) (closes'.map some) spec takerCostBps lin =
              .ok schedule' →
            schedule.filter (fun t => decide (t.rel ≤ bound)) = schedule'.filter fun t => decide (t.rel ≤ bound)) ∧
      (spec.pegChaseTranches = 1 → ∀ adverse closes : List (Option ℚ),
        pegChasePartialSchedule price side adverse closes spec takerCostBps lin =
          (pegChaseFillSchedule price side adverse closes spec takerCostBps).map
            fun fill => fill.toList.map fun fill => fill.tranche 1) := by
  refine ⟨fun trancheCount hcount strict => ?_, ?_, fun hone adverse closes =>
    pegChasePartialSchedule_one price side adverse closes takerCostBps lin hone⟩
  · obtain ⟨schedule, h, hhonest, hrel, hsorted⟩ :=
      laddered_honest spec strict hprice hside hn hlen hcount
    exact ⟨schedule, h, hhonest, hrel, hsorted, fun bound adverse' closes' schedule' hpaths h' =>
      laddered_causal hprice hside hn hlen hcount hpaths h h'⟩
  · obtain ⟨schedule, h, hhonest, hrel, hsorted, hwithin⟩ :=
      pegChase_honest spec takerCostBps lin hprice hside hn hlen
    exact ⟨schedule, h, hhonest, hrel, hsorted, hwithin, fun bound adverse' closes' schedule' hpaths h' =>
      pegChase_causal hprice hside hn hlen hpaths h h'⟩

end Schedules

/-- A buy over two bars, each with more tranches than bars or with one. -/
theorem tranche_schedules_honest_buy :
    (∃ schedule, pegChasePartialSchedule 100 1 [some 101, some 99] [some 102, some 100] {} none .exact =
        .ok schedule ∧ (schedule.map Tranche.fraction).sum = 1) ∧
      ∃ schedule, ladderedFillSchedule 100 1 [some 101, some 99] [some 102, some 100] 3 {} true = .ok schedule ∧
        (schedule.map Tranche.fraction).sum = 1 := by
  obtain ⟨hladder, ⟨schedule, h, hhonest, -⟩, -⟩ := tranche_schedules_honest .exact {} none
    (show (0 : ℚ) < 100 by norm_num) (Or.inl rfl) (show [(101 : ℚ), 99] ≠ [] by simp)
    (show [(101 : ℚ), 99].length ≤ [(102 : ℚ), 100].length from le_rfl)
  obtain ⟨laddered, hl, hlhonest, -⟩ := hladder 3 (by omega) true
  exact ⟨⟨schedule, h, hhonest.total⟩, laddered, hl, hlhonest.total⟩

/-- A touch ladder fills at a bar that only touches its limit, and the ladder has no band: its limit
goes beyond the cap of the peg chase. -/
theorem ladder_touches_beyond_band :
    (∃ t, ladderedFillSchedule 100 1 [some 100] [some 100] 1 {} false = .ok [t] ∧ t.maker = true ∧
        ¬ ∃ bar, [(100 : ℚ)][t.rel]? = some bar ∧ Through 1 true t.price bar) ∧
      ∃ t, ladderedFillSchedule 100 1 [some 120, some 120] [some 120, some 200] 2 {} true = .ok [t] ∧
        t.maker = true ∧ ¬ ((1 : ℤ) : ℚ) * t.price ≤ ((1 : ℤ) : ℚ) * bandCap 100 1 {} := by
  refine ⟨⟨⟨0, 100, 2, 1, true⟩, by decide +kernel, rfl, ?_⟩, ⟨1, 150, 2, 1, true⟩, by decide +kernel, rfl,
    by decide +kernel⟩
  rintro ⟨bar, hbar, hthrough⟩; cases hbar; simp [Through] at hthrough

end CryptoPilot.Engine.Microstructure
