/- # TapeFillRuns — the fills of a tape, with arrays and print by print.

The sums of `simulate_resting_fill` cut at the quantity are the fill of the event loop after each
print (`clipFill_add`), so the increments up to completion are what the loop fills, print by print
(`increments_walk`); the last group takes what the tolerance left. -/
import CryptoPilot.Engine.TapeFill
import Mathlib.Tactic.Linarith
import Mathlib.Tactic.Ring

namespace CryptoPilot.Engine

open CryptoPilot.Lib List Prod

/-! ## The active window -/

section Window

variable {l : List Trade} {v : ℤ}

theorem TapeTrades.times (tape : TapeTrades) : tape.trades.Pairwise fun a b => a.timeMs ≤ b.timeMs := by
  refine tape.sorted.imp ?_
  intro a b h
  rcases Prod.Lex.toLex_le_toLex.mp h with h | h
  · exact h.le
  · exact h.1.le

theorem split_searchsorted (hl : l.Pairwise fun a b => a.timeMs ≤ b.timeMs) :
    l.take (searchsorted l v) = l.filter (fun t => decide (t.timeMs < v)) ∧
      l.drop (searchsorted l v) = l.filter (fun t => decide (v ≤ t.timeMs)) := by
  induction l with
  | nil => exact ⟨rfl, rfl⟩
  | cons t l ih =>
    obtain ⟨ht, hl⟩ := pairwise_cons.mp hl
    obtain ⟨hbefore, hafter⟩ := ih hl
    unfold searchsorted at hbefore hafter ⊢
    by_cases hlt : t.timeMs < v
    · have hge : ¬ v ≤ t.timeMs := not_le.mpr hlt
      simp only [countP_cons, filter_cons, hlt, hge, decide_true, decide_false, if_true, take_succ_cons,
        drop_succ_cons, hbefore, hafter, Bool.false_eq_true, if_false, and_self]
    · -- no later trade is before the time either
      have hnone : ∀ t' ∈ t :: l, ¬ t'.timeMs < v := by
        intro t' ht'
        rcases mem_cons.mp ht' with rfl | ht'
        · exact hlt
        · exact fun h => hlt ((ht t' ht').trans_lt h)
      have hcount : countP (fun t => decide (t.timeMs < v)) (t :: l) = 0 := by
        rw [countP_eq_zero]
        intro t' ht'; simpa using hnone t' ht'
      rw [hcount, take_zero, drop_zero]
      refine ⟨?_, ?_⟩
      · symm
        rw [filter_eq_nil_iff]
        intro t' ht'; simpa using hnone t' ht'
      · symm
        rw [filter_eq_self]
        intro t' ht'; simpa using hnone t' ht'

theorem window_eq (order : RestingOrder) (tape : TapeTrades) :
    (tape.trades.take (searchsorted tape.trades order.activeUntilMs)).drop
      (searchsorted tape.trades order.activeFromMs) = order.window tape := by
  obtain ⟨hbefore, -⟩ := split_searchsorted (v := order.activeUntilMs) tape.times
  have hcount : searchsorted tape.trades order.activeFromMs =
      searchsorted (tape.trades.filter fun t => decide (t.timeMs < order.activeUntilMs)) order.activeFromMs := by
    rw [searchsorted, searchsorted, countP_filter]
    refine countP_congr ?_
    intro t _
    have hactive := order.active; simp only [Bool.and_eq_true, decide_eq_true_eq]; omega
  rw [hbefore, hcount, (split_searchsorted (tape.times.filter _)).2, filter_filter]
  refine filter_congr ?_
  intro t _
  rw [Bool.decide_and]

theorem window_times (order : RestingOrder) (tape : TapeTrades) :
    (order.window tape).Pairwise fun a b => a.timeMs ≤ b.timeMs := tape.times.filter _

theorem qty_pos_of_mem_window {order : RestingOrder} {tape : TapeTrades} {t : Trade} (h : t ∈ order.window tape) :
    0 < t.qty := tape.qty_pos t (mem_of_mem_filter h)

end Window

/-! ## Sums cut at the quantity -/

section Clip

variable {ahead quantity rtol : ℚ}

theorem clipFill_nonneg (hq : 0 < quantity) (cum : ℚ) : 0 ≤ clipFill ahead quantity cum :=
  le_min (le_max_right _ _) hq.le

theorem clipFill_le (cum : ℚ) : clipFill ahead quantity cum ≤ quantity := min_le_right _ _

theorem clipFill_add (ahead : ℚ) (hq : 0 < quantity) (cum : ℚ) {qty : ℚ} (hqty : 0 < qty) :
    clipFill ahead quantity cum +
        min (qty - min (max (ahead - cum) 0) qty) (quantity - clipFill ahead quantity cum) =
      clipFill ahead quantity (cum + qty) := by
  unfold clipFill
  simp only [min_def, max_def]
  split_ifs <;> linarith

theorem queue_sub (ahead cum : ℚ) {qty : ℚ} (hqty : 0 < qty) :
    max (ahead - cum) 0 - min (max (ahead - cum) 0) qty = max (ahead - (cum + qty)) 0 := by
  simp only [min_def, max_def]
  split_ifs <;> linarith

theorem rest_pos (hq : 0 < quantity) (hrtol : 0 < rtol) {filled : ℚ} (hnonneg : 0 ≤ filled)
    (hopen : matured rtol quantity filled = false) : 0 < quantity - filled := by
  rcases hnonneg.lt_or_eq with hpos | hzero
  · have hlt : ¬ quantity - filled ≤ rtol * quantity := by
      intro hle
      rw [matured, decide_eq_false_iff_not] at hopen; exact hopen ⟨hpos, hle⟩
    have := mul_pos hrtol hq; linarith
  · linarith

end Clip

/-! ## Increments -/

section Increments

variable {quantity prev x : ℚ} {target : List ℚ}

theorem increments_through (done : Option ℕ) :
    increments quantity prev (x :: target) (some 0) (done.map (· + 1)) = ([quantity - prev], true) := by
  cases done <;> simp [increments]

theorem increments_matured (firstThrough : Option ℕ) :
    increments quantity prev (x :: target) (firstThrough.map (· + 1)) (some 0) = ([x - prev], true) := by
  cases firstThrough <;> simp [increments]

theorem increments_open (firstThrough done : Option ℕ) :
    increments quantity prev (x :: target) (firstThrough.map (· + 1)) (done.map (· + 1)) =
      ((x - prev) :: (increments quantity x target firstThrough done).1,
        (increments quantity x target firstThrough done).2) := by
  cases firstThrough <;> cases done <;> simp only [increments, Option.map_some, Option.map_none]
  · simp
  · simp
  · simp
  · simp only [Nat.add_lt_add_iff_right]
    split <;> simp

end Increments

/-- The increments agree with a walk that has `rest` to fill, but that the last print of a complete
order takes what the tolerance left. -/
def AgreesWalk (rest : ℚ) (zipped : List (ℤ × ℚ)) (completed : Bool) (walked : List (ℤ × ℚ) × Option ℤ) : Prop :=
  (completed = false ∧ walked = (zipped, none)) ∨
    (completed = true ∧ ∃ done t v r, zipped = done ++ [(t, v)] ∧ walked = (done ++ [(t, v + r)], some t) ∧ 0 < v ∧
      0 ≤ r ∧ (done.map snd).sum + v + r = rest)

theorem AgreesWalk.cons {rest x : ℚ} {t : ℤ} {zipped : List (ℤ × ℚ)} {completed : Bool}
    {walked : List (ℤ × ℚ) × Option ℤ} (h : AgreesWalk rest zipped completed walked) :
    AgreesWalk (x + rest) ((t, x) :: zipped) completed ((t, x) :: walked.1, walked.2) := by
  rcases h with ⟨hopen, rfl⟩ | ⟨hdone, done, t', v, r, rfl, rfl, hv, hr, hsum⟩
  · exact Or.inl ⟨hopen, rfl⟩
  · refine Or.inr ⟨hdone, (t, x) :: done, t', v, r, rfl, rfl, hv, hr, ?_⟩
    rw [map_cons, sum_cons, ← hsum]; ring

section Walk

variable {order : RestingOrder} {rtol ahead : ℚ}

variable {t : Trade} {filled : ℚ}

theorem volume_of_through (h : order.isThrough t = true) : order.volume t = 0 := by
  unfold RestingOrder.volume
  cases hside : order.side <;> simp only [RestingOrder.isThrough, RestingOrder.isEligible, hside, decide_eq_true_eq,
    Bool.and_eq_true, Bool.not_eq_true'] at h ⊢
  · rw [if_neg]
    rintro ⟨heq, -⟩; exact h.ne heq
  · rw [if_neg]
    rintro ⟨heq, -⟩; exact h.ne' heq

theorem targets_cons (cum : ℚ) (t : Trade) (w : List Trade) : targets order ahead cum (t :: w) =
    clipFill ahead order.quantity (cum + order.volume t) :: targets order ahead (cum + order.volume t) w := rfl

/-- **The increments of the arrays are the fills of the loop, print by print.** -/
theorem increments_walk (hrtol : 0 < rtol) : ∀ (w : List Trade) (cum : ℚ), (∀ t ∈ w, 0 < t.qty) →
    matured rtol order.quantity (clipFill ahead order.quantity cum) = false →
    AgreesWalk (order.quantity - clipFill ahead order.quantity cum)
      ((w.map Trade.timeMs).zip (increments order.quantity (clipFill ahead order.quantity cum)
        (targets order ahead cum w) (w.findIdx? order.isThrough)
        ((targets order ahead cum w).findIdx? (matured rtol order.quantity))).1)
      (increments order.quantity (clipFill ahead order.quantity cum) (targets order ahead cum w)
        (w.findIdx? order.isThrough) ((targets order ahead cum w).findIdx? (matured rtol order.quantity))).2
      (walk order rtol (some (max (ahead - cum) 0)) (clipFill ahead order.quantity cum) w)
  | [], cum, _, _ => Or.inl ⟨rfl, rfl⟩
  | t :: w, cum, hqty, hopen => by
    have hq := order.quantity_pos
    have ht := hqty t mem_cons_self
    have hrest := rest_pos hq hrtol (clipFill_nonneg hq cum) hopen
    have hw : ∀ t ∈ w, 0 < t.qty := fun t' ht' => hqty t' (mem_cons_of_mem _ ht')
    by_cases hthrough : order.isThrough t = true
    · -- a print through the limit completes the order
      have hvolume := volume_of_through hthrough
      rw [targets_cons, hvolume, add_zero]
      simp only [findIdx?_cons, hthrough, if_true, hopen, Bool.false_eq_true, if_false, increments_through]
      refine Or.inr ⟨rfl, [], t.timeMs, order.quantity - clipFill ahead order.quantity cum, 0, by simp, ?_,
        hrest, le_rfl, ?_⟩
      · simp only [walk, hthrough, if_true, add_zero, nil_append]
      · simp
    · rw [targets_cons]
      have hnot : order.isThrough t = false := Bool.not_eq_true _ |>.mp hthrough
      by_cases heligible : order.isEligible t = true
      · have hvolume : order.volume t = t.qty := if_pos heligible
        rw [hvolume]
        have hadd := clipFill_add ahead hq cum ht
        have hqueue := queue_sub ahead cum ht
        have hfill : 0 ≤ min (t.qty - min (max (ahead - cum) 0) t.qty)
            (order.quantity - clipFill ahead order.quantity cum) :=
          le_min (sub_nonneg.mpr (min_le_right _ _)) hrest.le
        -- an eligible print eats into the queue first; what is left of it may complete the order
        cases hdone : matured rtol order.quantity (clipFill ahead order.quantity (cum + t.qty)) with
        | true =>
          simp only [findIdx?_cons, hnot, hdone, if_true, Bool.false_eq_true, if_false, increments_matured]
          refine Or.inr ⟨rfl, [], t.timeMs,
            clipFill ahead order.quantity (cum + t.qty) - clipFill ahead order.quantity cum,
            order.quantity - clipFill ahead order.quantity (cum + t.qty), by simp, ?_, ?_,
            sub_nonneg.mpr (clipFill_le _), ?_⟩
          · simp only [walk, hnot, heligible, hadd, hdone, if_true, Bool.false_eq_true, if_false, nil_append]
            simp
          · rcases hfill.lt_or_eq with hpos | hzero
            · linarith
            · -- a print that fills nothing does not complete the order
              rw [← hzero, add_zero] at hadd
              rw [hadd, hdone] at hopen; cases hopen
          · simp
        | false =>
          have ih := increments_walk hrtol w (cum + t.qty) hw hdone
          simp only [findIdx?_cons, hnot, hdone, Bool.false_eq_true, if_false, increments_open]
          have hwalk : walk order rtol (some (max (ahead - cum) 0)) (clipFill ahead order.quantity cum) (t :: w) =
              ((t.timeMs, clipFill ahead order.quantity (cum + t.qty) - clipFill ahead order.quantity cum) ::
                (walk order rtol (some (max (ahead - (cum + t.qty)) 0))
                  (clipFill ahead order.quantity (cum + t.qty)) w).1,
                (walk order rtol (some (max (ahead - (cum + t.qty)) 0))
                  (clipFill ahead order.quantity (cum + t.qty)) w).2) := by
            have hstep : min (t.qty - min (max (ahead - cum) 0) t.qty)
                (order.quantity - clipFill ahead order.quantity cum) =
                clipFill ahead order.quantity (cum + t.qty) - clipFill ahead order.quantity cum := by
              linarith
            simp only [walk, hnot, heligible, hstep, add_sub_cancel, hdone, hqueue, Bool.false_eq_true, if_false]
          rw [hwalk]
          have hcons := ih.cons (t := t.timeMs)
            (x := clipFill ahead order.quantity (cum + t.qty) - clipFill ahead order.quantity cum)
          rw [sub_add_sub_cancel'] at hcons; exact hcons
      · -- any other print changes neither the queue nor the order
        have hno : order.isEligible t = false := Bool.not_eq_true _ |>.mp heligible
        have hvolume : order.volume t = 0 := if_neg heligible
        have ih := increments_walk hrtol w cum hw hopen
        rw [hvolume, add_zero]
        simp only [findIdx?_cons, hnot, hopen, Bool.false_eq_true, if_false, increments_open]
        have hwalk : walk order rtol (some (max (ahead - cum) 0)) (clipFill ahead order.quantity cum) (t :: w) =
            ((t.timeMs, 0) :: (walk order rtol (some (max (ahead - cum) 0))
              (clipFill ahead order.quantity cum) w).1,
              (walk order rtol (some (max (ahead - cum) 0)) (clipFill ahead order.quantity cum) w).2) := by
          simp only [walk, hnot, hno, Bool.false_eq_true, if_false]
        rw [hwalk, sub_self]
        have hcons := ih.cons (t := t.timeMs) (x := 0)
        rw [zero_add] at hcons; exact hcons

/-! ## The walk -/

variable {w : List Trade}

theorem walk_through {queue : Option ℚ} (h : order.isThrough t = true) :
    walk order rtol queue filled (t :: w) = ([(t.timeMs, order.quantity - filled)], some t.timeMs) := by
  simp only [walk, h, if_true]

theorem walk_limit {a filled : ℚ} (hnot : order.isThrough t = false) (h : order.isEligible t = true) :
    walk order rtol (some a) filled (t :: w) =
      if matured rtol order.quantity (filled + min (t.qty - min a t.qty) (order.quantity - filled)) then
        ([(t.timeMs, order.quantity - filled)], some t.timeMs)
      else ((t.timeMs, min (t.qty - min a t.qty) (order.quantity - filled)) ::
            (walk order rtol (some (a - min a t.qty))
              (filled + min (t.qty - min a t.qty) (order.quantity - filled)) w).1,
          (walk order rtol (some (a - min a t.qty))
            (filled + min (t.qty - min a t.qty) (order.quantity - filled)) w).2) := by
  simp only [walk, hnot, h, Bool.false_eq_true, if_false]

theorem walk_pass {queue : Option ℚ} (hnot : order.isThrough t = false)
    (h : order.isEligible t = false ∨ queue = none) :
    walk order rtol queue filled (t :: w) =
      ((t.timeMs, 0) :: (walk order rtol queue filled w).1, (walk order rtol queue filled w).2) := by
  rcases h with h | rfl
  · simp only [walk, hnot, h, Bool.false_eq_true, if_false]
  · cases heligible : order.isEligible t <;> simp only [walk, hnot, heligible, Bool.false_eq_true, if_false]

theorem print_cases (order : RestingOrder) (queue : Option ℚ) (t : Trade) :
    order.isThrough t = true ∨
      (order.isThrough t = false ∧ order.isEligible t = true ∧ ∃ ahead, queue = some ahead) ∨
      (order.isThrough t = false ∧ (order.isEligible t = false ∨ queue = none)) := by
  cases order.isThrough t <;> cases order.isEligible t <;> cases queue <;> simp

theorem walk_times (queue : Option ℚ) (filled : ℚ) (w : List Trade) :
    (walk order rtol queue filled w).1.map fst <+: w.map Trade.timeMs := by
  induction w generalizing queue filled with
  | nil => exact prefix_rfl
  | cons t w ih =>
    have hone : [t.timeMs] <+: (t :: w).map Trade.timeMs := cons_prefix_cons.mpr ⟨rfl, nil_prefix⟩
    rcases print_cases order queue t with hthrough | ⟨hnot, hlimit, ahead, rfl⟩ | ⟨hnot, hpass⟩
    · rw [walk_through hthrough]; exact hone
    · rw [walk_limit hnot hlimit]
      split
      · exact hone
      · exact cons_prefix_cons.mpr ⟨rfl, ih _ _⟩
    · rw [walk_pass hnot hpass]; exact cons_prefix_cons.mpr ⟨rfl, ih _ _⟩

/-- A walk after `filled` fills nothing negative, at most the rest of the order, and all of it where
it completes. -/
def FillBounds (quantity filled : ℚ) (walked : List (ℤ × ℚ) × Option ℤ) : Prop :=
  (∀ e ∈ walked.1, 0 ≤ e.2) ∧ filled + (walked.1.map snd).sum ≤ quantity ∧
    (walked.2.isSome → filled + (walked.1.map snd).sum = quantity)

theorem bounds_cons {quantity filled x : ℚ} {t : ℤ} {walked : List (ℤ × ℚ) × Option ℤ} (hx : 0 ≤ x)
    (h : FillBounds quantity (filled + x) walked) : FillBounds quantity filled ((t, x) :: walked.1, walked.2) := by
  obtain ⟨hnonneg, hbound, hfull⟩ := h
  have hsum : filled + (((t, x) :: walked.1).map snd).sum = filled + x + (walked.1.map snd).sum := by
    rw [map_cons, sum_cons, add_assoc]
  refine ⟨?_, hsum ▸ hbound, fun hsome => hsum.trans (hfull hsome)⟩
  intro e he
  rcases mem_cons.mp he with rfl | he
  · exact hx
  · exact hnonneg e he

/-- **A walk fills nothing negative and never more than the rest of the order**, and all of it where
it completes. -/
theorem walk_bounds (hqty : ∀ t ∈ w, 0 < t.qty) (queue : Option ℚ)
    (hle : filled ≤ order.quantity) : FillBounds order.quantity filled (walk order rtol queue filled w) := by
  induction w generalizing queue filled with
  | nil =>
    refine ⟨fun e he => absurd he not_mem_nil, ?_, fun h => by cases h⟩
    simpa [walk] using hle
  | cons t w ih =>
    have hw : ∀ t ∈ w, 0 < t.qty := fun t' ht' => hqty t' (mem_cons_of_mem _ ht')
    have hlast : FillBounds order.quantity filled ([(t.timeMs, order.quantity - filled)], some t.timeMs) := by
      refine ⟨?_, ?_, ?_⟩
      · intro e he
        rw [mem_singleton.mp he]; exact sub_nonneg.mpr hle
      · simp
      · simp
    rcases print_cases order queue t with hthrough | ⟨hnot, hlimit, ahead, rfl⟩ | ⟨hnot, hpass⟩
    · rw [walk_through hthrough]; exact hlast
    · rw [walk_limit hnot hlimit]
      split
      · exact hlast
      · have hfill : 0 ≤ min (t.qty - min ahead t.qty) (order.quantity - filled) :=
          le_min (sub_nonneg.mpr (min_le_right _ _)) (sub_nonneg.mpr hle)
        have hle' : filled + min (t.qty - min ahead t.qty) (order.quantity - filled) ≤ order.quantity := by
          have := min_le_right (t.qty - min ahead t.qty) (order.quantity - filled); linarith
        have hlater := ih hw (some (ahead - min ahead t.qty)) hle'; exact bounds_cons hfill hlater
    · rw [walk_pass hnot hpass]
      have hlater := ih hw queue hle
      rw [← add_zero filled] at hlater
      have hcons := bounds_cons (t := t.timeMs) le_rfl hlater; rwa [add_zero] at hcons

theorem walk_unknown (hrest : 0 < order.quantity - filled) (w : List Trade) :
    positives (walk order rtol none filled w).1 =
        ((w.find? order.isThrough).map fun t => (t.timeMs, order.quantity - filled)).toList ∧
      (walk order rtol none filled w).2 = (w.find? order.isThrough).map Trade.timeMs := by
  induction w with
  | nil => exact ⟨rfl, rfl⟩
  | cons t w ih =>
    rcases print_cases order none t with hthrough | ⟨-, -, ahead, hsome⟩ | ⟨hnot, hpass⟩
    · rw [walk_through hthrough, find?_cons_of_pos hthrough]
      exact ⟨filter_cons_of_pos (by simpa using hrest), rfl⟩
    · cases hsome
    · rw [walk_pass hnot hpass, find?_cons_of_neg (by simp [hnot])]; exact ih

end Walk

/-! ## The arrays are the loop -/

section Equal

variable {order : RestingOrder} {spec : TapeFillSpec} {w : List Trade}

theorem ahead_nonneg {ahead : ℚ} (h : order.ahead spec = some ahead) : 0 ≤ ahead := by
  unfold RestingOrder.ahead at h
  split at h
  · cases h
  · cases h; exact le_rfl
  · next q hq =>
    cases h; exact mul_nonneg (order.queue_nonneg q hq) spec.fraction_nonneg

theorem clipFill_zero {ahead quantity : ℚ} (hq : 0 < quantity) (ha : 0 ≤ ahead) :
    clipFill ahead quantity 0 = 0 := by
  rw [clipFill, zero_sub, max_eq_right (neg_nonpos.mpr ha), min_eq_left hq.le]

theorem matured_zero (rtol quantity : ℚ) : matured rtol quantity 0 = false := by
  rw [matured, decide_eq_false_iff_not]
  rintro ⟨h, -⟩; exact lt_irrefl _ h

section

variable (hw : w.Pairwise fun a b => a.timeMs ≤ b.timeMs)

include hw

theorem walk_pairwise (rtol : ℚ) (queue : Option ℚ) (filled : ℚ) :
    (walk order rtol queue filled w).1.Pairwise fun a b => a.1 ≤ b.1 := by
  have htimes : (w.map Trade.timeMs).Pairwise (· ≤ ·) := pairwise_map.mpr hw
  exact pairwise_map.mp (htimes.sublist (walk_times queue filled w).sublist)

/-- **On a window the arrays compute what the loop does.** -/
theorem fillWindow_eq_loopWindow (hqty : ∀ t ∈ w, 0 < t.qty) :
    fillWindow order spec w = loopWindow order spec w := by
  have hq := order.quantity_pos
  unfold fillWindow loopWindow
  cases hahead : order.ahead spec with
  | none =>
    have hrest : 0 < order.quantity - 0 := by rwa [sub_zero]
    obtain ⟨hfills, htime⟩ := walk_unknown hrest w
    dsimp only
    rw [hfills, htime]
    cases w.find? order.isThrough with
    | none => rfl
    | some t => simp [sumRuns, consRun]
  | some ahead =>
    have ha := ahead_nonneg hahead
    have hzero := clipFill_zero hq ha
    have hagree := increments_walk spec.rtol_pos w 0 hqty
      (by rw [hzero]; exact matured_zero _ _)
    rw [hzero, sub_zero, sub_zero, max_eq_left ha] at hagree
    have hpairwise : (walk order _ _ _ w).1.Pairwise _ := walk_pairwise hw spec.qtyRtol (some ahead) 0
    obtain ⟨hnonneg, -, -⟩ : FillBounds _ _ (walk order spec.qtyRtol _ _ _) := walk_bounds hqty (some ahead) hq.le
    dsimp only
    generalize increments order.quantity 0 (targets order ahead 0 w) (w.findIdx? order.isThrough)
      ((targets order ahead 0 w).findIdx? (matured spec.qtyRtol order.quantity)) = incs at hagree ⊢
    generalize walk order spec.qtyRtol (some ahead) 0 w = walked at hagree hpairwise hnonneg ⊢
    obtain ⟨incs, completed⟩ := incs
    rcases hagree with ⟨rfl, rfl⟩ | ⟨rfl, done, t, v, r, hzip, rfl, hv, hr, hsum⟩
    · have hkept := positives_sumRuns hpairwise hnonneg
      simp only [Bool.false_eq_true, if_false, hkept, sum_sumRuns, key_head?_sumRuns]
    · -- the last group takes what the tolerance left
      have hdone : done.Pairwise fun a b => a.1 ≤ b.1 := (pairwise_append.mp hpairwise).1
      have hzipped : ((w.map Trade.timeMs).zip incs).Pairwise fun a b => a.1 ≤ b.1 := by
        rw [hzip]
        refine pairwise_append.mpr ⟨hdone, pairwise_singleton _ _, ?_⟩
        intro a ha b hb
        rw [mem_singleton.mp hb]
        exact (pairwise_append.mp hpairwise).2.2 a ha (t, v + r) mem_cons_self
      have hnonneg' : ∀ e ∈ done, 0 ≤ e.2 := fun e he => hnonneg e (mem_append_left _ he)
      have hpos : 0 < v + r := add_pos_of_pos_of_nonneg hv hr
      have hkept : positives (sumRuns ((w.map Trade.timeMs).zip incs)) = sumRuns (positives done ++ [(t, v)]) := by
        rw [positives_sumRuns hzipped, hzip, positives_append]
        · congr 2; exact filter_cons_of_pos (by simpa using hv)
        · intro e he
          rw [hzip] at he
          rcases mem_append.mp he with he | he
          · exact hnonneg' e he
          · rw [mem_singleton.mp he]; exact hv.le
      have hexec : positives (done ++ [(t, v + r)]) = positives done ++ [(t, v + r)] := by
        rw [positives_append]
        congr 1; exact filter_cons_of_pos (by simpa using hpos)
      have hleft : order.quantity - ((sumRuns (positives done ++ [(t, v)])).map snd).sum = r := by
        rw [sum_sumRuns, map_append, sum_append, sum_positives hnonneg', ← hsum]
        simp only [map_cons, map_nil, sum_cons, sum_nil]; ring
      have hfills : addToLast r (sumRuns (positives done ++ [(t, v)])) =
        sumRuns (positives done ++ [(t, v + r)]) := by
        rw [← sumRuns_addToLast, addToLast_concat]
      have hfilled : ((positives done ++ [(t, v + r)]).map snd).sum = order.quantity := by
        rw [map_append, sum_append, sum_positives hnonneg', ← hsum]
        simp only [map_cons, map_nil, sum_cons, sum_nil]; ring
      simp only [if_true, hkept, hexec, hleft, hfills, hfilled, key_head?_sumRuns, key_getLast?_sumRuns]

end

end Equal

theorem simulateRestingFill_eq {order : RestingOrder} {spec : TapeFillSpec} {tape : TapeTrades}
    (hcover : tape.coverageStart ≤ order.activeFromMs ∧ order.activeUntilMs ≤ tape.coverageEnd) :
    simulateRestingFill order spec tape = .ok (eventLoop order spec tape) := by
  have hout : ¬ (order.activeFromMs < tape.coverageStart ∨ tape.coverageEnd < order.activeUntilMs) := by omega
  unfold simulateRestingFill
  rw [if_neg hout]
  dsimp only
  split
  · next hempty =>
    have hwindow : order.window tape = [] := by
      rw [← window_eq, drop_eq_nil_iff, length_take]; exact (min_le_left _ _).trans hempty
    rw [eventLoop, hwindow]; rfl
  · rw [window_eq, fillWindow_eq_loopWindow (window_times order tape) fun t ht => qty_pos_of_mem_window ht]
    rfl

/-! ## What the loop fills -/

section Facts

variable (order : RestingOrder) (spec : TapeFillSpec) (tape : TapeTrades)

theorem eventLoop_sum : ((eventLoop order spec tape).fills.map snd).sum = (eventLoop order spec tape).filledQty :=
  sum_sumRuns _

theorem eventLoop_filled_le : (eventLoop order spec tape).filledQty ≤ order.quantity := by
  obtain ⟨hnonneg, hbound, -⟩ := walk_bounds
    (fun t (ht : t ∈ order.window tape) => qty_pos_of_mem_window ht) (order.ahead spec) order.quantity_pos.le
  rw [zero_add] at hbound
  show ((positives _).map snd).sum ≤ order.quantity; rwa [sum_positives hnonneg]

theorem eventLoop_increasing : (eventLoop order spec tape).fills.Pairwise fun a b => a.1 < b.1 :=
  pairwise_sumRuns ((walk_pairwise (window_times order tape) _ _ _).filter _)

theorem eventLoop_inside {fill : ℤ × ℚ} (h : fill ∈ (eventLoop order spec tape).fills) :
    order.activeFromMs ≤ fill.1 ∧ fill.1 < order.activeUntilMs ∧ 0 < fill.2 := by
  obtain ⟨e, he, hkey⟩ := key_of_mem_sumRuns h
  have htime : e.1 ∈ (order.window tape).map Trade.timeMs :=
    (walk_times (order.ahead spec) 0 (order.window tape)).subset
      (mem_map_of_mem (mem_of_mem_filter he))
  obtain ⟨t, ht, htime⟩ := mem_map.mp htime
  have hin := (mem_filter.mp ht).2
  rw [decide_eq_true_eq, htime, hkey] at hin
  refine ⟨hin.1, hin.2, pos_of_mem_sumRuns ?_ fill h⟩
  intro e he; simpa using (mem_filter.mp he).2

end Facts

/-! ## A longer queue -/

section Queue

variable {order : RestingOrder} {rtol : ℚ}

def filledBy (result : TapeFillResult) (t : ℤ) : ℚ :=
  ((result.fills.filter fun fill => decide (fill.1 ≤ t)).map snd).sum

def RestingOrder.withQueue (order : RestingOrder) (q : ℚ) (hq : 0 ≤ q) : RestingOrder :=
  { order with
    queueAheadQty := some q
    queue_nonneg := by
      intro q' hq'
      cases hq'
      exact hq }

theorem walk_withQueue {q : ℚ} (hq : 0 ≤ q) (queue : Option ℚ) (filled : ℚ) (w : List Trade) :
    walk (order.withQueue q hq) rtol queue filled w = walk order rtol queue filled w := by
  have hthrough : ∀ t, (order.withQueue q hq).isThrough t = order.isThrough t := fun _ => rfl
  have heligible : ∀ t, (order.withQueue q hq).isEligible t = order.isEligible t := fun _ => rfl
  have hquantity : (order.withQueue q hq).quantity = order.quantity := rfl
  induction w generalizing queue filled with
  | nil => rfl
  | cons t w ih =>
    unfold walk; simp only [hthrough, heligible, hquantity, ih]

variable {w : List Trade}

theorem walk_filter (t : ℤ) (hw : w.Pairwise fun a b => a.timeMs ≤ b.timeMs) (queue : Option ℚ)
    (filled : ℚ) :
    ((walk order rtol queue filled w).1.filter fun e => decide (e.1 ≤ t)) =
      (walk order rtol queue filled (w.filter fun p => decide (p.timeMs ≤ t))).1 := by
  induction w generalizing queue filled with
  | nil => rfl
  | cons p w ih =>
    obtain ⟨hp, hw'⟩ := pairwise_cons.mp hw
    by_cases hle : p.timeMs ≤ t
    · rw [filter_cons_of_pos (by simpa using hle)]
      rcases print_cases order queue p with hthrough | ⟨hnot, hlimit, ahead, rfl⟩ | ⟨hnot, hpass⟩
      · rw [walk_through hthrough, walk_through hthrough]
        exact filter_cons_of_pos (by simpa using hle)
      · rw [walk_limit hnot hlimit, walk_limit hnot hlimit]
        split
        · exact filter_cons_of_pos (by simpa using hle)
        · rw [filter_cons_of_pos (by simpa using hle), ih hw']
      · rw [walk_pass hnot hpass, walk_pass hnot hpass, filter_cons_of_pos (by simpa using hle), ih hw']
    · -- no later print is by that time either
      have hnone : (p :: w).filter (fun p => decide (p.timeMs ≤ t)) = [] := by
        rw [filter_eq_nil_iff]
        intro p' hp'
        rcases mem_cons.mp hp' with rfl | hp'
        · simpa using hle
        · have := hp p' hp'; simp only [decide_eq_true_eq]; omega
      rw [hnone, filter_eq_nil_iff.mpr]
      · rfl
      · intro e he
        have htime : e.1 ∈ (p :: w).map Trade.timeMs :=
          (walk_times queue filled (p :: w)).subset (mem_map_of_mem he)
        obtain ⟨p', hp', htime⟩ := mem_map.mp htime
        have := filter_eq_nil_iff.mp hnone p' hp'; rwa [htime] at this

/-- **A longer queue fills no more**, of any prints. -/
theorem walk_antitone (hqty : ∀ t ∈ w, 0 < t.qty) {a b f g : ℚ} (hab : a ≤ b) (hgf : g ≤ f)
    (hf : f ≤ order.quantity) :
    g + ((walk order rtol (some b) g w).1.map snd).sum ≤
      f + ((walk order rtol (some a) f w).1.map snd).sum := by
  induction w generalizing a b f g with
  | nil => simpa [walk] using hgf
  | cons t w ih =>
    have hw : ∀ t ∈ w, 0 < t.qty := fun t' ht' => hqty t' (mem_cons_of_mem _ ht')
    have hg : g ≤ order.quantity := hgf.trans hf
    have hbounds : FillBounds _ _ (walk order rtol _ _ _) := walk_bounds hqty (some b) hg
    have hbound := hbounds.2.1
    rcases print_cases order (some a) t with hthrough | ⟨hnot, hlimit, -⟩ | ⟨hnot, hpass⟩
    · rw [walk_through hthrough, walk_through hthrough]; simp
    · by_cases hdone : matured rtol order.quantity (f + min (t.qty - min a t.qty) (order.quantity - f)) = true
      · rw [walk_limit (a := a) hnot hlimit, if_pos hdone]; simpa using hbound
      · have hahead : a - min a t.qty ≤ b - min b t.qty := by
          simp only [min_def]
          split_ifs <;> linarith
        have hfilled : g + min (t.qty - min b t.qty) (order.quantity - g) ≤
            f + min (t.qty - min a t.qty) (order.quantity - f) := by
          simp only [min_def]
          split_ifs <;> linarith
        have hle : f + min (t.qty - min a t.qty) (order.quantity - f) ≤ order.quantity := by
          have := min_le_right (t.qty - min a t.qty) (order.quantity - f); linarith
        -- the order with the longer queue is not complete before the other
        have hopen : ¬ matured rtol order.quantity (g + min (t.qty - min b t.qty) (order.quantity - g)) = true := by
          intro h
          apply hdone
          rw [matured, decide_eq_true_eq] at h ⊢; exact ⟨h.1.trans_le hfilled, by linarith⟩
        rw [walk_limit hnot hlimit, walk_limit hnot hlimit, if_neg hdone, if_neg hopen]
        have hlater := ih hw hahead hfilled hle
        rw [map_cons, map_cons, sum_cons, sum_cons]; linarith
    · have hno : order.isEligible t = false := by
        rcases hpass with h | h
        · exact h
        · cases h
      rw [walk_pass hnot (Or.inl hno), walk_pass hnot (Or.inl hno), map_cons, map_cons, sum_cons,
        sum_cons, zero_add, zero_add]
      exact ih hw hab hgf hf

/-- **A print through the limit alone fills no more than any queue.** -/
theorem walk_through_le (hqty : ∀ t ∈ w, 0 < t.qty) (a : ℚ) {f g : ℚ} (hgf : g ≤ f)
    (hf : f ≤ order.quantity) :
    g + ((walk order rtol none g w).1.map snd).sum ≤ f + ((walk order rtol (some a) f w).1.map snd).sum := by
  induction w generalizing a f with
  | nil => simpa [walk] using hgf
  | cons t w ih =>
    have hw : ∀ t ∈ w, 0 < t.qty := fun t' ht' => hqty t' (mem_cons_of_mem _ ht')
    rcases print_cases order none t with hthrough | ⟨-, -, ahead, hsome⟩ | ⟨hnot, hpass⟩
    · rw [walk_through hthrough, walk_through hthrough]; simp
    · cases hsome
    · rcases print_cases order (some a) t with hthrough | ⟨-, hlimit, -⟩ | ⟨-, hpass'⟩
      · simp [hnot] at hthrough
      · have hbound : FillBounds _ _ (walk order rtol none g (t :: w)) := walk_bounds hqty none (hgf.trans hf)
        rw [walk_limit (a := a) hnot hlimit]
        split
        · simpa using hbound.2.1
        · have hfill : 0 ≤ min (t.qty - min a t.qty) (order.quantity - f) :=
            le_min (sub_nonneg.mpr (min_le_right _ _)) (sub_nonneg.mpr hf)
          have hlater := ih hw (a - min a t.qty) (f :=
            f + min (t.qty - min a t.qty) (order.quantity - f)) (by linarith)
            (by linarith [min_le_right (t.qty - min a t.qty) (order.quantity - f)])
          rw [walk_pass hnot hpass]; simp only [map_cons, sum_cons]; linarith
      · rw [walk_pass hnot hpass, walk_pass hnot hpass']; simpa using ih hw a hgf hf

theorem filledBy_eventLoop (spec : TapeFillSpec) (tape : TapeTrades) (t : ℤ) :
    filledBy (eventLoop order spec tape) t =
      ((walk order spec.qtyRtol (order.ahead spec) 0
        ((order.window tape).filter fun p => decide (p.timeMs ≤ t))).1.map snd).sum := by
  have hbounds : FillBounds _ _ (walk order spec.qtyRtol _ _ _) := walk_bounds
    (fun t (ht : t ∈ order.window tape) => qty_pos_of_mem_window ht) (order.ahead spec) order.quantity_pos.le
  have hfilter : _ = (walk order spec.qtyRtol _ _ _).1 :=
    walk_filter t (window_times order tape) (order.ahead spec) 0
  unfold filledBy eventLoop loopWindow
  rw [sum_filter_sumRuns (fun k => decide (k ≤ t)), positives_filter (fun k => decide (k ≤ t)),
    sum_positives, hfilter]
  intro e he; exact hbounds.1 e (mem_of_mem_filter he)

theorem filledBy_antitone (spec : TapeFillSpec) (tape : TapeTrades) {a b : ℚ} (ha : 0 ≤ a) (hab : a ≤ b) (t : ℤ) :
    filledBy (eventLoop (order.withQueue b (ha.trans hab)) spec tape) t ≤
      filledBy (eventLoop (order.withQueue a ha) spec tape) t := by
  rw [filledBy_eventLoop, filledBy_eventLoop, walk_withQueue, walk_withQueue]
  have hqty : ∀ p ∈ (order.window tape).filter (fun p => decide (p.timeMs ≤ t)), 0 < p.qty :=
    fun p hp => qty_pos_of_mem_window (mem_of_mem_filter hp)
  have h : _ + ((walk order spec.qtyRtol _ _ _).1.map snd).sum ≤ _ := walk_antitone hqty
    (mul_le_mul_of_nonneg_right hab spec.fraction_nonneg) (le_refl 0) order.quantity_pos.le
  rw [zero_add, zero_add] at h; exact h

end Queue

/-- **The vectorised fill of a resting order is the event loop.** -/
theorem simulateRestingFill_eventLoop (order : RestingOrder) (spec : TapeFillSpec) (tape : TapeTrades)
    (hcover : tape.coverageStart ≤ order.activeFromMs ∧ order.activeUntilMs ≤ tape.coverageEnd) :
    ∃ result, simulateRestingFill order spec tape = .ok result ∧ result = eventLoop order spec tape ∧
      (result.fills.map snd).sum = result.filledQty ∧ result.filledQty ≤ order.quantity ∧
      (result.fills.Pairwise fun a b => a.1 < b.1) ∧
      (∀ fill ∈ result.fills, order.activeFromMs ≤ fill.1 ∧ fill.1 < order.activeUntilMs ∧ 0 < fill.2) ∧
      ∀ (a b : ℚ) (ha : 0 ≤ a) (hab : a ≤ b), ∃ ra rb,
        simulateRestingFill (order.withQueue a ha) spec tape = .ok ra ∧
        simulateRestingFill (order.withQueue b (ha.trans hab)) spec tape = .ok rb ∧
        ∀ t, filledBy rb t ≤ filledBy ra t := by
  refine ⟨_, simulateRestingFill_eq hcover, rfl, eventLoop_sum order spec tape, eventLoop_filled_le order spec tape,
    eventLoop_increasing order spec tape, fun fill h => eventLoop_inside order spec tape h, ?_⟩
  intro a b ha hab
  exact ⟨_, _, simulateRestingFill_eq hcover, simulateRestingFill_eq hcover,
    fun t => filledBy_antitone spec tape ha hab t⟩

/-- Three sells at 100, two of them in one millisecond, and a print through. -/
def sellsAtHundred : TapeTrades where
  trades := [⟨10, 1, 100, 3, true⟩, ⟨20, 2, 100, 2, true⟩, ⟨20, 3, 100, 1, true⟩, ⟨30, 4, 99, 1, true⟩]
  coverageStart := 0
  coverageEnd := 50
  sorted := by decide
  qty_pos := by decide
  covered := by decide

def buyAtHundred : RestingOrder where
  side := .buy
  limitPrice := 100
  quantity := 10
  activeFromMs := 5
  activeUntilMs := 45
  queueAheadQty := some 4
  limitPrice_pos := by decide
  quantity_pos := by decide
  active := by decide
  queue_nonneg := by decide

def defaultSpec : TapeFillSpec where
  fraction_nonneg := by decide
  fraction_le := by decide
  rtol_pos := by decide +kernel

/-- The queue of 4 leaves 2 of the sells at 20, and the print through fills the rest. -/
theorem simulateRestingFill_eventLoop_sells :
    (eventLoop buyAtHundred defaultSpec sellsAtHundred).fills = [(20, 2), (30, 8)] ∧
      ∃ result, simulateRestingFill buyAtHundred defaultSpec sellsAtHundred = .ok result ∧
        result = eventLoop buyAtHundred defaultSpec sellsAtHundred ∧ result.filledQty ≤ 10 := by
  obtain ⟨result, hok, heq, -, hle, -⟩ :=
    simulateRestingFill_eventLoop buyAtHundred defaultSpec sellsAtHundred (by decide)
  exact ⟨by decide +kernel, result, hok, heq, hle⟩

/-- **The two rules for an unknown queue bound every known one**: at any time the order has filled
at least what `through_only` says and at most what `front_of_queue` does. -/
theorem simulateRestingFill_bracketed {order : RestingOrder} (hunknown : order.queueAheadQty = none)
    (spec : TapeFillSpec) {tape : TapeTrades}
    (hcover : tape.coverageStart ≤ order.activeFromMs ∧ order.activeUntilMs ≤ tape.coverageEnd)
    {q : ℚ} (hq : 0 ≤ q) :
    ∃ low known high,
      simulateRestingFill order { spec with unknownQueue := .throughOnly } tape = .ok low ∧
      simulateRestingFill (order.withQueue q hq) spec tape = .ok known ∧
      simulateRestingFill order { spec with unknownQueue := .frontOfQueue } tape = .ok high ∧
      ∀ t, filledBy low t ≤ filledBy known t ∧ filledBy known t ≤ filledBy high t := by
  refine ⟨_, _, _, simulateRestingFill_eq hcover, simulateRestingFill_eq hcover,
    simulateRestingFill_eq hcover, fun t => ?_⟩
  have hqty : ∀ p ∈ (order.window tape).filter (fun p => decide (p.timeMs ≤ t)), 0 < p.qty :=
    fun p hp => qty_pos_of_mem_window (mem_of_mem_filter hp)
  have hlow : order.ahead { spec with unknownQueue := .throughOnly } = none := by rw [RestingOrder.ahead, hunknown]
  have hhigh : order.ahead { spec with unknownQueue := .frontOfQueue } = some 0 := by
    rw [RestingOrder.ahead, hunknown]
  rw [filledBy_eventLoop, filledBy_eventLoop, filledBy_eventLoop, walk_withQueue, hlow, hhigh]
  have hthrough : (0 : ℚ) + ((walk order spec.qtyRtol none 0 _).1.map snd).sum ≤ _ :=
    walk_through_le hqty (q * spec.queueAheadFraction) le_rfl order.quantity_pos.le
  have hfront : (0 : ℚ) + ((walk order spec.qtyRtol _ 0 _).1.map snd).sum ≤ _ :=
    walk_antitone hqty (mul_nonneg hq spec.fraction_nonneg) (le_refl 0) order.quantity_pos.le
  rw [zero_add, zero_add] at hthrough hfront; exact ⟨hthrough, hfront⟩

def buyUnknown : RestingOrder := { buyAtHundred with queueAheadQty := none, queue_nonneg := nofun }

theorem simulateRestingFill_bracketed_sells :
    ∃ low known high,
      simulateRestingFill buyUnknown { defaultSpec with unknownQueue := .throughOnly } sellsAtHundred = .ok low ∧
      simulateRestingFill buyAtHundred defaultSpec sellsAtHundred = .ok known ∧
      simulateRestingFill buyUnknown { defaultSpec with unknownQueue := .frontOfQueue } sellsAtHundred = .ok high ∧
      ∀ t, filledBy low t ≤ filledBy known t ∧ filledBy known t ≤ filledBy high t :=
  @simulateRestingFill_bracketed buyUnknown rfl defaultSpec _ (by decide) 4 (by decide)

/-- **A fill does not look ahead**: it is the same, up to a time, on any tape with the same trades
up to then. -/
theorem simulateRestingFill_causal (order : RestingOrder) (spec : TapeFillSpec) {tape tape' : TapeTrades} {t : ℤ}
    (hcover : tape.coverageStart ≤ order.activeFromMs ∧ order.activeUntilMs ≤ tape.coverageEnd)
    (hcover' : tape'.coverageStart ≤ order.activeFromMs ∧ order.activeUntilMs ≤ tape'.coverageEnd)
    (hsame : tape.trades.filter (fun p => p.timeMs ≤ t) = tape'.trades.filter fun p => p.timeMs ≤ t) :
    ∃ result result', simulateRestingFill order spec tape = .ok result ∧
      simulateRestingFill order spec tape' = .ok result' ∧ ∀ u ≤ t, filledBy result u = filledBy result' u := by
  refine ⟨_, _, simulateRestingFill_eq hcover, simulateRestingFill_eq hcover', fun u hu => ?_⟩
  have hcut (tape : TapeTrades) : (order.window tape).filter (fun p => decide (p.timeMs ≤ u)) =
      ((tape.trades.filter fun p => p.timeMs ≤ t).filter fun p => p.timeMs ≤ u).filter fun p =>
        decide (order.activeFromMs ≤ p.timeMs ∧ p.timeMs < order.activeUntilMs) := by
    simp only [RestingOrder.window, filter_filter]
    refine filter_congr fun p _ => ?_
    rw [Bool.eq_iff_iff]; simp only [Bool.and_eq_true, decide_eq_true_eq]; omega
  rw [filledBy_eventLoop, filledBy_eventLoop, hcut tape, hcut tape', hsame]

theorem simulateRestingFill_causal_sells :
    ∃ result result', simulateRestingFill buyAtHundred defaultSpec sellsAtHundred = .ok result ∧
      simulateRestingFill buyAtHundred defaultSpec { sellsAtHundred with
        trades := sellsAtHundred.trades.take 3, sorted := by
          decide, qty_pos := by decide, covered := by decide } = .ok result' ∧
      ∀ u ≤ 20, filledBy result u = filledBy result' u :=
  simulateRestingFill_causal buyAtHundred defaultSpec (by decide) (by decide) (by decide)

end CryptoPilot.Engine
