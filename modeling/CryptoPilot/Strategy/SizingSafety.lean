/- # SizingSafety — when the chosen exposure fits the margins.

`margin_exposure_cap` tests the rungs from the top and `choose_exposure` takes any rung below the
first that fits, so the choice is safe for every book, liquidity and evidence exactly if every rung
below the cap fits (`chooseExposure_sound_iff`).  It does where no ladder asks for less at a higher
notional (`candidates_safe_of_monotone`); the parser accepts ladders that do. -/
import CryptoPilot.Strategy.Sizing
import Mathlib.Algebra.Order.BigOperators.Group.Finset
import Mathlib.Data.Rat.Sqrt
import Mathlib.Tactic.Ring

namespace CryptoPilot.Strategy

open CryptoPilot.Lib List

/-! ## The first maximum -/

theorem firstMax_mem {α : Type} : ∀ (score : α → ℚ) (l : List α) (best : α), firstMax score best l ∈ best :: l
  | _, [], best => mem_singleton_self best
  | score, r :: rest, best => by
    have h := firstMax_mem score rest (if score best < score r then r else best)
    rw [firstMax]
    split_ifs at h ⊢ with hlt
    · exact mem_cons_of_mem _ h
    · rcases mem_cons.mp h with h | h
      · rw [h]; exact mem_cons_self
      · exact mem_cons_of_mem _ (mem_cons_of_mem _ h)

theorem firstMax_spec (score : ℚ → ℚ) : ∀ {l : List ℚ} {best : ℚ}, (best :: l).Pairwise (· < ·) → ∀ r ∈ best :: l,
    score r ≤ score (firstMax score best l) ∧ (score r = score (firstMax score best l) → firstMax score best l ≤ r)
  | [], best, _, r, hr => by
    obtain rfl := mem_singleton.mp hr; exact ⟨le_rfl, fun _ => le_rfl⟩
  | q :: rest, best, hsorted, r, hr => by
    obtain ⟨hbest, hrest⟩ := pairwise_cons.mp hsorted
    have hq : best < q := hbest q mem_cons_self
    rw [firstMax]
    split_ifs with hlt
    · have ih := firstMax_spec score hrest
      rcases mem_cons.mp hr with rfl | hr
      · have := (ih q mem_cons_self).1
        exact ⟨hlt.le.trans this, fun h => absurd (h ▸ hlt) (not_lt.mpr this)⟩
      · exact ih r hr
    · have hskip : (best :: rest).Pairwise (· < ·) :=
        List.Pairwise.cons (fun s hs => hbest s (mem_cons_of_mem _ hs)) (pairwise_cons.mp hrest).2
      have ih := firstMax_spec score hskip
      have hfirst := ih best mem_cons_self
      rcases mem_cons.mp hr with rfl | hr
      · exact hfirst
      · rcases mem_cons.mp hr with rfl | hr
        · -- a later rung with the highest score scores as high as the first one
          refine ⟨(not_lt.mp hlt).trans hfirst.1, fun h => ?_⟩
          exact (hfirst.2 (le_antisymm hfirst.1 (h ▸ not_lt.mp hlt))).trans hq.le
        · exact ih r (mem_cons_of_mem _ hr)

/-! ## The grid -/

section Grid

variable {policy : ExposurePolicy}

theorem mem_policyGrid {r : ℚ} : r ∈ policyGrid policy ↔
    ∃ k < ⌊policy.exposureMax / policy.exposureStep⌋.toNat, policy.exposureStep * (k + 1) = r := by
  simp [policyGrid]

section

variable (hstep : 0 < policy.exposureStep)

include hstep

theorem policyGrid_pos {r : ℚ} (hr : r ∈ policyGrid policy) : 0 < r := by
  obtain ⟨k, -, rfl⟩ := mem_policyGrid.mp hr; positivity

theorem policyGrid_le {r : ℚ} (hr : r ∈ policyGrid policy) : r ≤ policy.exposureMax := by
  obtain ⟨k, hk, rfl⟩ := mem_policyGrid.mp hr
  have hfloor : ((k + 1 : ℤ) : ℚ) ≤ policy.exposureMax / policy.exposureStep := Int.le_floor.mp (by omega)
  rw [le_div_iff₀ hstep, mul_comm] at hfloor; exact_mod_cast hfloor

theorem policyGrid_sorted : (policyGrid policy).Pairwise (· < ·) := by
  refine pairwise_map.mpr (pairwise_lt_range.imp fun h => ?_)
  have hlt : ((_ : ℕ) : ℚ) + 1 < _ + 1 := add_lt_add_left (Nat.cast_lt.mpr h) 1
  exact mul_lt_mul_of_pos_left hlt hstep

end

theorem head_of_filter {l : List ℚ} {bound r : ℚ} {rest : List ℚ} (hsorted : l.Pairwise (· < ·))
    (h : l.filter (fun q => q ≤ bound) = r :: rest) : l.head? = some r := by
  cases l with
  | nil => cases h
  | cons q l =>
    by_cases hq : q ≤ bound
    · rw [filter_cons_of_pos (by simpa using hq)] at h; exact congrArg some (List.cons.inj h).1
    · have hr : r ∈ (q :: l).filter (fun q => q ≤ bound) := h ▸ mem_cons_self
      rw [filter_cons_of_neg (by simpa using hq)] at hr
      obtain ⟨hmem, hle⟩ := mem_filter.mp hr
      exact absurd ((rel_of_pairwise_cons hsorted hmem).le.trans (of_decide_eq_true hle)) hq

end Grid

/-! ## The choice -/

section Choice

variable {n : ℕ} {weights : Fin n → ℚ} {equity : ℚ} {ladders : Fin n → VenueLadder} {policy : ExposurePolicy}
  {root : ℚ → ℚ} {heldNotional : Fin n → ℚ} {adv dailySigma : Fin n → Option ℚ} {moments : Option UnitMoments}

/-- What a chosen exposure is to be: nothing or a rung that fits, the smallest one without evidence,
and otherwise the smallest of the best. -/
structure SoundExposure (weights : Fin n → ℚ) (equity : ℚ) (ladders : Fin n → VenueLadder) (policy : ExposurePolicy)
    (root : ℚ → ℚ) (heldNotional : Fin n → ℚ) (adv dailySigma : Fin n → Option ℚ) (moments : Option UnitMoments)
    (exposure : ℚ) : Prop where
  safe : exposure = 0 ∨
    (exposure ∈ policyGrid policy ∧ exposure ≤ policy.exposureMax ∧
      MarginSafe weights equity ladders policy exposure)
  smallest : moments = none →
    exposure = ((policyGrid policy).find? fun rung => MarginSafe weights equity ladders policy rung).getD 0
  best : ∀ m ∈ moments, ∀ rung ∈ candidateRungs weights equity ladders policy,
    rungScore weights equity policy root heldNotional adv dailySigma m rung ≤
        rungScore weights equity policy root heldNotional adv dailySigma m exposure ∧
      (rungScore weights equity policy root heldNotional adv dailySigma m rung =
        rungScore weights equity policy root heldNotional adv dailySigma m exposure → exposure ≤ rung)

theorem candidateRungs_sorted (hstep : 0 < policy.exposureStep) :
    (candidateRungs weights equity ladders policy).Pairwise (· < ·) :=
  (policyGrid_sorted hstep).filter _

theorem not_safe_of_no_candidates (hequity : 0 < equity) (h : candidateRungs weights equity ladders policy = []) :
    (policyGrid policy).find? (fun rung => MarginSafe weights equity ladders policy rung) = none := by
  rw [find?_eq_none]
  intro r hr hsafe
  -- the highest rung that fits would be a candidate
  cases hcap : (policyGrid policy).reverse.find? fun rung => MarginSafe weights equity ladders policy rung with
  | none => exact find?_eq_none.mp hcap r (mem_reverse.mpr hr) hsafe
  | some c =>
    have hmem : c ∈ candidateRungs weights equity ladders policy := by
      refine mem_filter.mpr ⟨mem_reverse.mp (mem_of_find?_eq_some hcap), decide_eq_true ?_⟩
      rw [marginExposureCap, if_neg (not_le.mpr hequity), hcap]
      exact le_add_of_nonneg_right (by norm_num)
    rw [h] at hmem; cases hmem

theorem chooseExposure_growth (hgrowth : policy.kind = .growth) (hequity : 0 < equity) :
    chooseExposure weights equity ladders policy root heldNotional adv dailySigma moments =
      match candidateRungs weights equity ladders policy, moments with
      | [], _ => 0
      | rung :: _, none => rung
      | rung :: rungs, some moments =>
        firstMax (rungScore weights equity policy root heldNotional adv dailySigma moments) rung rungs := by
  unfold chooseExposure
  rw [hgrowth]; exact if_neg (not_le.mpr hequity)

theorem chooseExposure_sound (hgrowth : policy.kind = .growth) (hstep : 0 < policy.exposureStep)
    (hequity : 0 < equity)
    (hsafe : ∀ r ∈ candidateRungs weights equity ladders policy, MarginSafe weights equity ladders policy r) :
    SoundExposure weights equity ladders policy root heldNotional adv dailySigma moments
      (chooseExposure weights equity ladders policy root heldNotional adv dailySigma moments) := by
  have hfits : ∀ r ∈ candidateRungs weights equity ladders policy, r = 0 ∨ (r ∈ policyGrid policy ∧
      r ≤ policy.exposureMax ∧ MarginSafe weights equity ladders policy r) := by
    intro r hr
    have hmem := (mem_filter.mp hr).1; exact .inr ⟨hmem, policyGrid_le hstep hmem, hsafe r hr⟩
  rw [chooseExposure_growth hgrowth hequity]
  cases hrungs : candidateRungs weights equity ladders policy with
  | nil =>
    refine ⟨.inl rfl, fun _ => ?_, fun m _ r hr => ?_⟩
    · rw [not_safe_of_no_candidates hequity hrungs]; rfl
    · rw [hrungs] at hr; cases hr
  | cons rung rungs =>
    cases moments with
    | none =>
      refine ⟨hfits rung (hrungs ▸ mem_cons_self), fun _ => ?_, nofun⟩
      -- the lowest candidate is the lowest rung, and it fits
      have hhead := head_of_filter (policyGrid_sorted hstep) hrungs
      have hfit := hsafe rung (hrungs ▸ mem_cons_self)
      obtain ⟨rest, hgrid⟩ := head?_eq_some_iff.mp hhead
      rw [hgrid, find?_cons_of_pos (by simpa using hfit)]; rfl
    | some m =>
      have hmem : firstMax (rungScore weights equity policy root heldNotional adv dailySigma m) rung rungs ∈
          candidateRungs weights equity ladders policy := by
        rw [hrungs]; exact firstMax_mem _ _ _
      refine ⟨hfits _ hmem, nofun, fun m' hm' r hr => ?_⟩
      cases hm'
      rw [hrungs] at hr; exact firstMax_spec _ (hrungs ▸ candidateRungs_sorted hstep) r hr

/-- Evidence that makes a rung the best: with nothing to trade against, the score is `rung * q - q ^
2 / 2`. -/
def favouring (policy : ExposurePolicy) (rung : ℚ) : UnitMoments := ⟨rung / (1 - policy.meanHaircut), 1, 0⟩

theorem rungScore_favouring (hhaircut : policy.meanHaircut < 1) (rung q : ℚ) :
    rungScore weights equity policy root heldNotional (fun _ => none) dailySigma (favouring policy rung) q =
      1 / 2 * rung ^ 2 - 1 / 2 * (q - rung) ^ 2 := by
  have hne : 1 - policy.meanHaircut ≠ 0 := (sub_pos.mpr hhaircut).ne'
  have hnone : ∀ i, orderImpact root policy.impactY |q * equity * weights i - heldNotional i| none
    (dailySigma i) = 0 :=
    fun _ => rfl
  rw [rungScore, favouring]
  simp only [hnone, Finset.sum_const_zero, zero_div, sub_zero, div_mul_cancel₀ _ hne, one_mul]; ring

/-- **The choice is sound, whatever is held and whatever the liquidity and the evidence, exactly if
every rung up to the cap fits the margins.** -/
theorem chooseExposure_sound_iff (hgrowth : policy.kind = .growth) (hstep : 0 < policy.exposureStep)
    (hhaircut : policy.meanHaircut < 1) (hequity : 0 < equity) :
    (∀ heldNotional adv dailySigma moments,
      SoundExposure weights equity ladders policy root heldNotional adv dailySigma moments
        (chooseExposure weights equity ladders policy root heldNotional adv dailySigma moments)) ↔
      ∀ r ∈ policyGrid policy, r ≤ marginExposureCap weights equity ladders policy + 1 / 10 ^ 9 →
        MarginSafe weights equity ladders policy r := by
  constructor
  · intro h r hr hle
    have hcandidate : r ∈ candidateRungs weights equity ladders policy := mem_filter.mpr ⟨hr, decide_eq_true hle⟩
    have hsound := h (fun _ => 0) (fun _ => none) (fun _ => none) (some (favouring policy r))
    have hbest := (hsound.best _ rfl r hcandidate).1
    simp only [rungScore_favouring hhaircut] at hbest
    -- no other rung scores as high
    have hchosen : chooseExposure weights equity ladders policy root (fun _ => 0) (fun _ => none) (fun _ => none)
        (some (favouring policy r)) = r := by
      have hsq := sq_nonneg (chooseExposure weights equity ladders policy root (fun _ => 0) (fun _ => none)
        (fun _ => none) (some (favouring policy r)) - r)
      exact sub_eq_zero.mp (pow_eq_zero_iff two_ne_zero |>.mp (le_antisymm (by linarith) hsq))
    rcases hsound.safe with h0 | ⟨-, -, hsafe⟩
    · rw [hchosen] at h0; exact absurd h0 (policyGrid_pos hstep hr).ne'
    · exact hchosen ▸ hsafe
  · intro h heldNotional adv dailySigma moments
    refine chooseExposure_sound hgrowth hstep hequity fun r hr => ?_
    obtain ⟨hmem, hle⟩ := mem_filter.mp hr; exact h r hmem (of_decide_eq_true hle)

/-- A ladder that asks for half of a small notional and a hundredth of a large one. -/
def fallingLadder : VenueLadder := ⟨[⟨0, 1 / 2, 0, 100⟩, ⟨1000, 1 / 100, 0, 100⟩], by simp, by simp⟩

def reservedPolicy : ExposurePolicy := ⟨.growth, 2, 1 / 2, 0, 1, 2, 1 / 10, 3 / 4, 1 / 2, 0⟩

/-- The parser accepts the ladder, and without evidence half the equity is exposed, which needs more
than is free. -/
theorem chooseExposure_falling :
    (parseVenueRules (some [some ⟨"AAAUSDT",
      some [some ⟨0, 1000, 1 / 2, 0, 100⟩, some ⟨1000, 5000, 1 / 100, 0, 100⟩]⟩])
      (some [some ⟨"AAAUSDT", some (none, none)⟩]) 0 >>= buildVenueLadders fun _ : Fin 1 => "AAAUSDT") =
        .ok (fun _ => fallingLadder, []) ∧
    chooseExposure (fun _ => 1) 1000 (fun _ => fallingLadder) reservedPolicy Rat.sqrt (fun _ : Fin 1 => 0)
      (fun _ => none) (fun _ => none) none = 1 / 2 ∧
    ¬ MarginSafe (fun _ : Fin 1 => 1) 1000 (fun _ => fallingLadder) reservedPolicy (1 / 2) ∧
    ¬ ∀ heldNotional adv dailySigma moments,
      SoundExposure (fun _ : Fin 1 => 1) 1000 (fun _ =>
        fallingLadder) reservedPolicy Rat.sqrt heldNotional adv dailySigma
        moments (chooseExposure (fun _ => 1) 1000 (fun _ => fallingLadder) reservedPolicy Rat.sqrt heldNotional adv
          dailySigma moments) := by
  have hchosen : chooseExposure (fun _ => 1) 1000 (fun _ =>
    fallingLadder) reservedPolicy Rat.sqrt (fun _ : Fin 1 => 0)
      (fun _ => none) (fun _ => none) none = 1 / 2 := by decide +kernel
  have hunsafe : ¬ MarginSafe (fun _ : Fin 1 => 1) 1000 (fun _ => fallingLadder) reservedPolicy (1 / 2) := by
    decide +kernel
  refine ⟨by decide +kernel, hchosen, hunsafe, fun h => ?_⟩
  rcases (h (fun _ => 0) (fun _ => none) (fun _ => none) none).safe with h0 | ⟨-, -, hsafe⟩
  · rw [hchosen] at h0; exact absurd h0 (by norm_num)
  · exact hunsafe (hchosen ▸ hsafe)

/-- With a hundred of equity every rung is in the first tier, and half of the equity free is enough.
-/
theorem chooseExposure_sound_iff_small :
    SoundExposure (fun _ : Fin 1 => 1 / 8) 100 (fun _ => fallingLadder) reservedPolicy Rat.sqrt (fun _ => 0)
      (fun _ => none) (fun _ => none) none (chooseExposure (fun _ : Fin 1 => 1 / 8) 100 (fun _ => fallingLadder)
        reservedPolicy Rat.sqrt (fun _ => 0) (fun _ => none) (fun _ => none) none) :=
  (chooseExposure_sound_iff rfl (by decide +kernel) (by decide +kernel) (by decide +kernel)).mpr (by decide +kernel)
    _ _ _ _

/-- **Every rung up to the cap fits where no requirement falls as the notional grows.** -/
theorem candidates_safe_of_monotone (hstep : 1 / 10 ^ 9 < policy.exposureStep) (hshock : 0 ≤ policy.shockPerUnit)
    (hequity : 0 < equity) (hmaintenance : ∀ i, MonotoneOn (ladders i).maintenance (Set.Ici 0))
    (hinitial : ∀ i, MonotoneOn (ladders i).initial (Set.Ici 0)) :
    ∀ r ∈ policyGrid policy, r ≤ marginExposureCap weights equity ladders policy + 1 / 10 ^ 9 →
      MarginSafe weights equity ladders policy r := by
  have hpos : 0 < policy.exposureStep := lt_trans (by norm_num) hstep
  intro r hr hle
  rw [marginExposureCap, if_neg (not_le.mpr hequity)] at hle
  cases hcap : (policyGrid policy).reverse.find? fun rung => MarginSafe weights equity ladders policy rung with
  | none =>
    -- without a cap a rung would be no higher than the tolerance
    rw [hcap, Option.getD_none] at hle
    obtain ⟨k, -, rfl⟩ := mem_policyGrid.mp hr
    have : policy.exposureStep ≤ policy.exposureStep * (k + 1) :=
      le_mul_of_one_le_right hpos.le (le_add_of_nonneg_left (Nat.cast_nonneg k))
    linarith
  | some c =>
    rw [hcap, Option.getD_some] at hle
    have hsafe : MarginSafe weights equity ladders policy c := by simpa using find?_some hcap
    have hrc : r ≤ c := by
      obtain ⟨k, -, rfl⟩ := mem_policyGrid.mp hr
      obtain ⟨j, -, rfl⟩ := mem_policyGrid.mp (mem_reverse.mp (mem_of_find?_eq_some hcap))
      by_contra hlt
      have hjk : ((j : ℚ) + 1) + 1 ≤ (k : ℚ) + 1 := by
        have := lt_of_mul_lt_mul_left (not_le.mp hlt) hpos.le; exact_mod_cast this
      have := mul_le_mul_of_nonneg_left hjk hpos.le; linarith
    have hr0 := (policyGrid_pos hpos hr).le
    have hnotional : ∀ i, 0 ≤ r * equity * |weights i| ∧ r * equity * |weights i| ≤
      c * equity * |weights i| := fun i =>
      ⟨by positivity, mul_le_mul_of_nonneg_right (mul_le_mul_of_nonneg_right hrc hequity.le) (abs_nonneg _)⟩
    obtain ⟨hm, hi⟩ := hsafe
    constructor
    · have hsum := Finset.sum_le_sum fun i (_ : i ∈ Finset.univ) =>
        hmaintenance i (hnotional i).1 ((hnotional i).1.trans (hnotional i).2) (hnotional i).2
      have hloss := mul_le_mul_of_nonneg_right (mul_le_mul_of_nonneg_left hrc hshock) hequity.le
      exact (add_le_add hsum hloss).trans hm
    · exact (Finset.sum_le_sum fun i _ =>
        hinitial i (hnotional i).1 ((hnotional i).1.trans (hnotional i).2) (hnotional i).2).trans hi

/-- **The choice fits the margins where no ladder asks for less at a higher notional.** -/
theorem chooseExposure_sound_of_monotone (hgrowth : policy.kind = .growth)
    (hstep : 1 / 10 ^ 9 < policy.exposureStep)
    (hshock : 0 ≤ policy.shockPerUnit) (hequity : 0 < equity)
    (hladders : ∀ i, MonotoneOn (ladders i).maintenance (Set.Ici 0) ∧ MonotoneOn (ladders i).initial (Set.Ici 0)) :
    SoundExposure weights equity ladders policy root heldNotional adv dailySigma moments
      (chooseExposure weights equity ladders policy root heldNotional adv dailySigma moments) := by
  refine chooseExposure_sound hgrowth (lt_trans (by norm_num) hstep) hequity fun r hr => ?_
  obtain ⟨hmem, hle⟩ := mem_filter.mp hr
  exact candidates_safe_of_monotone hstep hshock hequity (fun i => (hladders i).1) (fun i => (hladders i).2) r hmem
    (of_decide_eq_true hle)

def twoTierLadder : VenueLadder := ⟨[⟨0, 1 / 100, 0, 20⟩, ⟨5000, 1 / 40, 75, 10⟩], by simp, by simp⟩

theorem twoTierLadder_tierAt {a : ℚ} (ha : 0 ≤ a) :
    twoTierLadder.tierAt a = if 5000 ≤ a then ⟨5000, 1 / 40, 75, 10⟩ else ⟨0, 1 / 100, 0, 20⟩ := by
  split_ifs with h <;> simp [twoTierLadder, VenueLadder.tierAt, ha, h]

theorem chooseExposure_sound_of_monotone_twoTier :
    let ladders : Fin 2 → VenueLadder := fun _ => twoTierLadder
    let weights : Fin 2 → ℚ := ![1 / 2, -1 / 2]
    SoundExposure weights 20000 ladders reservedPolicy Rat.sqrt (fun _ => 0) (fun _ => none) (fun _ => none) none
      (chooseExposure weights 20000 ladders reservedPolicy Rat.sqrt (fun _ => 0) (fun _ => none) (fun _ => none)
        none) := by
  intro ladders weights
  refine chooseExposure_sound_of_monotone rfl (by decide +kernel) (by decide +kernel)
    (by decide +kernel) fun _ => ?_
  constructor <;> intro a ha b hb hab
  · simp only [ladders, VenueLadder.maintenance, twoTierLadder_tierAt ha, twoTierLadder_tierAt hb]
    refine max_le_max ?_ le_rfl
    split_ifs <;> linarith
  · simp only [ladders, VenueLadder.initial, twoTierLadder_tierAt ha, twoTierLadder_tierAt hb]
    rw [Set.mem_Ici] at ha
    split_ifs <;> linarith

end Choice

end CryptoPilot.Strategy
