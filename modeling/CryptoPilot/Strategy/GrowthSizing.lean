/- # GrowthSizing — two simulations of a bootstrap path.

Without the overlay a path's drawdown is taken by array operations from the running maximum of its
bars; the overlay's recursion starts that maximum at the starting equity.  They part on the bars
before the equity is back at its start. -/
import Mathlib.Algebra.BigOperators.Group.List.Basic
import Mathlib.Algebra.Order.Field.Rat
import Mathlib.Tactic.Linarith
import Mathlib.Tactic.NormNum

namespace CryptoPilot.Strategy

open List

/-- `np.cumprod(1.0 + scaled)`, from an equity. -/
def cumprod (equity : ℚ) : List ℚ → List ℚ
  | [] => []
  | r :: rest => equity * (1 + r) :: cumprod (equity * (1 + r)) rest

/-- `np.maximum.accumulate(cum)`, from a peak. -/
def accumulateMax (peak : ℚ) : List ℚ → List ℚ
  | [] => []
  | e :: rest => max peak e :: accumulateMax (max peak e) rest

/-- `1.0 - cum / peak`; where the peak is zero so is the equity, and the quotient is a NaN. -/
def drawdown (equity peak : ℚ) : Option ℚ := if peak = 0 then none else some (1 - equity / peak)

structure PathOutcome where
  final : ℚ
  mdd : Option ℚ
  deriving DecidableEq

/-- The array operations on one path: `cum[-1]`, and the maximum of the drawdowns, which passes a
NaN on. -/
def vectorised (scaled : List ℚ) : PathOutcome :=
  let cum := cumprod 1 scaled
  { final := cum.getLast?.getD 1
    mdd := match cum with
      | [] => none
      | first :: _ => ((zipWith drawdown cum (accumulateMax first cum)).mapM id).bind List.max? }

structure OverlayState where
  equity : ℚ
  peak : ℚ
  mdd : ℚ

/-- One bar of `_simulate_with_drawdown_overlay`. -/
def overlayBar (multiplier : ℚ → ℚ) (s : OverlayState) (r : ℚ) : OverlayState :=
  let equity := s.equity * (1 + r * multiplier s.mdd)
  let peak := max s.peak equity
  { equity := equity, peak := peak, mdd := max s.mdd (1 - equity / peak) }

def simulateWithOverlay (multiplier : ℚ → ℚ) (scaled : List ℚ) : OverlayState :=
  scaled.foldl (overlayBar multiplier) ⟨1, 1, 0⟩

/-- `drawdown_risk_multiplier`, on the default ladder. -/
def drawdownRiskMultiplier (dd : ℚ) : ℚ :=
  if dd ≤ 5 / 100 then 1
  else if dd ≤ 15 / 100 then 1 - 75 / 100 * (dd - 5 / 100) / (10 / 100)
  else if dd < 20 / 100 then 25 / 100 * (20 / 100 - dd) / (5 / 100)
  else 0

def OverlayState.outcome (s : OverlayState) : PathOutcome := ⟨s.equity, some s.mdd⟩

structure GrowthSizingConfig where
  riskGrid : List ℚ
  referenceRisk : ℚ
  maxDrawdown : ℚ
  maxDrawdownProb : ℚ
  ruinFraction : ℚ
  maxRuinProb : ℚ

def PathOutcome.breaches (o : PathOutcome) (budget : ℚ) : Bool := o.mdd.any fun d => decide (budget < d)

def PathOutcome.ruined (o : PathOutcome) (cfg : GrowthSizingConfig) : Bool := decide (o.final < cfg.ruinFraction)

structure RiskPoint where
  mddBreachProb : ℚ
  ruinProb : ℚ

/-- `np.mean` of a mask over the paths. -/
def meanOf (p : PathOutcome → Bool) (outcomes : List PathOutcome) : ℚ := outcomes.countP p / outcomes.length

def riskPointOf (cfg : GrowthSizingConfig) (outcomes : List PathOutcome) : RiskPoint where
  mddBreachProb := meanOf (·.breaches cfg.maxDrawdown) outcomes
  ruinProb := meanOf (·.ruined cfg) outcomes

/-- The body of the three loops: the outcome of every path at one scale. -/
def riskPoint (cfg : GrowthSizingConfig) (overlay : Bool) (paths : List (List ℚ)) (scale : ℚ) : RiskPoint :=
  riskPointOf cfg (paths.map fun path =>
    let scaled := path.map (· * scale)
    if overlay then (simulateWithOverlay drawdownRiskMultiplier scaled).outcome else vectorised scaled)

def RiskPoint.feasible (cfg : GrowthSizingConfig) (p : RiskPoint) : Bool :=
  decide (p.mddBreachProb ≤ cfg.maxDrawdownProb) && decide (p.ruinProb ≤ cfg.maxRuinProb)

/-- The loop of `scan_leverage_frontier`. -/
def scanLeverageFrontier (cfg : GrowthSizingConfig) (paths : List (List ℚ)) (multiples : List ℚ) :
    List (ℚ × RiskPoint × Bool) :=
  multiples.map fun m => (m, riskPoint cfg false paths m, (riskPoint cfg false paths m).feasible cfg)

/-- The loops of `solve_growth_optimal_risk` and, above the selected risk, of
`diagnose_growth_headroom`. -/
def scanRiskGrid (cfg : GrowthSizingConfig) (overlay : Bool) (paths : List (List ℚ)) (selected : Option ℚ) :
    List (ℚ × RiskPoint × Bool) :=
  (cfg.riskGrid.filter fun risk => selected.all (· < risk)).map fun risk =>
    let point := riskPoint cfg overlay paths (risk / cfg.referenceRisk)
    (risk, point, point.feasible cfg)

/-! ## The final equity -/

section Final

variable {equity : ℚ} {scaled : List ℚ}

theorem final_cumprod (equity : ℚ) (scaled : List ℚ) :
    (cumprod equity scaled).getLast?.getD equity = equity * (scaled.map (1 + ·)).prod := by
  induction scaled generalizing equity with
  | nil => simp [cumprod]
  | cons r rest ih =>
    rw [cumprod, getLast?_cons, Option.getD_some, ih, map_cons, prod_cons, mul_assoc]

theorem cumprod_wiped_iff (hequity : 0 < equity) :
    (∃ e ∈ cumprod equity scaled, e ≤ 0) ↔ ∃ r ∈ scaled, 1 + r ≤ 0 := by
  induction scaled generalizing equity with
  | nil => simp [cumprod]
  | cons r rest ih =>
    simp only [cumprod, mem_cons, exists_eq_or_imp]
    by_cases hr : 1 + r ≤ 0
    · simp [hr, mul_nonpos_of_nonneg_of_nonpos hequity.le hr]
    · have hpos : 0 < equity * (1 + r) := mul_pos hequity (not_le.mp hr)
      simp only [hr, not_le.mpr hpos, false_or, ih hpos]

end Final

/-! ## The drawdowns -/

section Drawdowns

variable {peak : ℚ} {equities : List ℚ}

def depthsFrom (peak : ℚ) : List ℚ → List ℚ
  | [] => []
  | e :: rest => (1 - e / max peak e) :: depthsFrom (max peak e) rest

def deepest (depths : List ℚ) : ℚ := depths.foldr max 0

theorem deepest_nonneg (depths : List ℚ) : 0 ≤ deepest depths := by
  induction depths with
  | nil => exact le_rfl
  | cons d rest ih => exact ih.trans (le_max_right d _)

theorem le_deepest {d : ℚ} {depths : List ℚ} (hd : d ∈ depths) : d ≤ deepest depths := by
  induction depths with
  | nil => cases hd
  | cons x rest ih =>
    rcases mem_cons.mp hd with rfl | hd
    · exact le_max_left d _
    · exact (ih hd).trans (le_max_right x _)

theorem deepest_append (l m : List ℚ) : deepest (l ++ m) = max (deepest l) (deepest m) := by
  induction l with
  | nil => exact (max_eq_right (deepest_nonneg m)).symm
  | cons x rest ih =>
    show max x (deepest (rest ++ m)) = _
    rw [ih, ← max_assoc]; rfl

theorem deepest_eq_or_mem (depths : List ℚ) : deepest depths = 0 ∨ deepest depths ∈ depths := by
  induction depths with
  | nil => exact .inl rfl
  | cons x rest ih =>
    rcases max_choice x (deepest rest) with h | h
    · exact .inr (by rw [deepest, foldr_cons, ← deepest, h]; exact mem_cons_self)
    · rw [deepest, foldr_cons, ← deepest, h]; exact ih.imp id (mem_cons_of_mem x)

theorem max?_eq_deepest {depths : List ℚ} {d : ℚ} (hd : d ∈ depths) (hnonneg : 0 ≤ d) :
    depths.max? = some (deepest depths) := by
  rw [max?_eq_some_iff]
  refine ⟨?_, fun b hb => le_deepest hb⟩
  rcases deepest_eq_or_mem depths with h | h
  · have hle := le_deepest hd
    rw [h] at hle ⊢; rwa [← le_antisymm hle hnonneg]
  · exact h

theorem mapM_drawdown (peak : ℚ) (equities : List ℚ) :
    (zipWith drawdown equities (accumulateMax peak equities)).mapM id =
      if 0 ∈ accumulateMax peak equities then none else some (depthsFrom peak equities) := by
  induction equities generalizing peak with
  | nil => rfl
  | cons e rest ih =>
    rw [accumulateMax, zipWith_cons_cons, mapM_cons, ih, drawdown]
    by_cases hzero : max peak e = 0
    · simp [hzero]
    · by_cases hrest : 0 ∈ accumulateMax (max peak e) rest <;> simp [hzero, hrest, depthsFrom, Ne.symm hzero]

def opening (equities : List ℚ) : List ℚ := equities.takeWhile fun e => decide (e < 1)

def afterOpening (equities : List ℚ) : List ℚ := equities.dropWhile fun e => decide (e < 1)

theorem depthsFrom_split (hpeak : peak ≤ 1) (equities : List ℚ) :
    depthsFrom peak equities = depthsFrom peak (opening equities) ++ depthsFrom 1 (afterOpening equities) := by
  induction equities generalizing peak with
  | nil => rfl
  | cons e rest ih =>
    by_cases he : e < 1
    · rw [opening, afterOpening, takeWhile_cons_of_pos (by simpa using he),
        dropWhile_cons_of_pos (by simpa using he),
        depthsFrom, ih (max_le hpeak he.le)]
      rfl
    · have hle : 1 ≤ e := not_lt.mp he
      rw [opening, afterOpening, takeWhile_cons_of_neg (by simpa using he),
        dropWhile_cons_of_neg (by simpa using he)]
      simp only [depthsFrom, nil_append, max_eq_right hle, max_eq_right (hpeak.trans hle)]

theorem depthsFrom_opening (equities : List ℚ) :
    depthsFrom 1 (opening equities) = (opening equities).map (1 - ·) := by
  have hbelow : ∀ e ∈ opening equities, e < 1 := fun e he => by
    simpa using all_eq_true.mp all_takeWhile e he
  generalize opening equities = below at hbelow ⊢
  induction below with
  | nil => rfl
  | cons e rest ih =>
    have he : max 1 e = 1 := max_eq_left (hbelow e mem_cons_self).le
    rw [depthsFrom, map_cons, he, div_one, ih fun x hx => hbelow x (mem_cons_of_mem e hx)]

theorem foldl_overlayBar (equity peak mdd : ℚ) (hmdd : 0 ≤ mdd) (scaled : List ℚ) :
    let s := scaled.foldl (overlayBar fun _ => 1) ⟨equity, peak, mdd⟩
    s.equity = equity * (scaled.map (1 + ·)).prod ∧
      s.mdd = max mdd (deepest (depthsFrom peak (cumprod equity scaled))) := by
  induction scaled generalizing equity peak mdd with
  | nil => exact ⟨(mul_one equity).symm, (max_eq_left hmdd).symm⟩
  | cons r rest ih =>
    obtain ⟨hequity, hdepth⟩ := ih (equity * (1 + r)) (max peak (equity * (1 + r)))
      (max mdd (1 - equity * (1 + r) / max peak (equity * (1 + r)))) (hmdd.trans (le_max_left _ _))
    simp only [foldl_cons, overlayBar, mul_one] at hequity hdepth ⊢
    refine ⟨by rw [hequity, map_cons, prod_cons, mul_assoc], ?_⟩
    rw [hdepth, max_assoc]; rfl

theorem one_le_deepest (hpeak : 0 < peak) {e : ℚ} (he : e ∈ equities) (hwiped : e ≤ 0) :
    1 ≤ deepest (depthsFrom peak equities) := by
  induction equities generalizing peak with
  | nil => cases he
  | cons x rest ih =>
    have hpos : 0 < max peak x := lt_max_of_lt_left hpeak
    rcases mem_cons.mp he with rfl | he
    · have hquot : e / max peak e ≤ 0 := div_nonpos_of_nonpos_of_nonneg hwiped hpos.le
      exact le_trans (by linarith) (le_max_left (1 - e / max peak e) _)
    · exact (ih hpos he).trans (le_max_right _ _)

end Drawdowns

/-! ## When the simulations agree -/

/-- **No opening loss is missed.**  No running maximum of the bars is zero, and the deepest drawdown
before the equity is back at its start is as deep from its own peak as from the start, or some later
drawdown is as deep as both. -/
def OpeningCovered (equities : List ℚ) : Prop :=
  let first := equities.headD 1
  let own := deepest (depthsFrom first (opening equities))
  let start := deepest ((opening equities).map (1 - ·))
  let later := deepest (depthsFrom 1 (afterOpening equities))
  0 ∉ accumulateMax first equities ∧ (own = start ∨ own ≤ later ∧ start ≤ later)

/-- A path that reaches zero or below is counted as ruined, and as breaching every budget below one.
-/
def RuinAbsorbing (cfg : GrowthSizingConfig) (scaled : List ℚ) : Prop :=
  (∃ e ∈ cumprod 1 scaled, e ≤ 0) →
    (vectorised scaled).ruined cfg = true ∧ ∀ budget < 1, (vectorised scaled).breaches budget = true

def growthProduct (scaled : List ℚ) : ℚ := (scaled.map (1 + ·)).prod

section Agreement

variable {scaled : List ℚ}

theorem vectorised_final (scaled : List ℚ) : (vectorised scaled).final = growthProduct scaled := by
  exact (final_cumprod 1 scaled).trans (one_mul _)

theorem simulate_final (scaled : List ℚ) : (simulateWithOverlay (fun _ => 1) scaled).equity =
    growthProduct scaled :=
  (foldl_overlayBar 1 1 0 le_rfl scaled).1.trans (one_mul _)

theorem simulate_mdd (scaled : List ℚ) :
    (simulateWithOverlay (fun _ => 1) scaled).mdd = deepest (depthsFrom 1 (cumprod 1 scaled)) :=
  (foldl_overlayBar 1 1 0 le_rfl scaled).2.trans (max_eq_right (deepest_nonneg _))

theorem max_eq_max_iff {a b c : ℚ} : max a c = max b c ↔ a = b ∨ a ≤ c ∧ b ≤ c := by
  grind

theorem vectorised_mdd (hscaled : scaled ≠ []) :
    (vectorised scaled).mdd = some (deepest (depthsFrom 1 (cumprod 1 scaled))) ↔
    OpeningCovered (cumprod 1 scaled) := by
  obtain ⟨first, rest, hcum⟩ : ∃ first rest, cumprod 1 scaled = first :: rest := by
    cases scaled with
    | nil => exact absurd rfl hscaled
    | cons r scaled => exact ⟨_, _, rfl⟩
  simp only [vectorised, hcum, mapM_drawdown, OpeningCovered, headD_cons]
  by_cases hzero : 0 ∈ accumulateMax first (first :: rest)
  · simp [hzero]
  rw [if_neg hzero, Option.bind_some]
  have hfirst : first ≠ 0 := fun h => hzero (by simp [accumulateMax, h])
  have hhead : (0 : ℚ) ∈ depthsFrom first (first :: rest) := by
    rw [depthsFrom, max_self, div_self hfirst, sub_self]; exact mem_cons_self
  rw [max?_eq_deepest hhead le_rfl, Option.some.injEq, depthsFrom_split le_rfl, depthsFrom_opening, deepest_append]
  by_cases hbelow : first < 1
  · rw [depthsFrom_split hbelow.le, deepest_append, max_eq_max_iff]; simp [hzero]
  · -- a first bar at or above the start leaves no opening
    have hopening : opening (first :: rest) = [] := by rw [opening, takeWhile_cons_of_neg (by simpa using hbelow)]
    have hafter : afterOpening (first :: rest) = first :: rest := by
      rw [afterOpening, dropWhile_cons_of_neg (by simpa using hbelow)]
    have hsame : depthsFrom first (first :: rest) = depthsFrom 1 (first :: rest) := by
      rw [depthsFrom, depthsFrom, max_self, max_eq_right (not_lt.mp hbelow)]
    rw [hopening, hafter, hsame]
    have hnil : deepest [] = 0 := rfl; simp [hzero, depthsFrom, hnil, deepest_nonneg]

theorem outcome_eq_iff (hscaled : scaled ≠ []) :
    vectorised scaled = (simulateWithOverlay (fun _ => 1) scaled).outcome ↔ OpeningCovered (cumprod 1 scaled) := by
  rw [← vectorised_mdd hscaled, ← simulate_mdd]
  constructor
  · intro h
    rw [h]; rfl
  · intro h
    have hfinal := (vectorised_final scaled).trans (simulate_final scaled).symm
    cases hv : vectorised scaled with
    | mk final mdd =>
      rw [hv] at h hfinal
      simp only at h hfinal
      rw [h, hfinal]; rfl

theorem ruinAbsorbing_iff (cfg : GrowthSizingConfig) (hscaled : scaled ≠ [])
    (hcovered : OpeningCovered (cumprod 1 scaled)) :
    RuinAbsorbing cfg scaled ↔ ((∃ r ∈ scaled, 1 + r ≤ 0) → growthProduct scaled < cfg.ruinFraction) := by
  rw [← cumprod_wiped_iff one_pos]
  refine forall_congr' fun hwiped => ?_
  obtain ⟨e, he, hle⟩ := hwiped
  have hbreach : ∀ budget < 1, (vectorised scaled).breaches budget = true := by
    intro budget hbudget
    rw [PathOutcome.breaches, (vectorised_mdd hscaled).mpr hcovered]
    exact decide_eq_true (hbudget.trans_le (one_le_deepest one_pos he hle))
  rw [PathOutcome.ruined, vectorised_final, decide_eq_true_eq, and_iff_left hbreach]

section

variable {paths : List (List ℚ)} (hbars : ∀ path ∈ paths, path ≠ [])

include hbars

variable {cfg : GrowthSizingConfig}

theorem riskPoint_of_covered {scale : ℚ}
    (hcovered : ∀ path ∈ paths, OpeningCovered (cumprod 1 (path.map (· * scale)))) :
    riskPoint cfg false paths scale = riskPointOf cfg (paths.map fun path =>
      (simulateWithOverlay (fun _ => 1) (path.map (· * scale))).outcome) := by
  rw [riskPoint]
  congr 1
  refine map_congr_left fun path hpath => ?_
  exact (outcome_eq_iff fun h => hbars path hpath (map_eq_nil_iff.mp h)).mpr (hcovered path hpath)

/-- A frontier without an overlay is that of the recursion where no multiple misses an opening loss.
-/
theorem scanLeverageFrontier_eq {multiples : List ℚ}
    (hcovered : ∀ m ∈ multiples, ∀ path ∈ paths, OpeningCovered (cumprod 1 (path.map (· * m)))) :
    scanLeverageFrontier cfg paths multiples = multiples.map fun m =>
      let point := riskPointOf cfg (paths.map fun path =>
        (simulateWithOverlay (fun _ => 1) (path.map (· * m))).outcome)
      (m, point, point.feasible cfg) :=
  map_congr_left fun m hm => by rw [riskPoint_of_covered hbars (hcovered m hm)]

end

/-- **When the two simulations agree and ruin is absorbing**: exactly when on each path no opening
loss is missed, and one that loses everything in some bar ends below the ruin fraction. -/
theorem simulations_agree_iff (cfg : GrowthSizingConfig) {paths : List (List ℚ)} (scale : ℚ)
    (hbars : ∀ path ∈ paths, path ≠ []) :
    let matrix := paths.map fun path => path.map (· * scale)
    ((∀ scaled ∈ matrix, vectorised scaled = (simulateWithOverlay (fun _ => 1) scaled).outcome ∧
          RuinAbsorbing cfg scaled) ↔
        ∀ scaled ∈ matrix, OpeningCovered (cumprod 1 scaled) ∧
          ((∃ r ∈ scaled, 1 + r ≤ 0) → growthProduct scaled < cfg.ruinFraction)) ∧
      ((∀ scaled ∈ matrix, OpeningCovered (cumprod 1 scaled)) →
        riskPoint cfg false paths scale =
          riskPointOf cfg (matrix.map fun scaled => (simulateWithOverlay (fun _ => 1) scaled).outcome)) := by
  intro matrix
  have hnonempty : ∀ scaled ∈ matrix, scaled ≠ [] := by
    intro scaled hscaled
    obtain ⟨path, hpath, rfl⟩ := mem_map.mp hscaled
    exact fun h => hbars path hpath (map_eq_nil_iff.mp h)
  constructor
  · refine forall₂_congr fun scaled hscaled => ?_
    rw [outcome_eq_iff (hnonempty scaled hscaled)]
    exact and_congr_right fun hcovered => ruinAbsorbing_iff cfg (hnonempty scaled hscaled) hcovered
  · intro hcovered
    rw [riskPoint_of_covered hbars fun path hpath => hcovered _ (mem_map_of_mem hpath), map_map]; rfl

end Agreement

def defaultConfig : GrowthSizingConfig := ⟨[1 / 200], 1 / 200, 1 / 5, 1 / 20, 1 / 2, 1 / 1000⟩

/-- A path that loses half in its first bar shows no drawdown; one that loses twice its equity twice
ends where it began and is not ruined. -/
theorem opening_losses_missed :
    vectorised [-1 / 2, 0] ≠ (simulateWithOverlay (fun _ => 1) [-1 / 2, 0]).outcome ∧
      ¬ RuinAbsorbing defaultConfig [-2, -2] := by
  refine ⟨by decide +kernel, fun h => ?_⟩
  have hruined := (h ⟨-1, by decide +kernel, by decide⟩).1
  revert hruined
  decide +kernel

/-- A gain with a loss after it, and a path that loses all it had won. -/
theorem simulations_agree_wiped :
    (vectorised [1 / 5, -1, 1 / 10]).final = 0 ∧
      ∀ scaled ∈ [[1 / 20, -1 / 4, 1 / 10], [1 / 10, -1 / 2, 1 / 20]].map fun path => path.map (· * 2),
        vectorised scaled = (simulateWithOverlay (fun _ => 1) scaled).outcome ∧
          RuinAbsorbing defaultConfig scaled := by
  refine ⟨by decide +kernel, (simulations_agree_iff defaultConfig 2 (by simp)).1.mpr fun scaled hscaled => ?_⟩
  simp only [map_cons, map_nil, mem_cons, not_mem_nil, or_false] at hscaled
  obtain rfl | rfl := hscaled
  all_goals exact ⟨by unfold OpeningCovered; decide +kernel, by decide +kernel⟩

/-! ## The overlay as a brake -/

section Brake

variable {x : ℚ} {s : OverlayState}

/-- What bounds the drawdown where no bar loses more than `x`. -/
def brakeBound (x : ℚ) : ℚ := max (1 / 5) (1 / 20 + 19 / 20 * x)

theorem brakeBound_le_one (hx : x ≤ 1) : brakeBound x ≤ 1 := max_le (by norm_num) (by linarith)

/-- **One bar on the ladder.**  Each of its pieces makes the drawdown after the bar convex in the
one before. -/
theorem ladder_brakes {d : ℚ} (hx : 0 ≤ x ∧ x ≤ 1) (hle : d ≤ brakeBound x) :
    0 ≤ drawdownRiskMultiplier d ∧ drawdownRiskMultiplier d ≤ 1 ∧
      1 - (1 - d) * (1 - x * drawdownRiskMultiplier d) ≤ brakeBound x := by
  obtain ⟨hx0, hx1⟩ := hx
  have hstop : 1 / 5 ≤ brakeBound x := le_max_left _ _
  have hfirst : 1 / 20 + 19 / 20 * x ≤ brakeBound x := le_max_right _ _
  unfold drawdownRiskMultiplier
  split_ifs with hfull htaper hlast
  · exact ⟨by norm_num, le_rfl, by nlinarith⟩
  · refine ⟨by linarith, by linarith, ?_⟩
    have hlow : 0 ≤ d - 1 / 20 := by linarith
    have hhigh : 0 ≤ 3 / 20 - d := by linarith
    nlinarith [mul_nonneg hx0 (mul_nonneg hlow hhigh), mul_nonneg hhigh (sub_nonneg.mpr hfirst),
      mul_nonneg hlow (show 0 ≤ brakeBound x - (3 / 20 + 17 / 80 * x) by linarith)]
  · refine ⟨by linarith, by linarith, ?_⟩
    have hlow : 0 ≤ d - 3 / 20 := by linarith
    have hhigh : 0 ≤ 1 / 5 - d := by linarith
    nlinarith [mul_nonneg hx0 (mul_nonneg hlow hhigh), mul_nonneg hlow (sub_nonneg.mpr hstop),
      mul_nonneg hhigh (show 0 ≤ brakeBound x - (3 / 20 + 17 / 80 * x) by linarith)]
  · refine ⟨le_rfl, by norm_num, ?_⟩
    rwa [mul_zero, sub_zero, mul_one, sub_sub_cancel]

/-- Behind a bar: the equity is what the drawdown on record leaves of the peak, or more. -/
structure Braked (x : ℚ) (s : OverlayState) : Prop where
  peak : 1 ≤ s.peak
  equity : s.peak * (1 - s.mdd) ≤ s.equity
  mdd : 0 ≤ s.mdd ∧ s.mdd ≤ brakeBound x

theorem Braked.bar (hx : 0 ≤ x ∧ x ≤ 1) (h : Braked x s) {r : ℚ} (hr : -x ≤ r) :
    Braked x (overlayBar drawdownRiskMultiplier s r) := by
  obtain ⟨hm, hm1, hbrake⟩ := ladder_brakes hx h.mdd.2
  have hmdd : s.mdd ≤ 1 := h.mdd.2.trans (brakeBound_le_one hx.2)
  rw [overlayBar]
  generalize drawdownRiskMultiplier s.mdd = m at *
  generalize hequity : s.equity * (1 + r * m) = e
  have hpeak : 0 < max s.peak e := lt_max_of_lt_left (by linarith [h.peak])
  have hkept : 0 ≤ 1 - x * m := by nlinarith [hx.1, hx.2]
  have hloss : s.peak * (1 - s.mdd) * (1 - x * m) ≤ e := by
    rw [← hequity]
    exact mul_le_mul h.equity (by nlinarith) hkept
      ((mul_nonneg (by linarith [h.peak]) (by linarith)).trans h.equity)
  refine ⟨h.peak.trans (le_max_left _ _), ?_, h.mdd.1.trans (le_max_left _ _), max_le h.mdd.2 ?_⟩
  · have : 1 - max s.mdd (1 - e / max s.peak e) ≤ e / max s.peak e := by
      linarith [le_max_right s.mdd (1 - e / max s.peak e)]
    exact (le_div_iff₀' hpeak).mp this
  · refine le_trans ?_ hbrake
    rw [sub_le_sub_iff_left, le_div_iff₀ hpeak]
    rcases max_cases s.peak e with ⟨hmax, -⟩ | ⟨hmax, -⟩ <;> rw [hmax]
    · linarith
    · have he : 0 ≤ e := by linarith
      exact mul_le_of_le_one_left he (mul_le_one₀ (by linarith [h.mdd.1]) hkept (by nlinarith [hx.1]))

theorem foldl_braked (hx : 0 ≤ x ∧ x ≤ 1) (h : Braked x s) {scaled : List ℚ} (hscaled : ∀ r ∈ scaled, -x ≤ r) :
    Braked x (scaled.foldl (overlayBar drawdownRiskMultiplier) s) := by
  induction scaled generalizing s with
  | nil => exact h
  | cons r rest ih =>
    obtain ⟨hr, hrest⟩ := forall_mem_cons.mp hscaled; exact ih (h.bar hx hr) hrest

end Brake

variable {cfg : GrowthSizingConfig} {paths : List (List ℚ)}

theorem riskPoint_braked {x : ℚ} (hx : 0 ≤ x ∧ x ≤ 1) {scale : ℚ}
    (hpaths : ∀ path ∈ paths, ∀ r ∈ path, -x ≤ r * scale)
    (hbudget : brakeBound x ≤ cfg.maxDrawdown ∧ brakeBound x ≤ 1 - cfg.ruinFraction) :
    riskPoint cfg true paths scale = ⟨0, 0⟩ := by
  have hnone {p : PathOutcome → Bool} (hp : ∀ s, Braked x s → ¬p s.outcome) :
      meanOf p (paths.map fun path => (simulateWithOverlay drawdownRiskMultiplier
        (path.map (· * scale))).outcome) = 0 := by
    rw [meanOf, countP_eq_zero.mpr, Nat.cast_zero, zero_div]
    exact forall_mem_map.mpr fun path hpath => hp _ (foldl_braked hx
      ⟨le_rfl, by norm_num, le_rfl, le_max_of_le_left (by norm_num)⟩ (forall_mem_map.mpr (hpaths path hpath)))
  rw [riskPoint, riskPointOf]
  congr 1
  · exact hnone fun s h => by simpa [PathOutcome.breaches, OverlayState.outcome] using h.mdd.2.trans hbudget.1
  · refine hnone fun s h hruined => ?_
    have hkept : 1 - s.mdd ≤ s.peak * (1 - s.mdd) :=
      le_mul_of_one_le_left (sub_nonneg.mpr (h.mdd.2.trans (brakeBound_le_one hx.2))) h.peak
    have hfinal : s.equity < cfg.ruinFraction := of_decide_eq_true hruined
    linarith [h.equity, h.mdd.2, hbudget.2]

/-- **The overlay keeps a scale feasible.**  Where no scaled bar loses more than `x`, no path draws
down by more than 20%, or by 5% and `x` of the rest; both probabilities are zero for budgets beyond
that. -/
theorem riskPoint_overlay_feasible {cfg : GrowthSizingConfig} {x : ℚ} (hx : 0 ≤ x ∧ x ≤ 1) {paths : List (List ℚ)}
    {scale : ℚ} (hpaths : ∀ path ∈ paths, ∀ r ∈ path, -x ≤ r * scale)
    (hbudget : brakeBound x ≤ cfg.maxDrawdown ∧ brakeBound x ≤ 1 - cfg.ruinFraction)
    (hprob : 0 ≤ cfg.maxDrawdownProb ∧ 0 ≤ cfg.maxRuinProb) :
    riskPoint cfg true paths scale = ⟨0, 0⟩ ∧ (riskPoint cfg true paths scale).feasible cfg := by
  have hzero := riskPoint_braked hx hpaths hbudget
  exact ⟨hzero, by simp [hzero, RiskPoint.feasible, hprob]⟩

/-- At twice the bootstrapped returns no bar loses more than 3/19, and no path draws down by more
than 20%. -/
theorem riskPoint_overlay_feasible_default :
    riskPoint defaultConfig true [[-3 / 38, 1 / 10], [-1 / 19]] 2 = ⟨0, 0⟩ ∧
      (riskPoint defaultConfig true [[-3 / 38, 1 / 10], [-1 / 19]] 2).feasible defaultConfig :=
  @riskPoint_overlay_feasible _ (3 / 19) (by norm_num) _ _ (by norm_num)
    (by simp [brakeBound, defaultConfig]; norm_num) (by simp [defaultConfig])

/-- Every risk that the overlay scan visits is feasible where no bar loses more than `x` at it. -/
theorem scanRiskGrid_feasible {x : ℚ} (hx : 0 ≤ x ∧ x ≤ 1) {selected : Option ℚ}
    (hpaths : ∀ risk ∈ cfg.riskGrid, ∀ path ∈ paths, ∀ r ∈ path,
      -x ≤ r * (risk / cfg.referenceRisk))
    (hbudget : brakeBound x ≤ cfg.maxDrawdown ∧ brakeBound x ≤ 1 - cfg.ruinFraction)
    (hprob : 0 ≤ cfg.maxDrawdownProb ∧ 0 ≤ cfg.maxRuinProb) :
    ∀ entry ∈ scanRiskGrid cfg true paths selected, entry.2 = (⟨0, 0⟩, true) := by
  intro entry hentry
  obtain ⟨risk, hrisk, rfl⟩ := mem_map.mp hentry
  have hpoint := riskPoint_braked hx (hpaths risk (mem_filter.mp hrisk).1) hbudget
  simp [hpoint, RiskPoint.feasible, hprob]

end CryptoPilot.Strategy
