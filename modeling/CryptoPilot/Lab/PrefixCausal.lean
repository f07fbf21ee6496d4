/- # PrefixCausal — process targets do not look ahead.

Two markets on the same grids that agree up to a decision label give the same targets, exposures and
policy choices up to that label (`process_targets_prefix_causal`). -/
import CryptoPilot.Lab.ProcessPaths

namespace CryptoPilot.Lab

open CryptoPilot.Lib List
open CryptoPilot.Lib.Series (AgreeTo)
open FloatArith

variable {V : Type} [FloatArith V] {n m : ℕ}

/-! ## §1 Refits -/

section Refits

variable {num : ProcessNumerics V m} {labels labels' : MaturedMemberReturns V m} {d : ℤ}

/-- The labels of two markets agree up to an instant, and become available in order. -/
structure LabelsShared (d : ℤ) (labels labels' : MaturedMemberReturns V m) : Prop where
  agree : LabelsAgree d labels labels'
  sorted : labels.rows.Pairwise fun r r' => r.availableAt < r'.availableAt
  sorted' : labels'.rows.Pairwise fun r r' => r.availableAt < r'.availableAt

variable {trainStart : Option ℤ} {point : RefitPoint} {fit fit' : WindowedFit V m} {window : TrainingWindowSpec}
  {choice : Option (RefitPolicyChoice V)} {r r' : Refit V m}

theorem mem_of_select {cutoff : ℤ} {train : List (MemberLabel V m)}
    (h : selectMaturedTrainingReturns labels cutoff trainStart = .ok train) :
    ∀ r ∈ train, r ∈ labels.rows ∧ r.common = true ∧ r.availableAt ≤ cutoff := by
  obtain ⟨_, -, h⟩ := bind_eq_ok.mp h
  split at h
  next => cases h
  next =>
    cases h
    intro r hr
    obtain ⟨hmem, hr⟩ := mem_filter.mp hr
    simp only [Bool.and_eq_true] at hr; exact ⟨hmem, hr.1.1, timely_available hr.1.2⟩

theorem estimatedWeights_agree
    (h : estimatedWeights num labels point trainStart = .ok fit)
    (h' : estimatedWeights num labels' point trainStart = .ok fit')
    (hlabels : LabelsShared d labels labels') (hcutoff : point.trainEnd ≤ d) : fit = fit' := by
  unfold estimatedWeights at h h'
  rw [bind_eq_ok] at h h'
  obtain ⟨train, htrain, h⟩ := h
  obtain ⟨train', htrain', h'⟩ := h'
  obtain rfl := selectMaturedTrainingReturns_agree htrain htrain' hlabels.agree hcutoff
  by_cases hlength : train.length < processMinTrainDays
  · rw [if_pos (.inr hlength)] at h h'; cases h; cases h'; rfl
  · -- the span matters only where there are labels to fit on
    have hspan : spanOk labels trainStart = spanOk labels' trainStart := by
      obtain ⟨r, hr⟩ := exists_mem_of_length_pos (lt_of_lt_of_le (by decide) (not_lt.mp hlength))
      obtain ⟨hmem, hcommon, hle⟩ := mem_of_select htrain r hr
      unfold spanOk
      rw [find?_common_agree hlabels.sorted hlabels.sorted' hlabels.agree ⟨r, hmem, hcommon, hle.trans hcutoff⟩]
    rw [hspan, h'] at h; cases h; rfl

theorem windowedWeights_agree
    (h : windowedWeights num labels point window = .ok fit)
    (h' : windowedWeights num labels' point window = .ok fit')
    (hlabels : LabelsShared d labels labels') (hcutoff : point.trainEnd ≤ d) : fit = fit' := by
  unfold windowedWeights at h h'
  cases hkind : window.kind with
  | equalMember =>
    rw [hkind] at h h'
    rw [bind_eq_ok] at h h'
    obtain ⟨train, htrain, h⟩ := h
    obtain ⟨train', htrain', h'⟩ := h'
    obtain rfl := selectMaturedTrainingReturns_agree htrain htrain' hlabels.agree hcutoff
    cases h; cases h'; rfl
  | expanding | rolling months =>
    rw [hkind] at h h'; exact estimatedWeights_agree h h' hlabels hcutoff

theorem bareRefit_agree
    (h : bareRefit num labels point choice = .ok r) (h' : bareRefit num labels' point choice = .ok r')
    (hlabels : LabelsShared d labels labels') (hcutoff : point.trainEnd ≤ d) : r = r' := by
  unfold bareRefit at h h'
  rw [bind_eq_ok] at h h'
  obtain ⟨train, htrain, h⟩ := h
  obtain ⟨train', htrain', h'⟩ := h'
  obtain rfl := selectMaturedTrainingReturns_agree htrain htrain' hlabels.agree hcutoff
  rw [h] at h'; cases h'; rfl

theorem windowRefit_agree (h : windowRefit num labels point window choice = .ok r)
    (h' : windowRefit num labels' point window choice = .ok r') (hlabels : LabelsShared d labels labels')
    (hcutoff : point.trainEnd ≤ d) : r = r' := by
  unfold windowRefit at h h'
  rw [bind_eq_ok] at h h'
  obtain ⟨fit, hfit, h⟩ := h
  obtain ⟨fit', hfit', h'⟩ := h'
  obtain rfl := windowedWeights_agree hfit hfit' hlabels hcutoff; cases h; cases h'; rfl

inductive ModesAgree (d : ℤ) : FitMode V → FitMode V → Prop where
  | bare : ModesAgree d .bare .bare
  | window (w : TrainingWindowSpec) : ModesAgree d (.window w) (.window w)
  | nested (spec : NestedSelectionSpec V) {evidence evidence' : List (String × InnerPolicyEvidence V)}
      (pools : PoolsAgree d evidence evidence') : ModesAgree d (.nested spec evidence) (.nested spec evidence')

theorem refitAt_agree {mode mode' : FitMode V}
    (h : refitAt num labels mode point = .ok r) (h' : refitAt num labels' mode' point = .ok r')
    (hmodes : ModesAgree d mode mode') (hlabels : LabelsShared d labels labels')
    (hcutoff : point.trainEnd ≤ d) : r = r' := by
  cases hmodes with
  | bare => exact bareRefit_agree h h' hlabels hcutoff
  | window w => exact windowRefit_agree h h' hlabels hcutoff
  | nested spec pools =>
    unfold refitAt at h h'
    rw [bind_eq_ok] at h h'
    obtain ⟨choice, hchoice, h⟩ := h
    obtain ⟨choice', hchoice', h'⟩ := h'
    obtain rfl := chooseRefitPolicy_agree hchoice hchoice' pools hcutoff
    split at h
    next hid =>
      rw [hid] at h'; cases h; cases h'; rfl
    next id hid =>
      rw [hid] at h'
      dsimp only at h'
      split at h
      next w hw =>
        rw [hw] at h'; exact windowRefit_agree h h' hlabels hcutoff
      next hw =>
        rw [hw] at h'; exact bareRefit_agree h h' hlabels hcutoff

theorem refitAt_point {mode : FitMode V} {r : Refit V m} (h : refitAt num labels mode point = .ok r) :
    r.point = point ∧ ∀ choice ∈ r.choice, choice.point = point := by
  have hbare : ∀ {choice : Option (RefitPolicyChoice V)} {r : Refit V m},
    bareRefit num labels point choice = .ok r →
      r.point = point ∧ r.choice = choice := fun {choice r} h => by
    obtain ⟨train, -, h⟩ := bind_eq_ok.mp h
    split at h
    next => cases h; exact ⟨rfl, rfl⟩
    next =>
      obtain ⟨_, -, h⟩ := bind_eq_ok.mp h; cases h; exact ⟨rfl, rfl⟩
  have hwindow : ∀ {w : TrainingWindowSpec} {choice : Option (RefitPolicyChoice V)} {r : Refit V m},
      windowRefit num labels point w choice = .ok r → r.point = point ∧ r.choice = choice :=
        fun {w choice r} h => by
    obtain ⟨_, -, h⟩ := bind_eq_ok.mp h; cases h; exact ⟨rfl, rfl⟩
  cases mode with
  | bare =>
    obtain ⟨hpoint, hchoice⟩ := hbare h
    exact ⟨hpoint, fun choice hmem => by rw [hchoice] at hmem; cases hmem⟩
  | window w =>
    obtain ⟨hpoint, hchoice⟩ := hwindow h
    exact ⟨hpoint, fun choice hmem => by rw [hchoice] at hmem; cases hmem⟩
  | nested spec evidence =>
    obtain ⟨chosen, hchosen, h⟩ := bind_eq_ok.mp h
    have hof : chosen.point = point := chooseRefitPolicy_point hchosen
    have hsome : ∀ {r : Refit V m}, r.point = point ∧ r.choice = some chosen →
        r.point = point ∧ ∀ choice ∈ r.choice, choice.point = point := fun {r} h => by
      refine ⟨h.1, fun choice hmem => ?_⟩
      rw [h.2, Option.mem_some_iff] at hmem; exact hmem ▸ hof
    split at h
    next => cases h; exact hsome ⟨rfl, rfl⟩
    next =>
      split at h
      next => exact hsome (hwindow h)
      next => exact hsome (hbare h)

end Refits

/-! ## §2 One run -/

/-- Two markets that agree up to a decision label, books and masks on the decision grid. -/
structure SharedMarket (d lag : ℤ) (data data' : ProcessMarketData V n m) : Prop where
  grids : SameGrids data data'
  agree : MarketsAgree d lag data data'
  lag_nonneg : 0 ≤ lag
  label : d ∈ data.decisionGrid
  books : ∀ k, (data.memberBooks k).index = data.decisionGrid
  books' : ∀ k, (data'.memberBooks k).index = data'.decisionGrid
  mask : data.executionMask.index = data.decisionGrid
  mask' : data'.executionMask.index = data'.decisionGrid

/-- Two refits have the same interval, and are the same if it begins by the label. -/
def RefitsAgree (d : ℤ) (r r' : Refit V m) : Prop := r.point = r'.point ∧ (r.point.effectiveFrom ≤ d → r = r')

structure PathsAgree (d : ℤ) (path path' : ProcessPath V n m) : Prop where
  unitTargetWeights : AgreeTo d path.unitTargetWeights path'.unitTargetWeights
  exposure : AgreeTo d path.exposure path'.exposure
  targetWeights : AgreeTo d path.targetWeights path'.targetWeights
  policyChoices : path.policyChoices.filter (fun c => decide (c.point.effectiveFrom ≤ d))
    = path'.policyChoices.filter (fun c => decide (c.point.effectiveFrom ≤ d))

section Run

variable {num : ProcessNumerics V m} {data data' : ProcessMarketData V n m} {controls : PathControls V}
  {labels labels' : MaturedMemberReturns V m} {clock : ProcessClockSpec} {d lag : ℤ}

theorem refitTarget_agree (h : SharedMarket d lag data data') {r r' : Refit V m} (hr : RefitsAgree d r r') :
    AgreeTo d (refitTarget data r.point r.weights) (refitTarget data' r'.point r'.weights) := by
  obtain ⟨hpoint, hsame⟩ := hr
  by_cases hfrom : r.point.effectiveFrom ≤ d
  · obtain rfl := hsame hfrom
    refine AgreeTo.mapRows ((h.agree.memberBooks 0).filter _) fun t first _ hle => ?_
    have hrow : ∀ k, (data.memberBooks k).row? t = (data'.memberBooks k).row? t :=
      fun k => (h.agree.memberBooks k).row? hle
    simp only [hrow]
  · -- the whole interval is after the label
    have hnil : ∀ (data : ProcessMarketData V n m) (weights : Fin (m + 1) → V),
        (refitTarget data r.point weights).cut d = [] := fun data weights => by
      refine filter_eq_nil_iff.mpr fun p hp => ?_
      obtain ⟨q, hq, rfl⟩ := mem_map.mp hp
      obtain ⟨-, hq⟩ := mem_filter.mp hq
      rw [decide_eq_true_eq] at hq ⊢; omega
    unfold Series.AgreeTo
    rw [hnil, ← hpoint, hnil]

variable {refits refits' : List (Refit V m)} {days : List ℤ} {unit unit' : Series (Row V n)}
  {schedule : List RefitPoint} {tiers : List V} {paths : List (ProcessPath V n m)}

theorem flatMap_refitTarget_agree (h : SharedMarket d lag data data')
    (hrefits : List.Forall₂ (RefitsAgree d) refits refits') :
    AgreeTo d (refits.flatMap fun r => refitTarget data r.point r.weights)
      (refits'.flatMap fun r => refitTarget data' r.point r.weights) := by
  induction hrefits with
  | nil => exact AgreeTo.refl d _
  | cons hr _ ih =>
    exact (refitTarget_agree h hr).append ih

variable {refits : List (Refit V m)}

theorem unitTargets_index {unit : Series (Row V n)}
    (h : unitTargets num data controls days refits = .ok unit) :
    unit.index = days ∧ unit.Sorted := by
  obtain ⟨smoothed, hsmoothed, h⟩ := bind_eq_ok.mp h
  obtain ⟨adopted, hadopted, h⟩ := bind_eq_ok.mp h
  obtain ⟨hindex, hdays⟩ := smoothedBookPath_index hsmoothed
  obtain ⟨hadopt, hsorted⟩ := applyProcessExecutionPolicy_index hadopted
  obtain ⟨hmask, -⟩ := applyProcessExecutionAvailability_index h
  refine ⟨by rw [hmask, hadopt, hindex, hdays], ?_⟩
  rw [Series.Sorted, hmask, hadopt]; exact hsorted

theorem unitTargets_agree (h : SharedMarket d lag data data')
    (hunit : unitTargets num data controls days refits = .ok unit)
    (hunit' : unitTargets num data' controls days refits' = .ok unit')
    (hrefits : List.Forall₂ (RefitsAgree d) refits refits') : AgreeTo d unit unit' := by
  unfold unitTargets at hunit hunit'
  rw [bind_eq_ok] at hunit hunit'
  obtain ⟨smoothed, hsmoothed, hunit⟩ := hunit
  obtain ⟨smoothed', hsmoothed', hunit'⟩ := hunit'
  rw [bind_eq_ok] at hunit hunit'
  obtain ⟨adopted, hadopted, hunit⟩ := hunit
  obtain ⟨adopted', hadopted', hunit'⟩ := hunit'
  have hsorted : ∀ {refits : List (Refit V m)} {data : ProcessMarketData V n m}
    {smoothed adopted : Series (Row V n)},
      smoothedBookPath num.smoothingRate days (refits.flatMap fun r =>
        refitTarget data r.point r.weights) = .ok smoothed →
      applyProcessExecutionPolicy controls.trackingErrorThreshold smoothed = .ok adopted →
      Series.Sorted (refits.flatMap fun r => refitTarget data r.point r.weights) ∧ adopted.index = days :=
    fun hs ha => by
      obtain ⟨hindex, hdays⟩ := smoothedBookPath_index hs
      obtain ⟨hadopt, hsorted⟩ := applyProcessExecutionPolicy_index ha
      refine ⟨?_, by rw [hadopt, hindex, hdays]⟩
      rw [Series.Sorted, ← hindex]; exact hsorted
  obtain ⟨hs, hdays⟩ := hsorted hsmoothed hadopted
  obtain ⟨hs', hdays'⟩ := hsorted hsmoothed' hadopted'
  have hsmooth := smoothedBookPath_agree hsmoothed hsmoothed' hs hs' (flatMap_refitTarget_agree h hrefits)
  have hadopt := applyProcessExecutionPolicy_agree hadopted hadopted' hsmooth
  rw [hdays] at hunit
  rw [hdays'] at hunit'
  exact applyProcessExecutionAvailability_agree hunit hunit' hadopt (h.agree.executionMask.reindex days)

theorem pathLedger_agree (h : SharedMarket d lag data data') (hdays : ∀ t ∈ days, t ∈ data.decisionGrid)
    {w w' : Series (Row V n)} {bps : V} {daily daily' turnover turnover' : Series V}
    (hpath : pathLedger data w days bps = .ok (daily, turnover))
    (hpath' : pathLedger data' w' days bps = .ok (daily', turnover')) (hagree : AgreeTo d w w') :
    AgreeTo (d - 1) daily daily' ∧ daily.index = days ∧ daily'.index = days := by
  unfold pathLedger at hpath hpath'
  rw [bind_eq_ok] at hpath hpath'
  obtain ⟨⟨net, _⟩, hnet, hpath⟩ := hpath
  obtain ⟨⟨net', _⟩, hnet', hpath'⟩ := hpath'
  rw [bind_eq_ok] at hpath hpath'
  obtain ⟨_, -, hpath⟩ := hpath
  obtain ⟨_, -, hpath'⟩ := hpath'
  rw [bind_eq_ok] at hpath hpath'
  obtain ⟨_, -, hpath⟩ := hpath
  obtain ⟨_, -, hpath'⟩ := hpath'
  cases hpath
  cases hpath'
  have hsorted : ∀ (data : ProcessMarketData V n m) (w : Series (Row V n)), (hourlyWeights w data.grid1h).Sorted :=
    fun data w => by
      rw [Series.Sorted, index_hourlyWeights]; exact data.hourly
  have hweights := hourlyWeights_agree data.grid1h hagree
  have hle : d ≤ d + lag := by have := h.lag_nonneg; omega
  have hhourly : AgreeTo d net net' := by
    refine mhsLedgerPnl_agree hnet hnet' (hsorted data w) (hsorted data' w') ?_ (h.agree.opens1h.mono hle)
      (h.agree.barFunding1h.mono hle)
    rw [← h.grids.grid1h]; exact hweights
  exact ⟨dailyReturns_agree hhourly fun t ht hlt => ProcessMarketData.day_over (hdays t ht) h.label hlt,
    index_dailyReturns net days, index_dailyReturns net' days⟩

theorem pathLedger_index {w : Series (Row V n)} {bps : V} {daily turnover : Series V}
    (h : pathLedger data w days bps = .ok (daily, turnover)) : daily.index = days := by
  obtain ⟨⟨net, _⟩, -, h⟩ := bind_eq_ok.mp h
  obtain ⟨_, -, h⟩ := bind_eq_ok.mp h
  obtain ⟨_, -, h⟩ := bind_eq_ok.mp h; cases h; exact index_dailyReturns net days

theorem forall₂_of_mapM {α β ε : Type} {f g : α → Except ε β} {R : β → β → Prop} : ∀ {xs : List α} {ys zs : List β},
    xs.mapM f = .ok ys → xs.mapM g = .ok zs →
      (∀ x ∈ xs, ∀ y z, f x = .ok y → g x = .ok z → R y z) → List.Forall₂ R ys zs
  | [], _, _, hf, hg, _ => by
    rw [mapM_nil, pure_eq_ok] at hf hg
    subst hf
    subst hg; exact .nil
  | x :: xs, _, _, hf, hg, hR => by
    rw [mapM_cons, bind_eq_ok] at hf hg
    obtain ⟨y, hy, hf⟩ := hf
    obtain ⟨z, hz, hg⟩ := hg
    rw [bind_eq_ok] at hf hg
    obtain ⟨ys, hys, hf⟩ := hf
    obtain ⟨zs, hzs, hg⟩ := hg
    rw [pure_eq_ok] at hf hg
    subst hf
    subst hg
    exact .cons (hR x mem_cons_self y z hy hz)
      (forall₂_of_mapM hys hzs fun x hx => hR x (mem_cons_of_mem _ hx))

theorem forall₂_of_forall₂_left {α β γ : Type} {R : α → β → Prop} {S : α → γ → Prop}
    {T : β → γ → Prop} {xs : List α}
    {ys : List β} {zs : List γ} (h : List.Forall₂ R xs ys) (h' : List.Forall₂ S xs zs)
    (hT : ∀ x y z, R x y → S x z → T y z) : List.Forall₂ T ys zs := by
  induction h generalizing zs with
  | nil => cases h'; exact .nil
  | cons hxy _ ih =>
    cases h' with
    | cons hxz hrest => exact .cons (hT _ _ _ hxy hxz) (ih hrest)

structure RunParts (num : ProcessNumerics V m) (data : ProcessMarketData V n m) (controls : PathControls V)
    (labels : MaturedMemberReturns V m) (clock : ProcessClockSpec) (schedule : List RefitPoint) (tiers : List V)
    (mode : FitMode V) (paths : List (ProcessPath V n m)) (refits : List (Refit V m)) (unit : Series (Row V n))
    (unitDaily exposure : Series V) : Prop where
  fitted : schedule.mapM (refitAt num labels mode) = .ok refits
  targets : unitTargets num data controls (oosDays data schedule) refits = .ok unit
  daily : ∃ turnover, pathLedger data unit (oosDays data schedule) controls.decisionBps = .ok (unitDaily, turnover)
  sized : processExposure num controls.leverageCap controls.riskSizing unitDaily = .ok exposure
  tiered : tiers.mapM (tierPath data controls clock (oosDays data schedule) refits unit
    (sizedTargets unit exposure) exposure
    unitDaily) = .ok paths

theorem runProcessPaths_ok {mode : FitMode V}
    (h : runProcessPaths num data controls labels clock schedule tiers mode = .ok paths) :
    ∃ refits unit unitDaily exposure,
      RunParts num data controls labels clock schedule tiers mode paths refits unit unitDaily exposure := by
  unfold runProcessPaths at h
  iterate 7
    split at h
    next => cases h
  dsimp only at h
  obtain ⟨refits, hrefits, h⟩ := bind_eq_ok.mp h
  obtain ⟨unit, hunit, h⟩ := bind_eq_ok.mp h
  obtain ⟨⟨unitDaily, turnover⟩, hdaily, h⟩ := bind_eq_ok.mp h
  dsimp only at h
  split at h
  next => cases h
  next =>
    obtain ⟨exposure, hexposure, h⟩ := bind_eq_ok.mp h
    exact ⟨refits, unit, unitDaily, exposure, hrefits, hunit, ⟨turnover, hdaily⟩, hexposure, h⟩

theorem tierPath_ok {unit sized : Series (Row V n)} {exposure unitDaily : Series V} {bps : V}
    {path : ProcessPath V n m}
    (h : tierPath data controls clock days refits unit sized exposure unitDaily bps = .ok path) :
    path.unitTargetWeights = unit ∧ path.exposure = exposure ∧ path.targetWeights = sized
      ∧ path.policyChoices = refits.filterMap Refit.choice
      ∧ ∃ turnover, pathLedger data sized days bps = .ok (path.dailyReturns, turnover) := by
  obtain ⟨⟨daily, turnover⟩, hdaily, h⟩ := bind_eq_ok.mp h
  dsimp only at h
  split at h <;> rw [bind_eq_ok] at h <;> obtain ⟨unitReturns, -, h⟩ := h <;> cases h <;>
    exact ⟨rfl, rfl, rfl, rfl, turnover, hdaily⟩

omit [FloatArith V] in
theorem mem_oosDays {t : ℤ} (h : t ∈ oosDays data schedule) : t ∈ data.decisionGrid := by
  unfold oosDays at h
  split at h
  next => exact (mem_filter.mp h).1
  next => cases h

theorem sizedTargets_agree {exposure exposure' : Series V} (hunit : AgreeTo d unit unit')
    (hexposure : AgreeTo d exposure exposure') : AgreeTo d (sizedTargets unit exposure)
    (sizedTargets unit' exposure') :=
  hunit.mapRows fun t _ _ hle => by rw [hexposure.row? hle]

omit [FloatArith V] in
theorem policyChoices_agree (h : List.Forall₂ (RefitsAgree d) refits refits')
    (hpoint : ∀ r ∈ refits, ∀ choice ∈ r.choice, choice.point = r.point)
    (hpoint' : ∀ r ∈ refits', ∀ choice ∈ r.choice, choice.point = r.point) :
    (refits.filterMap Refit.choice).filter (fun c => decide (c.point.effectiveFrom ≤ d))
      = (refits'.filterMap Refit.choice).filter (fun c => decide (c.point.effectiveFrom ≤ d)) := by
  induction h with
  | nil => rfl
  | @cons r r' refits refits' hr _ ih =>
    have ih := ih (fun r hr => hpoint r (mem_cons_of_mem _ hr)) fun r hr => hpoint' r (mem_cons_of_mem _ hr)
    by_cases hfrom : r.point.effectiveFrom ≤ d
    · obtain rfl := hr.2 hfrom
      cases hchoice : r.choice <;> simp only [filterMap_cons, hchoice, filter_cons, ih]
    · -- a later refit has no choice by the label
      have hdrop : ∀ {r : Refit V m} {refits : List (Refit V m)}, ¬ r.point.effectiveFrom ≤ d →
          (∀ choice ∈ r.choice, choice.point = r.point) →
          ((r :: refits).filterMap Refit.choice).filter (fun c => decide (c.point.effectiveFrom ≤ d))
            = (refits.filterMap Refit.choice).filter (fun c => decide (c.point.effectiveFrom ≤ d)) :=
        fun {r refits} hfrom hof => by
          cases hchoice : r.choice with
          | none => rw [filterMap_cons, hchoice]
          | some choice =>
            have hlate : ¬ choice.point.effectiveFrom ≤ d := by rw [hof choice hchoice]; exact hfrom
            rw [filterMap_cons, hchoice]; exact filter_cons_of_neg (by simpa using hlate)
      rw [hdrop hfrom (hpoint r mem_cons_self), hdrop (hr.1 ▸ hfrom) (hpoint' r' mem_cons_self), ih]

theorem runProcessPaths_agree (h : SharedMarket d lag data data') (hlabels : LabelsShared d labels labels')
    (hcutoffs : ∀ point ∈ schedule, point.trainEnd ≤ point.effectiveFrom)
    {mode mode' : FitMode V} (hmodes : ModesAgree d mode mode') {paths paths' : List (ProcessPath V n m)}
    (hrun : runProcessPaths num data controls labels clock schedule tiers mode = .ok paths)
    (hrun' : runProcessPaths num data' controls labels' clock schedule tiers mode' = .ok paths') :
    List.Forall₂ (fun p p' => PathsAgree d p p' ∧ AgreeTo (d - 1) p.dailyReturns p'.dailyReturns
      ∧ p.dailyReturns.index = oosDays data schedule ∧ p'.dailyReturns.index = oosDays data schedule
      ∧ p.unitTargetWeights.index = oosDays data schedule ∧ p'.unitTargetWeights.index = oosDays data schedule)
      paths paths' := by
  obtain ⟨refits, unit, unitDaily, exposure, hparts⟩ := runProcessPaths_ok hrun
  obtain ⟨refits', unit', unitDaily', exposure', hparts'⟩ := runProcessPaths_ok hrun'
  have hoos : oosDays data' schedule = oosDays data schedule := by
    unfold oosDays
    rw [h.grids.decisionGrid]
  have hgrid : ∀ t ∈ oosDays data schedule, t ∈ data.decisionGrid := fun t ht => mem_oosDays ht
  have hrefits : List.Forall₂ (RefitsAgree d) refits refits' := by
    refine forall₂_of_mapM hparts.fitted hparts'.fitted fun point hmem r r' hr hr' => ?_
    obtain ⟨hpoint, -⟩ := refitAt_point hr
    obtain ⟨hpoint', -⟩ := refitAt_point hr'
    refine ⟨hpoint.trans hpoint'.symm, fun hfrom => refitAt_agree hr hr' hmodes hlabels ?_⟩
    rw [hpoint] at hfrom; exact (hcutoffs point hmem).trans hfrom
  have hof : ∀ {labels : MaturedMemberReturns V m} {mode : FitMode V} {refits : List (Refit V m)},
      schedule.mapM (refitAt num labels mode) = .ok refits →
      ∀ r ∈ refits, ∀ choice ∈ r.choice, choice.point = r.point := fun hmap r hr choice hchoice => by
    obtain ⟨point, -, hpoint⟩ := mem_of_mapM_eq_ok hmap r hr
    obtain ⟨hrpoint, hcpoint⟩ := refitAt_point hpoint
    rw [hcpoint choice hchoice, hrpoint]
  have hunit := unitTargets_agree h hparts.targets (hoos ▸ hparts'.targets) hrefits
  obtain ⟨hindex, hsorted⟩ := unitTargets_index hparts.targets
  obtain ⟨hindex', -⟩ := unitTargets_index hparts'.targets
  obtain ⟨_, hdaily⟩ := hparts.daily
  obtain ⟨_, hdaily'⟩ := hparts'.daily
  rw [hoos] at hdaily' hindex'
  obtain ⟨hdailyAgree, hdailyIndex, hdailyIndex'⟩ := pathLedger_agree h hgrid hdaily hdaily' hunit
  have hdailySorted : unitDaily.Sorted := by
    rw [Series.Sorted, hdailyIndex, ← hindex]; exact hsorted
  have hexposure := processExposure_agree hparts.sized hparts'.sized hdailySorted
    (hdailyIndex.trans hdailyIndex'.symm) hdailyAgree
  have hsized := sizedTargets_agree hunit hexposure
  refine forall₂_of_mapM hparts.tiered (hoos ▸ hparts'.tiered) fun bps _ p p' hp hp' => ?_
  obtain ⟨hpunit, hpexposure, hpsized, hpchoices, _, hpdaily⟩ := tierPath_ok hp
  obtain ⟨hpunit', hpexposure', hpsized', hpchoices', _, hpdaily'⟩ := tierPath_ok hp'
  obtain ⟨hpagree, hpindex, hpindex'⟩ := pathLedger_agree h hgrid hpdaily hpdaily' hsized
  refine ⟨⟨?_, ?_, ?_, ?_⟩, hpagree, hpindex, hpindex', hpunit ▸ hindex, hpunit' ▸ hindex'⟩
  · rw [hpunit, hpunit']; exact hunit
  · rw [hpexposure, hpexposure']; exact hexposure
  · rw [hpsized, hpsized']; exact hsized
  · rw [hpchoices, hpchoices']
    exact policyChoices_agree hrefits (hof hparts.fitted) (hof hparts'.fitted)

theorem runProcessPaths_late (hlate : ∀ point ∈ schedule, d < point.effectiveFrom) {mode : FitMode V}
    (hrun : runProcessPaths num data controls labels clock schedule tiers mode = .ok paths) :
    List.Forall₂ (fun (_ : V) p => p.unitTargetWeights.cut d = [] ∧ p.exposure.cut d = [] ∧
      p.targetWeights.cut d = []
      ∧ p.policyChoices.filter (fun c => decide (c.point.effectiveFrom ≤ d)) = []) tiers paths := by
  obtain ⟨refits, unit, unitDaily, exposure, hparts⟩ := runProcessPaths_ok hrun
  have hdays : ∀ t ∈ oosDays data schedule, d < t := fun t ht => by
    unfold oosDays at ht
    split at ht
    next first last hhead _ =>
      have hbounds := (mem_filter.mp ht).2
      rw [decide_eq_true_eq] at hbounds
      exact (hlate first (mem_of_mem_head? hhead)).trans_le hbounds.1
    next => cases ht
  have hcut : ∀ {α : Type} {s : Series α}, s.index = oosDays data schedule → s.cut d = [] := fun {α s} hs => by
    refine filter_eq_nil_iff.mpr fun p hp => ?_
    have hlt := hdays p.1 (hs ▸ mem_map_of_mem hp)
    rw [decide_eq_true_eq]; omega
  obtain ⟨hindex, -⟩ := unitTargets_index hparts.targets
  have hexposure : exposure.index = oosDays data schedule := by
    obtain ⟨_, hdaily⟩ := hparts.daily
    rw [processExposure_index hparts.sized, pathLedger_index hdaily]
  have hchoices : ∀ c ∈ refits.filterMap Refit.choice, ¬ c.point.effectiveFrom ≤ d := fun c hc => by
    obtain ⟨r, hr, hchoice⟩ := mem_filterMap.mp hc
    obtain ⟨point, hmem, hpoint⟩ := mem_of_mapM_eq_ok hparts.fitted r hr
    rw [(refitAt_point hpoint).2 c hchoice]; exact not_le.mpr (hlate point hmem)
  refine (forall₂_of_mapM_eq_ok hparts.tiered).imp fun bps p hp => ?_
  obtain ⟨hpunit, hpexposure, hpsized, hpchoices, -⟩ := tierPath_ok hp
  rw [hpunit, hpexposure, hpsized, hpchoices]
  exact ⟨hcut hindex, hcut hexposure, hcut ((Series.index_mapRows _ _).trans hindex),
    filter_eq_nil_iff.mpr fun c hc => by simpa using hchoices c hc⟩

end Run

/-! ## §3 Inner evidence -/

section Inner

variable {num : ProcessNumerics V m} {data data' : ProcessMarketData V n m} {controls : PathControls V}
  {labels labels' : MaturedMemberReturns V m} {clock : ProcessClockSpec} {d lag : ℤ}
  {knowledge knowledge' : Series (Fin n → Bool)}

/-- Two lists of fits have the same points, and the same fits that begin by the label. -/
def FitsAgree (d : ℤ) (fits fits' : List (RefitPoint × WindowedFit V m)) : Prop :=
  List.Forall₂ (fun p p' => p.1 = p'.1 ∧ (p.1.effectiveFrom ≤ d → p = p')) fits fits'

variable {fits fits' : List (RefitPoint × WindowedFit V m)}

section

variable (h : FitsAgree d fits fits') (hsorted : fits.Pairwise fun p q => p.1.effectiveFrom < q.1.effectiveFrom)

include h hsorted

theorem firstLive_agree :
    firstLive fits = firstLive fits' ∨ (∀ t ∈ firstLive fits, d < t) ∧ ∀ t ∈ firstLive fits', d < t := by
  induction h with
  | nil => exact .inl rfl
  | @cons p p' fits fits' hp hrest ih =>
    obtain ⟨hlt, hsorted⟩ := pairwise_cons.mp hsorted
    rcases le_or_gt p.1.effectiveFrom d with hfrom | hfrom
    · obtain rfl := hp.2 hfrom
      unfold firstLive at ih ⊢
      rw [find?_cons, find?_cons]
      split
      next => exact .inl rfl
      next => exact ih hsorted
    · -- every fit from here on begins after the label
      have hlate : ∀ {fits : List (RefitPoint × WindowedFit V m)}, (∀ q ∈ fits, d < q.1.effectiveFrom) →
          ∀ t ∈ firstLive fits, d < t := fun {fits} hall t ht => by
        obtain ⟨q, hq, rfl⟩ := Option.map_eq_some_iff.mp ht; exact hall q (mem_of_find?_eq_some hq)
      refine .inr ⟨hlate fun q hq => ?_, hlate fun q hq => ?_⟩
      · rcases mem_cons.mp hq with rfl | hq
        · exact hfrom
        · exact hfrom.trans (hlt q hq)
      · rcases mem_cons.mp hq with rfl | hq
        · exact hp.1 ▸ hfrom
        · obtain ⟨q₀, hq₀, hpoint, -⟩ := forall₂_exists_right (hrest.flip) hq
          exact hpoint ▸ hfrom.trans (hlt q₀ hq₀)

theorem readyAt_agree (kind : TrainingWindowKind) (minimum : ℤ) :
    readyAt kind minimum fits = readyAt kind minimum fits'
      ∨ (d : WithTop ℤ) < readyAt kind minimum fits ∧ (d : WithTop ℤ) < readyAt kind minimum fits' := by
  cases kind with
  | expanding | equalMember => exact .inl rfl
  | rolling months =>
    have hlate : ∀ {live : Option ℤ}, (∀ t ∈ live, d < t) →
        (d : WithTop ℤ) < live.elim ⊤ fun t => (t : WithTop ℤ) := fun {live} hall => by
      cases live with
      | none => exact WithTop.coe_lt_top d
      | some t => exact WithTop.coe_lt_coe.mpr (hall t rfl)
    unfold readyAt
    rcases firstLive_agree h hsorted with heq | ⟨hall, hall'⟩
    · exact .inl (by rw [heq])
    · exact .inr ⟨hlate hall, hlate hall'⟩

end

section

variable (h : SharedMarket d lag data data') (hknown : AgreeTo (d + lag) knowledge knowledge')

include h hknown

theorem innerDay_agree {t : ℤ} (ht : t ≤ d - 1) (ledger : V) (prev row : Row V n) :
    innerDay data clock knowledge ledger t prev row = innerDay data' clock knowledge' ledger t prev row := by
  have hsorted : ∀ data : ProcessMarketData V n m, data.logCloseStep.Sorted := fun data => by
    rw [Series.Sorted, data.log_index]; exact data.decisionGrid_sorted
  obtain ⟨p, hp, hle⟩ := Series.exists_next (hsorted data) (data.log_index ▸ h.label) (show t < d by omega)
  have hp' := h.agree.logCloseStep.next (hsorted data) (hsorted data') hp hle
  have hlag := h.lag_nonneg
  unfold innerDay
  rw [hp, hp', h.agree.logCloseStep.row? (show t ≤ d by omega), h.agree.fundingStep.row? ht]
  have hhours : knowledge.between t p.1 = knowledge'.between t p.1 := hknown.between (by omega)
  simp only [Option.any_some, hhours]

theorem innerDays_agree (hlabel : labels.rows.map MemberLabel.label = labels'.rows.map MemberLabel.label)
    {path path' : ProcessPath V n m}
    (hpaths : PathsAgree d path path') (hdaily : AgreeTo (d - 1) path.dailyReturns path'.dailyReturns)
    (hindex : path.dailyReturns.index = path'.dailyReturns.index) (hsorted : path.dailyReturns.Sorted) :
    (innerDays data labels clock knowledge path).index = (innerDays data' labels' clock knowledge' path').index
      ∧ AgreeTo (d - 1) (innerDays data labels clock knowledge path)
        (innerDays data' labels' clock knowledge' path') := by
  unfold innerDays
  rw [← hindex, ← hlabel]
  have hordered : ((path.dailyReturns.index.filter fun t =>
    decide (t ∈ labels.rows.map MemberLabel.label)).insertionSort
      (· ≤ ·)).Pairwise (· < ·) := by
    have hfilter := List.Pairwise.filter (fun t => decide (t ∈ labels.rows.map MemberLabel.label)) hsorted
    rw [List.Pairwise.insertionSort_eq (hfilter.imp fun hlt => hlt.le)]
    exact hfilter
  generalize (path.dailyReturns.index.filter fun t => decide (t ∈ labels.rows.map MemberLabel.label)).insertionSort
    (· ≤ ·) = days at hordered
  have hholdings : ∀ unit : Series (Row V n), (days.map fun t => (t, (unit.row? t).getD fun _ => nan))
      = Series.mapRows (fun t _ => (unit.row? t).getD fun _ => nan) (days.map fun t => (t, ())) := fun unit => by
    rw [Series.mapRows, map_map]; rfl
  have hdays : ∀ unit : Series (Row V n),
    Series.index (days.map fun t => (t, (unit.row? t).getD fun _ => nan)) = days :=
    fun unit => by simp [Series.index, Function.comp_def]
  have hsortedDays : ∀ unit : Series (Row V n),
    Series.Sorted (days.map fun t => (t, (unit.row? t).getD fun _ => nan)) :=
    fun unit => by
      rw [Series.Sorted, hdays]; exact hordered
  have hagree : AgreeTo (d - 1) (days.map fun t => (t, (path.unitTargetWeights.row? t).getD fun _ => nan))
      (days.map fun t => (t, (path'.unitTargetWeights.row? t).getD fun _ => nan)) := by
    rw [hholdings, hholdings]
    exact (AgreeTo.refl _ _).mapRows fun t _ _ hle => by rw [hpaths.unitTargetWeights.row? (show t ≤ d by omega)]
  refine ⟨?_, ?_⟩
  · rw [Series.index_mapRows, Series.index_mapRows, Series.index_withPrev, Series.index_withPrev, hdays, hdays]
  · refine (hagree.withPrev (hsortedDays _) (hsortedDays _) zeroRow).mapRows fun t p _ hle => ?_
    rw [hdaily.row? hle, innerDay_agree h hknown hle]

end

theorem innerDays_later (hclock : 0 < clock.decisionPeriod ∧ 0 < clock.barCompletionLag)
    (path : ProcessPath V n m) :
    ∀ t r, (t, r) ∈ innerDays data labels clock knowledge path → t < r.availableAt := by
  intro t r hmem
  obtain ⟨p, -, heq⟩ := mem_map.mp hmem
  cases heq
  unfold innerDay
  dsimp only; omega

theorem innerPolicy_agree (h : SharedMarket d lag data data') (hlabels : LabelsShared d labels labels')
    (hknown : AgreeTo (d + lag) knowledge knowledge')
    (hlabel : labels.rows.map MemberLabel.label = labels'.rows.map MemberLabel.label)
    (hclock : 0 < clock.decisionPeriod ∧ 0 < clock.barCompletionLag) {schedule : List RefitPoint}
    (hschedule : schedule.Pairwise fun p q => p.effectiveFrom < q.effectiveFrom)
    (hcutoffs : ∀ point ∈ schedule, point.trainEnd ≤ point.effectiveFrom) {minimum : ℤ}
    {window : TrainingWindowSpec}
    {e e' : String × InnerPolicyEvidence V}
    (he : innerPolicy num data controls labels clock knowledge schedule minimum window = .ok e)
    (he' : innerPolicy num data' controls labels' clock knowledge' schedule minimum window = .ok e') :
    e.1 = e'.1 ∧ EvidenceAgrees d e.2 e'.2 := by
  unfold innerPolicy at he he'
  rw [bind_eq_ok] at he he'
  obtain ⟨paths, hpaths, he⟩ := he
  obtain ⟨paths', hpaths', he'⟩ := he'
  rw [bind_eq_ok] at he he'
  obtain ⟨fits, hfits, he⟩ := he
  obtain ⟨fits', hfits', he'⟩ := he'
  have hruns := runProcessPaths_agree h hlabels hcutoffs (.window window) hpaths hpaths'
  have hfit : ∀ {labels : MaturedMemberReturns V m} {point : RefitPoint} {p : RefitPoint × WindowedFit V m},
      (windowedWeights num labels point window).map (fun fit => (point, fit)) = .ok p →
      p.1 = point ∧ windowedWeights num labels point window = .ok p.2 := fun {labels point p} hp => by
    cases hw : windowedWeights num labels point window with
    | error _ => rw [hw] at hp; cases hp
    | ok fit => rw [hw] at hp; cases hp; exact ⟨rfl, rfl⟩
  have hfitsAgree : FitsAgree d fits fits' := forall₂_of_mapM hfits hfits' fun point hmem p p' hp hp' => by
    obtain ⟨hpoint, hw⟩ := hfit hp
    obtain ⟨hpoint', hw'⟩ := hfit hp'
    refine ⟨hpoint.trans hpoint'.symm, fun hfrom => ?_⟩
    rw [hpoint] at hfrom
    exact Prod.ext (hpoint.trans hpoint'.symm)
      (windowedWeights_agree hw hw' hlabels ((hcutoffs point hmem).trans hfrom))
  have hfitsSorted : fits.Pairwise fun p q => p.1.effectiveFrom < q.1.effectiveFrom := by
    have hmap : fits.map Prod.fst = schedule := by
      have hpoints := forall₂_of_mapM_eq_ok hfits
      clear hfits hcutoffs hschedule hpaths hpaths' hfits' hfitsAgree hruns he he'
      induction hpoints with
      | nil => rfl
      | cons hp _ ih => rw [map_cons, ih, (hfit hp).1]
    rw [← hmap, pairwise_map] at hschedule; exact hschedule
  split at he
  next _ path =>
    split at he'
    next _ path' =>
      obtain ⟨⟨hpath, hdaily, hindex, hindex', -, -⟩, -⟩ := forall₂_cons.mp hruns
      rw [bind_eq_ok] at he he'
      obtain ⟨_, -, he⟩ := he
      obtain ⟨_, -, he'⟩ := he'
      cases he
      cases he'
      have hsorted : path.dailyReturns.Sorted := by
        rw [Series.Sorted, hindex]
        unfold oosDays
        split
        next => exact data.decisionGrid_sorted.filter _
        next => exact .nil
      obtain ⟨hdays, hagree⟩ : (innerDays data labels clock knowledge path).index = _ ∧ _ :=
        innerDays_agree h hknown hlabel hpath hdaily (hindex.trans hindex'.symm) hsorted
      exact ⟨rfl,
        { index := hdays
          days := hagree
          later := innerDays_later hclock path
          later' := innerDays_later hclock path'
          ready := readyAt_agree hfitsAgree hfitsSorted window.kind minimum }⟩
    next => cases he'
  next => cases he

end Inner

/-! ## §4 The chain -/

section Chain

variable {num : ProcessNumerics V m} {procedure : Procedure V} {data data' : ProcessMarketData V n m} {d : ℤ}

structure ChainParts (num : ProcessNumerics V m) (procedure : Procedure V) (data : ProcessMarketData V n m)
    (paths : List (ProcessPath V n m)) (labels : MaturedMemberReturns V m) (lastDay : ℤ)
    (schedule : List RefitPoint)
    (ready : MemberLabel V m) (knowledge : Series (Fin n → Bool))
    (inner : List (String × InnerPolicyEvidence V)) : Prop where
  built : buildProxyMemberReturns num data procedure.clock procedure.controls.decisionBps procedure.procedureDigest
    procedure.inputManifestDigest = .ok labels
  last : data.decisionGrid.getLast? = some lastDay
  scheduled : maturedMonthlyRefitSchedule labels lastDay processMinTrainDays
    procedure.clock.fitLatency = .ok schedule
  minimum : (labels.rows.filter MemberLabel.common)[processMinTrainDays - 1]? = some ready
  known : data.fundingKnown1h = some knowledge
  policies : procedure.selection.policies.mapM
    (innerPolicy num data procedure.controls labels procedure.clock knowledge
    schedule ready.availableAt) = .ok inner
  ran : runProcessPaths num data procedure.controls labels procedure.clock schedule procedure.evaluationBps
    (.nested procedure.selection inner) = .ok paths

theorem processTargets_ok {paths : List (ProcessPath V n m)} (h : processTargets num procedure data = .ok paths) :
    ∃ labels lastDay schedule ready knowledge inner,
      ChainParts num procedure data paths labels lastDay schedule ready knowledge inner := by
  obtain ⟨labels, hlabels, h⟩ := bind_eq_ok.mp h
  split at h
  next => cases h
  next lastDay hlast =>
    obtain ⟨schedule, hschedule, h⟩ := bind_eq_ok.mp h
    obtain ⟨inner, hinner, hrun⟩ := bind_eq_ok.mp h
    unfold buildInnerPolicyEvidence at hinner
    rw [hlast] at hinner
    dsimp only at hinner
    rw [hschedule, bind_eq_ok] at hinner
    obtain ⟨_, hsame, hinner⟩ := hinner
    cases hsame
    split at hinner
    next => cases hinner
    next ready hready =>
      split at hinner
      next => cases hinner
      next =>
        split at hinner
        next => cases hinner
        next knowledge hknowledge =>
          exact ⟨labels, lastDay, schedule, ready, knowledge, inner, hlabels, hlast, hschedule, hready, hknowledge,
            hinner, hrun⟩

theorem processTargets_eq {labels : MaturedMemberReturns V m} {lastDay : ℤ} {schedule : List RefitPoint}
    {ready : MemberLabel V m} {knowledge : Series (Fin n → Bool)}
    (hbuilt : buildProxyMemberReturns num data procedure.clock procedure.controls.decisionBps
      procedure.procedureDigest
      procedure.inputManifestDigest = .ok labels) (hlast : data.decisionGrid.getLast? = some lastDay)
    (hschedule : maturedMonthlyRefitSchedule labels lastDay processMinTrainDays
      procedure.clock.fitLatency = .ok schedule)
    (hready : (labels.rows.filter MemberLabel.common)[processMinTrainDays - 1]? = some ready)
    (hgrid : ∀ r ∈ labels.rows, r.label ∈ data.decisionGrid) (hknown : data.fundingKnown1h = some knowledge) :
    processTargets num procedure data = (procedure.selection.policies.mapM
      (innerPolicy num data procedure.controls labels
      procedure.clock knowledge schedule ready.availableAt)).bind fun inner =>
        runProcessPaths num data procedure.controls labels procedure.clock schedule procedure.evaluationBps
          (.nested procedure.selection inner) := by
  unfold processTargets buildInnerPolicyEvidence
  rw [hbuilt, hlast]
  simp only [bind, Except.bind]
  rw [hschedule]
  rw [hready]
  dsimp only
  rw [if_neg (not_not.mpr hgrid), hknown]

/-- **Process targets do not look ahead**, where the chain succeeds on two markets of the same grids
that agree up to a decision label. -/
theorem process_targets_prefix_causal (num : ProcessNumerics V m) (procedure : Procedure V)
    (data data' : ProcessMarketData V n m) (hgrids : SameGrids data data') (d : ℤ) (hd : d ∈ data.decisionGrid)
    (hagree : MarketsAgree d procedure.clock.barCompletionLag data data') (paths paths' : List (ProcessPath V n m))
    (h : processTargets num procedure data = .ok paths) (h' : processTargets num procedure data' = .ok paths') :
    List.Forall₂ (PathsAgree d) paths paths' := by
  obtain ⟨labels, lastDay, schedule, ready, knowledge, inner, hparts⟩ := processTargets_ok h
  obtain ⟨labels', lastDay', schedule', ready', knowledge', inner', hparts'⟩ := processTargets_ok h'
  obtain ⟨hperiod, hlag, hlatency, hbooks, hmask, -, -⟩ := buildProxyMemberReturns_ok hparts.built
  obtain ⟨-, -, -, hbooks', hmask', -, -⟩ := buildProxyMemberReturns_ok hparts'.built
  obtain ⟨hintervals, hsorted, hdigest, hmanifest⟩ := buildProxyMemberReturns_intervals hparts.built
  obtain ⟨hintervals', hsorted', hdigest', hmanifest'⟩ := buildProxyMemberReturns_intervals hparts'.built
  have hmarket : SharedMarket d procedure.clock.barCompletionLag data data' :=
    ⟨hgrids, hagree, hlag.le, hd, hbooks, hbooks', hmask, hmask'⟩
  have hlabels : LabelsShared d labels labels' :=
    ⟨buildProxyMemberReturns_agree hparts.built hparts'.built hgrids hagree, hsorted, hsorted'⟩
  have hlabel : labels.rows.map MemberLabel.label = labels'.rows.map MemberLabel.label := by
    have hsame := congrArg (List.map Prod.fst) (hintervals.trans (hgrids.decisionGrid ▸ hintervals'.symm))
    rw [map_map, map_map] at hsame; exact hsame
  have hlast : lastDay = lastDay' := by
    have hsame := hparts.last
    rw [hgrids.decisionGrid, hparts'.last] at hsame; exact (Option.some.inj hsame).symm
  subst hlast
  have hhead : labels.rows.head?.map MemberLabel.label = labels'.rows.head?.map MemberLabel.label := by
    rw [← head?_map, ← head?_map, hlabel]
  obtain ⟨hlat, hordered, hcutoff⟩ := maturedMonthlyRefitSchedule_ok hparts.scheduled
  -- where every refit applies after the label, the paths show nothing of the market
  have hlateRuns : (∀ point ∈ schedule, d < point.effectiveFrom) → (∀ point ∈ schedule', d < point.effectiveFrom) →
      List.Forall₂ (PathsAgree d) paths paths' := fun hlate hlate' => by
    have hnone := runProcessPaths_late hlate hparts.ran
    have hnone' := runProcessPaths_late hlate' hparts'.ran
    refine forall₂_of_forall₂_left hnone hnone' fun tier p p' hp hp' => ?_
    obtain ⟨hunit, hexposure, htarget, hchoices⟩ := hp
    obtain ⟨hunit', hexposure', htarget', hchoices'⟩ := hp'
    exact ⟨hunit.trans hunit'.symm, hexposure.trans hexposure'.symm, htarget.trans htarget'.symm,
      hchoices.trans hchoices'.symm⟩
  rcases maturedMonthlyRefitSchedule_agree hparts.scheduled hparts'.scheduled hhead hlabels.agree with
    rfl | ⟨hlate, hlate'⟩
  · by_cases hlate : ∀ point ∈ schedule, d < point.effectiveFrom
    · exact hlateRuns hlate hlate
    · -- a fit by the label: enough labels are available by then, the same in both
      push Not at hlate
      obtain ⟨point, hpoint, hfrom⟩ := hlate
      obtain ⟨hend, henough⟩ := hcutoff point hpoint
      have hready : ready = ready' := by
        have hsame := getElem?_common_agree (k := processMinTrainDays - 1) hsorted hsorted' hlabels.agree
          (show point.trainEnd ≤ d by omega) henough
        rw [hparts.minimum, hparts'.minimum] at hsame; exact Option.some.inj hsame
      subst hready
      have hcutoffs : ∀ point ∈ schedule, point.trainEnd ≤ point.effectiveFrom := fun point hpoint => by
        have := (hcutoff point hpoint).1; omega
      have hpools : PoolsAgree d inner inner' := forall₂_of_mapM hparts.policies hparts'.policies
        fun window _ e e' he he' => innerPolicy_agree hmarket hlabels
          (hagree.fundingKnown1h knowledge hparts.known knowledge' hparts'.known) hlabel ⟨hperiod, hlag⟩ hordered
          hcutoffs he he'
      exact (runProcessPaths_agree hmarket hlabels hcutoffs (.nested _ hpools) hparts.ran hparts'.ran).imp
        fun _ _ hp => hp.1
  · exact hlateRuns hlate hlate'

end Chain

/-! ## §5 A market at rest -/

section Quiet

inductive ExactFloat where
  | nan
  | num (q : ℚ)
  deriving DecidableEq

namespace ExactFloat

def map₂ (f : ℚ → ℚ → ℚ) : ExactFloat → ExactFloat → ExactFloat
  | num x, num y => num (f x y)
  | _, _ => nan

def test (f : ℚ → ℚ → Bool) : ExactFloat → ExactFloat → Bool
  | num x, num y => f x y
  | _, _ => false

/-- Exact arithmetic; of the transcendental functions only the values at zero are numbers. -/
instance : FloatArith ExactFloat where
  zero := num 0
  one := num 1
  add := map₂ (· + ·)
  sub := map₂ (· - ·)
  mul := map₂ (· * ·)
  div := fun x y => if y = num 0 then nan else map₂ (· / ·) x y
  nan := nan
  abs := fun x => map₂ (fun x _ => if x < 0 then -x else x) x x
  exp := fun x => if x = num 0 then num 1 else nan
  log1p := fun x => if x = num 0 then num 0 else nan
  isFinite := fun x => decide (x ≠ nan)
  isNan := fun x => decide (x = nan)
  isZero := fun x => decide (x = num 0)
  lt := test fun x y => decide (x < y)
  le := test fun x y => decide (x ≤ y)
  sum := fun xs => xs.foldl (map₂ (· + ·)) (num 0)
  prod := fun xs => xs.foldl (map₂ (· * ·)) (num 1)
  mean := fun xs => map₂ (· / ·) (xs.foldl (map₂ (· + ·)) (num 0)) (num xs.length)
  const := num

end ExactFloat

open ExactFloat (num)

/-- pandas with fewer observations than `min_periods`. -/
def sparseNumerics : ProcessNumerics ExactFloat 0 where
  smoothingRate := num (1 / 4)
  sqrtYear := num (191 / 10)
  ewmStd := fun _ _ _ => .nan
  median := fun _ => .nan
  growthWeights := fun _ => .error .linAlgError
  pairedGrowthLcb := fun _ _ _ _ => .nan
  monthsBefore := fun t months => t - months * 30 * dayNs

def quietDays : List ℤ := (List.range 370).map fun i : ℕ => (18627 + (i : ℤ)) * dayNs

theorem quietDays_daily : quietDays.IsChain fun d d' => d' = d + dayNs := by
  decide +kernel

def labelled {α : Type} (days : List ℤ) (f : ℤ → α) : Series α := days.map fun t => (t, f t)

theorem index_labelled {α : Type} (days : List ℤ) (f : ℤ → α) : (labelled days f).index = days := by
  simp [labelled, Series.index, Function.comp_def]

theorem row?_labelled {α : Type} (f : ℤ → α) {t : ℤ} :
    ∀ {days : List ℤ}, t ∈ days → (labelled days f).row? t = some (f t)
  | day :: days, h => by
    by_cases heq : day = t
    · subst heq; simp [labelled, Series.row?]
    · have hrest := row?_labelled f ((mem_cons.mp h).resolve_left fun h => heq h.symm)
      unfold Series.row? at hrest ⊢
      rw [labelled, map_cons, find?_cons_of_neg (by simpa using heq)]; exact hrest

/-- Half days within the fit's months. -/
def quietHours : List ℤ := (List.range 4).map fun i : ℕ => 18994 * dayNs + (i : ℤ) * 43200000000000

def quietKnown : Series (Fin 1 → Bool) := labelled quietHours fun _ _ => true

def quietMarket (last : ExactFloat) : ProcessMarketData ExactFloat 1 0 where
  grid1h := quietHours
  decisionGrid := quietDays
  opens1h := labelled quietHours fun _ _ => num 1
  barFunding1h := labelled quietHours fun _ _ => num 0
  logCloseStep := labelled quietDays fun _ _ => num 0
  fundingStep := labelled quietDays fun _ _ => num 0
  memberBooks := fun _ => labelled quietDays fun t _ => if t = 18996 * dayNs then last else num 0
  executionMask := labelled quietDays fun _ _ => true
  fundingKnown1h := some quietKnown
  hourly := by decide
  daily := quietDays_daily
  log_index := index_labelled _ _
  known_index := fun known hknown => by
    cases hknown; exact index_labelled _ _

def dailyProcedure : Procedure ExactFloat where
  clock := ⟨dayNs, 3600000000000, 3600000000000⟩
  selection :=
    { policies := [⟨"equal_member", .equalMember, by decide, fun _ h => (by cases h)⟩]
      controlPolicyId := "equal_member"
      minimumInnerLabels := 1
      alpha := num (1 / 20)
      bootstrapPaths := 1
      seed := 0
      fitLatency := 3600000000000
      ids_nodup := by decide
      control_mem := by decide
      minimum_pos := Nat.zero_lt_one
      paths_pos := by decide
      latency_nonneg := by decide }
  controls := ⟨num 5, num 1, none, none⟩
  evaluationBps := [num 5, num 10]
  procedureDigest := "procedure"
  inputManifestDigest := none

def isOk {ε α : Type} : Except ε α → Bool
  | .ok _ => true
  | .error _ => false

def quietLabel (p : ℤ × ℤ) : MemberLabel ExactFloat 0 :=
  ⟨p.1, p.1 + 3600000000000, p.2 + 3600000000000, p.2 + 3600000000000, fun _ => num 0, fun _ => true⟩

def quietLabels : MaturedMemberReturns ExactFloat 0 where
  rows := (quietDays.zip quietDays.tail).map quietLabel
  procedureDigest := "procedure"
  inputManifestDigest := none

theorem smoothedRows_rest (days : List ℤ) :
    smoothedRows (num (1 / 4)) (labelled days fun _ => (zeroRow : Row ExactFloat 1)) =
      labelled days fun _ => zeroRow := by
  have hrest : (fun i => (zeroRow : Row ExactFloat 1) i + num (1 / 4) *
    ((zeroRow : Row ExactFloat 1) i - zeroRow i)) = zeroRow :=
    funext fun _ => show (num 0 : ExactFloat) + num (1 / 4) * (num 0 - num 0) = num 0 by decide +kernel
  unfold smoothedRows
  induction days with
  | nil => rfl
  | cons t days ih =>
    rw [labelled, map_cons, Series.scan, hrest]; exact congrArg _ ih

theorem maskedRows_rest (days : List ℤ) :
    maskedRows (labelled days fun _ => (zeroRow : Row ExactFloat 1)) (labelled days fun _ _ =>
      true) = labelled days fun _ => zeroRow := by
  induction days with
  | nil => rfl
  | cons t days ih => exact congrArg _ ih

theorem withPrev_rest (days : List ℤ) :
    (labelled days fun _ => (zeroRow : Row ExactFloat 1)).withPrev zeroRow =
    labelled days fun _ => (zeroRow, zeroRow) := by
  induction days with
  | nil => rfl
  | cons t days ih => exact congrArg _ ih

theorem quietMarket_books (last : ExactFloat) (k : Fin 1) : AgreeTo (18995 * dayNs)
    ((quietMarket last).memberBooks k)
    (labelled quietDays fun _ => zeroRow) := by
  unfold Series.AgreeTo Series.cut quietMarket labelled
  rw [filter_map, filter_map]
  refine map_congr_left fun t ht => ?_
  have hle : t ≤ 18995 * dayNs := of_decide_eq_true (mem_filter.mp ht).2
  have hne : t ≠ 18996 * dayNs := by
    unfold dayNs at hle ⊢; omega
  simp only [if_neg hne]; rfl


theorem labelled_sorted (f : ℤ → Row ExactFloat 1) : (labelled quietDays f).Sorted := by
  rw [Series.Sorted, index_labelled]; exact (quietMarket (num 0)).decisionGrid_sorted

variable {last : ExactFloat}

theorem quietMarket_book {t : ℤ} (ht : t ∈ quietDays) (hle : t ≤ 18995 * dayNs) (k : Fin 1) :
    ((executableBook sparseNumerics (quietMarket last) k).withPrev zeroRow).row? t = some (zeroRow, zeroRow) := by
  have hmask : ∀ f : ℤ → Row ExactFloat 1, (labelled quietDays fun _ _ => true : Series (Fin 1 → Bool)).index
      = (smoothedRows (num (1 / 4)) (labelled quietDays f)).index := fun f => by
    rw [index_smoothedRows, index_labelled, index_labelled]
  have hsorted : ∀ f : ℤ → Row ExactFloat 1,
      (maskedRows (smoothedRows (num (1 / 4)) (labelled quietDays f))
        (labelled quietDays fun _ _ => true)).Sorted := fun f => by
    rw [Series.Sorted, index_maskedRows (hmask f), index_smoothedRows]; exact labelled_sorted f
  have hbook : AgreeTo (18995 * dayNs) (labelled quietDays fun t _ => if t = 18996 * dayNs then last else num 0)
      (labelled quietDays fun _ => zeroRow) := quietMarket_books last k
  have hagree := (maskedRows_agree (hmask _) (hmask _) (smoothedRows_agree (num (1 / 4)) (labelled_sorted _)
    (labelled_sorted _) hbook) (AgreeTo.refl _ _)).withPrev (hsorted _) (hsorted _) zeroRow
  have hrow := hagree.row? hle
  rw [smoothedRows_rest, maskedRows_rest, withPrev_rest, row?_labelled _ ht] at hrow; exact hrow

theorem quietMarket_label {t t' : ℤ} (knowledge : Series (Fin 1 → Bool)) (ht : t ∈ quietDays) (ht' : t' ∈ quietDays)
    (hle : t ≤ 18995 * dayNs) : memberLabel sparseNumerics (quietMarket last) dailyProcedure.clock
      dailyProcedure.controls.decisionBps knowledge t t' = quietLabel (t, t') := by
  have hrest : ∀ hours, memberReturn (n := 1) (num 5) zeroRow zeroRow (fun _ => num 0) (fun _ => num 0)
      (fun _ => num 0) hours = (num 0, true) := fun hours => by
    -- nothing is held, so no hour has to be known
    have hsettled : fundingSettled hours (fun i => !isZero ((zeroRow : Row ExactFloat 1) i)) = true :=
      all_eq_true.mpr fun _ _ => all_eq_true.mpr fun _ _ => Bool.or_eq_true_iff.mpr (.inl rfl)
    unfold memberReturn
    simp only [hsettled]; decide +kernel
  unfold memberLabel
  simp only [quietMarket_book ht hle]
  rw [show (quietMarket last).logCloseStep.row? t = some fun _ => num 0 from row?_labelled _ ht,
    show (quietMarket last).logCloseStep.row? t' = some fun _ => num 0 from row?_labelled _ ht',
    show (quietMarket last).fundingStep.row? t = some fun _ => num 0 from row?_labelled _ ht]
  exact congrArg (fun value : ExactFloat × Bool => (⟨t, t + 3600000000000, t' + 3600000000000, t' + 3600000000000,
    fun _ => value.1, fun _ => value.2⟩ : MemberLabel ExactFloat 0)) (hrest _)

theorem quietMarket_labels (last : ExactFloat) :
    buildProxyMemberReturns sparseNumerics (quietMarket last) dailyProcedure.clock
      dailyProcedure.controls.decisionBps
      dailyProcedure.procedureDigest dailyProcedure.inputManifestDigest = .ok quietLabels := by
  have hlabels : memberLabels sparseNumerics (quietMarket last) dailyProcedure.clock
    dailyProcedure.controls.decisionBps quietKnown
      = quietLabels.rows := by
    rw [memberLabels, (quietMarket last).log_index]
    show List.map (fun p => memberLabel sparseNumerics (quietMarket last) dailyProcedure.clock
      dailyProcedure.controls.decisionBps quietKnown p.1 p.2) (quietDays.zip quietDays.tail) = List.map quietLabel _
    refine map_congr_left fun p hp => ?_
    obtain ⟨hlt, hmem, hmem'⟩ := mem_zip_tail (quietMarket last).decisionGrid_sorted hp
    have hlast : ∀ t ∈ quietDays, t ≤ 18996 * dayNs := by decide +kernel
    have hover := ProcessMarketData.day_over hmem hmem' hlt
    refine quietMarket_label _ hmem hmem' ?_
    have hle := hlast p.2 hmem'; omega
  have hindex : ∀ {α : Type} (f : ℤ → α), (labelled quietDays f).index =
    (quietMarket last).logCloseStep.index := fun f =>
    (index_labelled _ _).trans (quietMarket last).log_index.symm
  unfold buildProxyMemberReturns
  have hfunding : (quietMarket last).fundingStep.index = (quietMarket last).logCloseStep.index := hindex _
  have hbooks : ∀ k, ((quietMarket last).memberBooks k).index =
    (quietMarket last).logCloseStep.index := fun _ => hindex _
  have hmask : (quietMarket last).executionMask.index = (quietMarket last).logCloseStep.index := hindex _
  have hknown : (quietMarket last).fundingKnown1h = some quietKnown := rfl
  rw [hfunding, hknown]
  simp only [bind, Except.bind]
  rw [if_neg (not_not.mpr rfl), if_neg (not_not.mpr hbooks),
    if_neg (not_not.mpr hmask), hlabels]
  rfl

def quietPoint : RefitPoint := ⟨18993 * dayNs, 18997 * dayNs, 18993 * dayNs - 3600000000000⟩

theorem quietLabels_schedule : maturedMonthlyRefitSchedule quietLabels (18996 * dayNs) processMinTrainDays
    dailyProcedure.clock.fitLatency = .ok [quietPoint] := by
  decide +kernel

theorem quietMarket_runs (h : last = num 0 ∨ last = num 1) :
    ∃ paths, processTargets sparseNumerics dailyProcedure (quietMarket last) = .ok paths := by
  obtain ⟨ready, hready⟩ : ∃ ready, (quietLabels.rows.filter
    MemberLabel.common)[processMinTrainDays - 1]? = some ready :=
    Option.isSome_iff_exists.mp (by decide +kernel)
  have havailable : ready.availableAt = 18992 * dayNs + 3600000000000 := by
    have hmap : ((quietLabels.rows.filter MemberLabel.common)[processMinTrainDays - 1]?).map MemberLabel.availableAt
        = some (18992 * dayNs + 3600000000000) := by decide +kernel
    rw [hready] at hmap; exact Option.some.inj hmap
  rw [processTargets_eq (quietMarket_labels last) (show quietDays.getLast? = some (18996 * dayNs) by decide +kernel)
    quietLabels_schedule hready (fun r hr => by
      obtain ⟨p, hp, rfl⟩ := mem_map.mp hr
      exact (mem_zip_tail (quietMarket last).decisionGrid_sorted hp).2.1) rfl, havailable]
  have hok : ∀ {r : Except ProcessExc (List (ProcessPath ExactFloat 1 0))}, isOk r = true →
    ∃ paths, r = .ok paths :=
    fun {r} hr => by
      cases r with
      | ok paths => exact ⟨paths, rfl⟩
      | error _ => cases hr
  apply hok
  rcases h with rfl | rfl <;> decide +kernel

/-- A book that takes a weight on the last day leaves the rows before it as they are, those of the
fit in force among them. -/
theorem process_targets_prefix_causal_quiet : ∃ paths paths',
    processTargets sparseNumerics dailyProcedure (quietMarket (num 0)) = .ok paths
      ∧ processTargets sparseNumerics dailyProcedure (quietMarket (num 1)) = .ok paths'
      ∧ List.Forall₂ (PathsAgree (18995 * dayNs)) paths paths' := by
  obtain ⟨paths, h⟩ := quietMarket_runs (.inl rfl)
  obtain ⟨paths', h'⟩ := quietMarket_runs (.inr rfl)
  have hd : 18995 * dayNs ∈ (quietMarket (num 0)).decisionGrid :=
    mem_map.mpr ⟨368, mem_range.mpr (by decide), rfl⟩
  have hbooks : ∀ k, AgreeTo (18995 * dayNs) ((quietMarket (num 0)).memberBooks k)
    ((quietMarket (num 1)).memberBooks k) :=
    fun k => (quietMarket_books (num 0) k).trans (quietMarket_books (num 1) k).symm
  have hagree : MarketsAgree (18995 * dayNs) dailyProcedure.clock.barCompletionLag
    (quietMarket (num 0)) (quietMarket (num 1)) :=
    { memberBooks := hbooks
      executionMask := rfl
      logCloseStep := rfl
      fundingStep := rfl
      opens1h := rfl
      barFunding1h := rfl
      fundingKnown1h := fun known hknown known' hknown' => by
        cases hknown
        cases hknown'
        rfl }
  have hgrids : SameGrids (quietMarket (num 0)) (quietMarket (num 1)) := { grid1h := rfl, decisionGrid := rfl }
  exact ⟨paths, paths', h, h', process_targets_prefix_causal _ _ _ _ hgrids _ hd hagree _ _ h h'⟩

end Quiet

end CryptoPilot.Lab
