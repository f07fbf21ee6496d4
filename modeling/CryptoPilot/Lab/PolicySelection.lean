/- # PolicySelection — the choice of an estimator window at a refit.

`choose_refit_policy` compares the registered policies on the days that are valid and available for
all of them at the cutoff of the refit, and chooses the control where there are too few or no policy
is better. -/
import Mathlib
import CryptoPilot.Lab.MemberLabels

namespace CryptoPilot.Lab

open CryptoPilot.Lib List Prod
open CryptoPilot.Lib.Series (AgreeTo)
open FloatArith

/-! ## §1 Policies and evidence -/

/-- The estimator window of a policy; an expanding or a rolling one, or none for equal members. -/
inductive TrainingWindowKind where
  | expanding
  | rolling (months : ℕ)
  | equalMember
  deriving DecidableEq, Repr

structure TrainingWindowSpec where
  policyId : String
  kind : TrainingWindowKind
  policyId_ne : policyId ≠ ""
  months_pos : ∀ months, kind = .rolling months → 0 < months

structure NestedSelectionSpec (V : Type) where
  policies : List TrainingWindowSpec
  controlPolicyId : String
  minimumInnerLabels : ℕ
  alpha : V
  bootstrapPaths : ℕ
  seed : ℤ
  fitLatency : ℤ
  ids_nodup : (policies.map TrainingWindowSpec.policyId).Nodup
  control_mem : controlPolicyId ∈ policies.map TrainingWindowSpec.policyId
  minimum_pos : 1 ≤ minimumInnerLabels
  paths_pos : 1 ≤ bootstrapPaths
  latency_nonneg : 0 ≤ fitLatency

structure InnerFitAudit where
  point : RefitPoint
  trainStart : Option ℤ
  nTrainLabels : ℕ
  latestLabelEnd : Option ℤ
  latestInputAvailableAt : Option ℤ

/-- A day of `InnerPolicyEvidence`; a return that is not valid is missing. -/
structure InnerDay (V : Type) where
  dailyReturn : V
  availableAt : ℤ
  turnover : V
  valid : Bool

/-- `InnerPolicyEvidence`.  A policy that is never ready, `pd.Timestamp.max`, is ready at `⊤`. -/
structure InnerPolicyEvidence (V : Type) where
  policyId : String
  days : Series (InnerDay V)
  procedureDigest : String
  inputManifestDigest : Option String
  prerequisitesReadyAt : WithTop ℤ
  fitAudits : List InnerFitAudit

inductive ChoiceReason where
  | innerEvidenceInsufficient
  | controlPrerequisitesInvalid
  | noEstimatedImprovement
  | pairedLcbImprovement
  deriving DecidableEq, Repr

structure RefitPolicyChoice (V : Type) where
  point : RefitPoint
  policyId : Option String
  trainStart : Option ℤ
  innerStart : Option ℤ
  innerEnd : Option ℤ
  nInnerLabels : ℕ
  pairedGrowthLcb : Option V
  reasonCodes : List ChoiceReason

variable {V : Type} [FloatArith V] {m : ℕ}

def InnerDay.sound (r : InnerDay V) : Bool := !r.valid || (isFinite r.dailyReturn && lt (const (-1)) r.dailyReturn)

/-- `InnerPolicyEvidence.__post_init__`. -/
def checkInnerPolicyEvidence (e : InnerPolicyEvidence V) : Except ProcessExc Unit :=
  if e.policyId = "" ∨ e.procedureDigest = "" then .error (.dataIntegrityError .innerEvidence)
  else if ¬ e.days.Sorted ∨ ¬ e.days.Pairwise fun p q => p.2.availableAt ≤ q.2.availableAt then
    .error (.dataIntegrityError .innerEvidence)
  else if e.days.any fun p => !p.2.sound then .error (.dataIntegrityError .innerEvidence)
  else if e.days.any fun p =>
      (e.fitAudits.countP fun a => decide (a.point.effectiveFrom ≤ p.1 ∧ p.1 < a.point.effectiveTo)) != 1 then
    .error (.dataIntegrityError .innerEvidence)
  else .ok ()

/-! ## §2 The choice -/

def policyTrainStart (num : ProcessNumerics V m) (policy : TrainingWindowSpec) (point : RefitPoint) : Option ℤ :=
  match policy.kind with
  | .rolling months => some (num.monthsBefore point.trainEnd months)
  | _ => none

/-- The fit of the audit used nothing after its cutoff, which precedes the application. -/
def InnerFitAudit.precedes (fitLatency : ℤ) (a : InnerFitAudit) : Bool :=
  a.latestLabelEnd.all (fun t => decide (t ≤ a.point.trainEnd))
    && a.latestInputAvailableAt.all (fun t => decide (t ≤ a.point.trainEnd))
    && decide (a.point.trainEnd ≤ a.point.effectiveFrom - fitLatency)

def commonDays : List (List ℤ) → List ℤ
  | [] => []
  | first :: others => (first.filter fun t => others.all fun index => decide (t ∈ index)).insertionSort (· ≤ ·)

-- the comparison of the two instants, by cases; the one through the lattices of integers is not computable
instance (priority := high) decidableLEWithTop : DecidableLE (WithTop ℤ) := @WithTop.decidableLE ℤ _ Int.decLe

/-- The day is valid and available at the cutoff, and not before the policy is ready. -/
def InnerPolicyEvidence.usable (cutoff : ℤ) (e : InnerPolicyEvidence V) (t : ℤ) : Bool :=
  decide (e.prerequisitesReadyAt ≤ (t : WithTop ℤ)) &&
    match e.days.row? t with
    | some r => r.valid && decide (r.availableAt ≤ cutoff)
    | none => false

/-- `common_dates`. -/
def keptDays (cutoff : ℤ) (pool : List (InnerPolicyEvidence V)) : List ℤ :=
  (commonDays (pool.map fun e => e.days.index)).filter fun t => pool.all fun e => e.usable cutoff t

/-- `daily_returns.loc[days]` and `turnover.loc[days]`. -/
def InnerPolicyEvidence.returnsAt (e : InnerPolicyEvidence V) (days : List ℤ) : List V :=
  days.map fun t => ((e.days.row? t).map InnerDay.dailyReturn).getD nan

def InnerPolicyEvidence.turnoverAt (e : InnerPolicyEvidence V) (days : List ℤ) : List V :=
  days.map fun t => ((e.days.row? t).map InnerDay.turnover).getD nan

section Choose

variable (num : ProcessNumerics V m) (spec : NestedSelectionSpec V)

/-- A candidate in the comparison: its lower bound, its identity and its mean turnover. -/
abbrev Candidate (V : Type) : Type := V × String × V

/-- A candidate replaces the best by a higher bound, or as high a bound at less turnover. -/
def betterCandidate (best : Option (Candidate V)) (lcb : V) (policyId : String) (turnover : V) :
    Option (Candidate V) :=
  match best with
  | none => some (lcb, policyId, turnover)
  | some (bestLcb, bestId, bestTurnover) =>
    if lt (bestLcb + const (1 / 1000000000000)) lcb
        || (le (abs (lcb - bestLcb)) (const (1 / 1000000000000)) && lt turnover bestTurnover) then
      some (lcb, policyId, turnover)
    else some (bestLcb, bestId, bestTurnover)

def evidenceOf (evidence : List (String × InnerPolicyEvidence V)) (policies : List TrainingWindowSpec) :
    List (String × InnerPolicyEvidence V) :=
  policies.filterMap fun p => (evidence.lookup p.policyId).map fun e => (p.policyId, e)

def nonControl : List TrainingWindowSpec := spec.policies.filter fun p => decide (p.policyId ≠ spec.controlPolicyId)

def bestCandidate (control : InnerPolicyEvidence V)
    (others : List (String × InnerPolicyEvidence V)) (days : List ℤ) :
    Option (Candidate V) :=
  let alpha : V := if others = [] then spec.alpha else spec.alpha / const others.length
  let controlVals := (control.returnsAt days).map log1p
  others.foldl (fun best p =>
    let diff := zipWith (· - ·) ((p.2.returnsAt days).map log1p) controlVals
    betterCandidate best (num.pairedGrowthLcb diff alpha spec.bootstrapPaths spec.seed) p.1
      (mean (p.2.turnoverAt days))) none

def choiceOn (point : RefitPoint) (control : TrainingWindowSpec) (controlEvidence : InnerPolicyEvidence V)
    (others : List (String × InnerPolicyEvidence V)) (days : List ℤ) : RefitPolicyChoice V :=
  if days.length < spec.minimumInnerLabels then
    if controlEvidence.prerequisitesReadyAt ≤ (point.trainEnd : WithTop ℤ) then
      ⟨point, some spec.controlPolicyId, policyTrainStart num control point, none, none, days.length, none,
        [.innerEvidenceInsufficient]⟩
    else ⟨point, none, none, none, none, days.length, none,
      [.innerEvidenceInsufficient, .controlPrerequisitesInvalid]⟩
  else
    match bestCandidate num spec controlEvidence others days with
    | none => ⟨point, some spec.controlPolicyId, policyTrainStart num control point, days.head?, days.getLast?,
        days.length, none, [.noEstimatedImprovement]⟩
    | some (lcb, bestId, _) =>
      if le lcb 0 then ⟨point, some spec.controlPolicyId, policyTrainStart num control point, days.head?,
        days.getLast?, days.length, some lcb, [.noEstimatedImprovement]⟩
      else
        let winner := (spec.policies.find? fun p => decide (p.policyId = bestId)).getD control
        ⟨point, some bestId, policyTrainStart num winner point, days.head?, days.getLast?, days.length, some lcb,
          [.pairedLcbImprovement]⟩

def chooseRefitPolicy (evidence : List (String × InnerPolicyEvidence V)) (point : RefitPoint) :
    Except ProcessExc (RefitPolicyChoice V) :=
  let ids := spec.policies.map TrainingWindowSpec.policyId
  if ¬ ((∀ id ∈ evidence.map fst, id ∈ ids) ∧ ∀ id ∈ ids, id ∈ evidence.map fst) then
    .error (.dataIntegrityError .selection)
  else if ¬ evidence.Pairwise fun p q => p.2.procedureDigest = q.2.procedureDigest
      ∧ p.2.inputManifestDigest = q.2.inputManifestDigest then .error (.dataIntegrityError .selection)
  else if evidence.any fun p => (!p.2.days.isEmpty && p.2.fitAudits.isEmpty) || (p.2.days.any fun q => !q.2.sound)
      || p.2.fitAudits.any fun a => !a.precedes spec.fitLatency then .error (.dataIntegrityError .selection)
  else
    match spec.policies.find? (fun p => decide (p.policyId = spec.controlPolicyId)),
      evidence.lookup spec.controlPolicyId with
    | some control, some controlEvidence =>
      .ok (choiceOn num spec point control controlEvidence (evidenceOf evidence (nonControl spec))
        (keptDays point.trainEnd ((evidenceOf evidence spec.policies).map snd)))
    | _, _ => .error (.dataIntegrityError .selection)

end Choose

/-! ## §3 Agreement -/

/-- Two policies' evidence agrees before an instant: on the days before it, and on a readiness not
after it. -/
structure EvidenceAgrees (d : ℤ) (e e' : InnerPolicyEvidence V) : Prop where
  index : e.days.index = e'.days.index
  days : AgreeTo (d - 1) e.days e'.days
  later : ∀ t r, (t, r) ∈ e.days → t < r.availableAt
  later' : ∀ t r, (t, r) ∈ e'.days → t < r.availableAt
  ready : e.prerequisitesReadyAt = e'.prerequisitesReadyAt
    ∨ (d : WithTop ℤ) < e.prerequisitesReadyAt ∧ (d : WithTop ℤ) < e'.prerequisitesReadyAt

def PoolsAgree (d : ℤ) (evidence evidence' : List (String × InnerPolicyEvidence V)) : Prop :=
  List.Forall₂ (fun p p' => p.1 = p'.1 ∧ EvidenceAgrees d p.2 p'.2) evidence evidence'

section Pools

omit [FloatArith V]

variable {d cutoff t : ℤ} {e e' : InnerPolicyEvidence V}
  {evidence evidence' : List (String × InnerPolicyEvidence V)} {pool pool' : List (InnerPolicyEvidence V)}

theorem lt_of_usable (hlater : ∀ t r, (t, r) ∈ e.days → t < r.availableAt)
    (h : e.usable cutoff t = true) : t < cutoff := by
  unfold InnerPolicyEvidence.usable at h
  rw [Bool.and_eq_true] at h
  obtain ⟨-, h⟩ := h
  cases hrow : e.days.row? t with
  | none => rw [hrow] at h; cases h
  | some r =>
    rw [hrow] at h
    simp only [Bool.and_eq_true, decide_eq_true_eq] at h
    exact (hlater t r (Series.row?_mem hrow)).trans_le h.2

theorem usable_agree (h : EvidenceAgrees d e e') (hcutoff : cutoff ≤ d) :
    e.usable cutoff t = e'.usable cutoff t := by
  rcases lt_or_ge t d with ht | ht
  · have hready : decide (e.prerequisitesReadyAt ≤ (t : WithTop ℤ)) =
      decide (e'.prerequisitesReadyAt ≤ (t : WithTop ℤ)) := by
      rcases h.ready with heq | ⟨hlt, hlt'⟩
      · rw [heq]
      · have hd : (t : WithTop ℤ) < d := WithTop.coe_lt_coe.mpr ht
        rw [decide_eq_false (not_le.mpr (hd.trans hlt)), decide_eq_false (not_le.mpr (hd.trans hlt'))]
    unfold InnerPolicyEvidence.usable
    rw [hready, h.days.row? (show t ≤ d - 1 by omega)]
  · -- neither has the day by the cutoff
    have hnot : ∀ {e : InnerPolicyEvidence V}, (∀ t r, (t, r) ∈ e.days → t < r.availableAt) →
      e.usable cutoff t = false :=
      fun hlater => by
        rw [← Bool.not_eq_true]
        intro husable
        have := lt_of_usable hlater husable; omega
    rw [hnot h.later, hnot h.later']

theorem all_eq_of_forall₂ {α : Type} {R : α → α → Prop} {f : α → Bool} {l l' : List α} (h : List.Forall₂ R l l')
    (hf : ∀ x x', R x x' → f x = f x') : l.all f = l'.all f := by
  induction h with
  | nil => rfl
  | cons hx _ ih => rw [all_cons, all_cons, hf _ _ hx, ih]

theorem keptDays_agree (h : List.Forall₂ (EvidenceAgrees d) pool pool') (hcutoff : cutoff ≤ d) :
    keptDays cutoff pool = keptDays cutoff pool' := by
  have hindex : (pool.map fun e => e.days.index) = pool'.map fun e => e.days.index := by
    induction h with
    | nil => rfl
    | cons he _ ih => rw [map_cons, map_cons, he.index, ih]
  rw [keptDays, hindex]
  exact filter_congr fun t _ => all_eq_of_forall₂ h fun _ _ he => usable_agree he hcutoff

theorem lookup_agree (h : PoolsAgree d evidence evidence') (id : String) :
    (evidence.lookup id = none ∧ evidence'.lookup id = none)
      ∨ ∃ e e', evidence.lookup id = some e ∧ evidence'.lookup id = some e' ∧ EvidenceAgrees d e e' := by
  induction h with
  | nil => exact .inl ⟨rfl, rfl⟩
  | @cons p p' _ _ hp _ ih =>
    obtain ⟨key, e⟩ := p
    obtain ⟨key', e'⟩ := p'
    obtain ⟨rfl, he⟩ := hp
    rw [lookup_cons, lookup_cons]
    by_cases hkey : (id == key) = true
    · rw [hkey]; exact .inr ⟨e, e', rfl, rfl, he⟩
    · rw [Bool.not_eq_true] at hkey
      rw [hkey]; exact ih

theorem evidenceOf_agree (h : PoolsAgree d evidence evidence') : ∀ policies : List TrainingWindowSpec,
    PoolsAgree d (evidenceOf evidence policies) (evidenceOf evidence' policies)
  | [] => .nil
  | p :: rest => by
    have ih := evidenceOf_agree h rest
    unfold evidenceOf at ih ⊢
    rw [filterMap_cons, filterMap_cons]
    rcases lookup_agree h p.policyId with ⟨hnone, hnone'⟩ | ⟨e, e', hsome, hsome', he⟩
    · rw [hnone, hnone']; exact ih
    · rw [hsome, hsome']; exact .cons ⟨rfl, he⟩ ih

end Pools

section Agree

variable {num : ProcessNumerics V m} {spec : NestedSelectionSpec V} {d : ℤ} {e e' : InnerPolicyEvidence V}
  {evidence evidence' : List (String × InnerPolicyEvidence V)}

variable {days : List ℤ} {point : RefitPoint} {control : TrainingWindowSpec}

section

variable (h : EvidenceAgrees d e e')

include h

theorem returnsAt_agree (hdays : ∀ t ∈ days, t < d) :
    e.returnsAt days = e'.returnsAt days ∧ e.turnoverAt days = e'.turnoverAt days := by
  have hrow : ∀ t ∈ days, e.days.row? t = e'.days.row? t := fun t ht => h.days.row? (by have := hdays t ht; omega)
  exact ⟨map_congr_left fun t ht => by rw [hrow t ht], map_congr_left fun t ht => by rw [hrow t ht]⟩

theorem bestCandidate_agree {others others' : List (String × InnerPolicyEvidence V)}
    (hothers : PoolsAgree d others others') (hdays : ∀ t ∈ days, t < d) :
    bestCandidate num spec e others days = bestCandidate num spec e' others' days := by
  have hlength : others.length = others'.length := hothers.length_eq
  have hempty : (others = []) = (others' = []) := by
    rw [← length_eq_zero_iff, ← length_eq_zero_iff, hlength]
  unfold bestCandidate
  rw [(returnsAt_agree h hdays).1, hlength]
  simp only [hempty]
  generalize (if others' = [] then spec.alpha else spec.alpha / const (others'.length : ℚ)) = alpha
  generalize (none : Option (Candidate V)) = best
  induction hothers generalizing best with
  | nil => rfl
  | cons hp hrest ih =>
    rw [foldl_cons, hp.1, (returnsAt_agree hp.2 hdays).1, (returnsAt_agree hp.2 hdays).2]
    exact ih hrest.length_eq (by rw [← length_eq_zero_iff, ← length_eq_zero_iff, hrest.length_eq]) _

theorem choiceOn_agree {others others' evidence evidence' : List (String × InnerPolicyEvidence V)}
    (hothers : PoolsAgree d others others') (hevidence : PoolsAgree d evidence evidence')
    (hcutoff : point.trainEnd ≤ d) :
    choiceOn num spec point control e others (keptDays point.trainEnd (evidence.map snd))
      = choiceOn num spec point control e' others' (keptDays point.trainEnd (evidence'.map snd)) := by
  have hpool : List.Forall₂ (EvidenceAgrees d) (evidence.map snd) (evidence'.map snd) := by
    rw [forall₂_map_left_iff, forall₂_map_right_iff]; exact hevidence.imp fun _ _ hp => hp.2
  have hready : e.prerequisitesReadyAt ≤ (point.trainEnd : WithTop ℤ) ↔ e'.prerequisitesReadyAt ≤
    (point.trainEnd : WithTop ℤ) := by
    rcases h.ready with heq | ⟨hlt, hlt'⟩
    · rw [heq]
    · have hle : (point.trainEnd : WithTop ℤ) ≤ d := WithTop.coe_le_coe.mpr hcutoff
      exact iff_of_false (not_le.mpr (hle.trans_lt hlt)) (not_le.mpr (hle.trans_lt hlt'))
  rw [← keptDays_agree hpool hcutoff]
  cases hnil : evidence.map snd with
  | nil =>
    unfold choiceOn
    simp only [hready]
    rw [bestCandidate_agree h hothers (by simp [keptDays, commonDays])]
  | cons first rest =>
    -- every kept day is usable for the first policy, and so before the cutoff
    have hdays : ∀ t ∈ keptDays point.trainEnd (first :: rest), t < d := fun t ht => by
      obtain ⟨-, hall⟩ := mem_filter.mp ht
      have husable := all_eq_true.mp hall first mem_cons_self
      rw [hnil] at hpool
      obtain ⟨first', _, hfirst, -, -⟩ := forall₂_cons_left_iff.mp hpool
      exact (lt_of_usable hfirst.later husable).trans_le hcutoff
    unfold choiceOn
    simp only [hready]
    rw [bestCandidate_agree h hothers hdays]

end

/-- **The choice of a refit does not look ahead** of its cutoff. -/
theorem chooseRefitPolicy_agree {choice choice' : RefitPolicyChoice V}
    (h : chooseRefitPolicy num spec evidence point = .ok choice)
    (h' : chooseRefitPolicy num spec evidence' point = .ok choice') (hagree : PoolsAgree d evidence evidence')
    (hcutoff : point.trainEnd ≤ d) : choice = choice' := by
  unfold chooseRefitPolicy at h h'
  dsimp only at h h'
  split at h
  next => cases h
  next =>
    split at h
    next => cases h
    next =>
      split at h
      next => cases h
      next =>
        split at h'
        next => cases h'
        next =>
          split at h'
          next => cases h'
          next =>
            split at h'
            next => cases h'
            next =>
              cases hcontrol : spec.policies.find? fun p => decide (p.policyId = spec.controlPolicyId) with
              | none => rw [hcontrol] at h; cases h
              | some control =>
                rw [hcontrol] at h h'
                rcases lookup_agree hagree spec.controlPolicyId with ⟨hnone, -⟩ | ⟨e, e', hsome, hsome', he⟩
                · rw [hnone] at h; cases h
                · rw [hsome] at h
                  rw [hsome'] at h'
                  cases h
                  cases h'
                  exact choiceOn_agree he (evidenceOf_agree hagree _) (evidenceOf_agree hagree _) hcutoff

theorem choiceOn_point
    {others : List (String × InnerPolicyEvidence V)} :
    (choiceOn num spec point control e others days).point = point := by
  unfold choiceOn
  split
  next => split <;> rfl
  next =>
    split
    next => rfl
    next => split <;> rfl

theorem chooseRefitPolicy_point {choice : RefitPolicyChoice V}
    (h : chooseRefitPolicy num spec evidence point = .ok choice) : choice.point = point := by
  unfold chooseRefitPolicy at h
  dsimp only at h
  split at h
  next => cases h
  next =>
    split at h
    next => cases h
    next =>
      split at h
      next => cases h
      next =>
        split at h
        next => cases h; exact choiceOn_point
        next => cases h

end Agree

end CryptoPilot.Lab
