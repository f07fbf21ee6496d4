/- # ProcessPaths — the decision paths of a process and the evidence its policies are chosen by.

`run_process_paths` fits member weights at each refit of a schedule, combines and smooths the member
books under them, and sizes the result by its own hourly ledger. -/
import CryptoPilot.Lab.PolicySelection

namespace CryptoPilot.Lab

open CryptoPilot.Lib
open FloatArith

variable {V : Type} [FloatArith V] {n m : ℕ}

/-! ## §1 Fits -/

/-- What `_windowed_weights` returns. -/
structure WindowedFit (V : Type) (m : ℕ) where
  weights : Fin (m + 1) → V
  trainStart : Option ℤ
  nTrainLabels : ℕ
  latestLabelEnd : Option ℤ
  latestInputAvailableAt : Option ℤ

def noTrade (trainStart : Option ℤ) (nTrainLabels : ℕ) :
    WindowedFit V m := ⟨fun _ => 0, trainStart, nTrainLabels, none, none⟩

/-- `span_ok`: the first common label starts by the start of a rolling window. -/
def spanOk (labels : MaturedMemberReturns V m) : Option ℤ → Bool
  | none => true
  | some start => (labels.rows.find? MemberLabel.common).any fun r => decide (r.labelStart ≤ start)

section Fit

variable (num : ProcessNumerics V m) (labels : MaturedMemberReturns V m)

/-- Member weights estimated on the mature labels from a start on; too few of them trade nothing. -/
def estimatedWeights (point : RefitPoint) (trainStart : Option ℤ) : Except ProcessExc (WindowedFit V m) := do
  let train ← selectMaturedTrainingReturns labels point.trainEnd trainStart
  if spanOk labels trainStart = false ∨ train.length <
    processMinTrainDays then pure (noTrade trainStart train.length)
  else do
    let weights ← num.growthWeights (trainFrame train)
    pure ⟨weights, trainStart, train.length, train.getLast?.map MemberLabel.labelEnd,
      train.getLast?.map MemberLabel.availableAt⟩

def windowedWeights (point : RefitPoint) (window : TrainingWindowSpec) : Except ProcessExc (WindowedFit V m) :=
  match window.kind with
  | .equalMember => do
    let train ← selectMaturedTrainingReturns labels point.trainEnd none
    pure ⟨fun _ => 1 / const (m + 1), none, train.length, none, none⟩
  | _ => estimatedWeights num labels point (policyTrainStart num window point)

/-- How a run fits: on every mature label, in one registered window, or in the window chosen at each
refit. -/
inductive FitMode (V : Type) where
  | bare
  | window (w : TrainingWindowSpec)
  | nested (spec : NestedSelectionSpec V) (evidence : List (String × InnerPolicyEvidence V))

/-- `RefitRecord`: the members with a weight, and what they were fitted on. -/
structure RefitRecord (V : Type) (m : ℕ) where
  point : RefitPoint
  memberWeights : List (Fin (m + 1) × V)
  policyId : Option String
  trainStart : Option ℤ
  nTrainLabels : ℕ

structure Refit (V : Type) (m : ℕ) where
  point : RefitPoint
  weights : Fin (m + 1) → V
  policyId : Option String
  trainStart : Option ℤ
  nTrainLabels : ℕ
  choice : Option (RefitPolicyChoice V)

def Refit.record (r : Refit V m) : RefitRecord V m where
  point := r.point
  memberWeights := (List.finRange (m + 1)).filterMap fun k =>
    if isZero (r.weights k) then none else some (k, r.weights k)
  policyId := r.policyId
  trainStart := r.trainStart
  nTrainLabels := r.nTrainLabels

def bareRefit (point : RefitPoint) (choice : Option (RefitPolicyChoice V)) : Except ProcessExc (Refit V m) := do
  let train ← selectMaturedTrainingReturns labels point.trainEnd none
  if train.length < 2 then pure ⟨point, fun _ => 0, none, none, train.length, choice⟩
  else do
    let weights ← num.growthWeights (trainFrame train)
    pure ⟨point, weights, none, none, train.length, choice⟩

def windowRefit (point : RefitPoint) (window : TrainingWindowSpec) (choice : Option (RefitPolicyChoice V)) :
    Except ProcessExc (Refit V m) := do
  let fit ← windowedWeights num labels point window
  pure ⟨point, fit.weights, some window.policyId, fit.trainStart, fit.nTrainLabels, choice⟩

def refitAt (mode : FitMode V) (point : RefitPoint) : Except ProcessExc (Refit V m) :=
  match mode with
  | .bare => bareRefit num labels point none
  | .window w => windowRefit num labels point w none
  | .nested spec evidence => do
    let choice ← chooseRefitPolicy num spec evidence point
    match choice.policyId with
    | none => pure ⟨point, fun _ => 0, none, none, 0, some choice⟩
    | some id =>
      match spec.policies.find? fun p => decide (p.policyId = id) with
      | some w => windowRefit num labels point w (some choice)
      | none => bareRefit num labels point (some choice)

end Fit

/-! ## §2 One path -/

structure ProcessPath (V : Type) (n m : ℕ) where
  oneWayBps : V
  dailyReturns : Series V
  unitDailyReturns : Series V
  exposure : Series V
  refits : List (RefitRecord V m)
  unitTargetWeights : Series (Row V n)
  targetWeights : Series (Row V n)
  turnover1h : Series V
  signalAvailableAt : List ℤ
  policyChoices : List (RefitPolicyChoice V)

structure PathControls (V : Type) where
  decisionBps : V
  leverageCap : V
  trackingErrorThreshold : Option V
  riskSizing : Option (ProcessRiskSizingSpec V)

section Path

variable (num : ProcessNumerics V m) (data : ProcessMarketData V n m) (controls : PathControls V)

/-- The member books of an interval under the weights of its refit, at a gross of one. -/
def refitTarget (point : RefitPoint) (weights : Fin (m + 1) → V) : Series (Row V n) :=
  ((data.memberBooks 0).within point.effectiveFrom point.effectiveTo).mapRows fun t first =>
    scaleRowToUnitGross fun i => (List.finRange (m + 1)).foldl
      (fun acc k => acc + weights k * ((data.memberBooks k).row? t).getD (fun _ => nan) i) (first i * 0)

/-- The unit targets: the targets of all refits, smoothed, adopted and made available. -/
def unitTargets (oosDays : List ℤ) (refits : List (Refit V m)) : Except ProcessExc (Series (Row V n)) := do
  let smoothed ← smoothedBookPath num.smoothingRate oosDays (refits.flatMap fun r =>
    refitTarget data r.point r.weights)
  let adopted ← applyProcessExecutionPolicy controls.trackingErrorThreshold smoothed
  applyProcessExecutionAvailability adopted (data.executionMask.reindex adopted.index)

/-- The hourly ledger of some weights and its daily returns on some days. -/
def pathLedger (weights : Series (Row V n)) (oosDays : List ℤ) (bps : V) :
    Except ProcessExc (Series V × Series V) := do
  let (net, turnover) ← mhsLedgerPnl (hourlyWeights weights data.grid1h) data.opens1h data.barFunding1h bps
  rejectInvalidLedgerReturns net
  let daily := dailyReturns net oosDays
  rejectInvalidLedgerReturns daily
  pure (daily, turnover)

def sameFloat (x y : V) : Bool := le x y && le y x

def tierPath (clock : ProcessClockSpec) (oosDays : List ℤ) (refits : List (Refit V m))
    (unit sized : Series (Row V n))
    (exposure unitDaily : Series V) (bps : V) : Except ProcessExc (ProcessPath V n m) := do
  let (daily, turnover) ← pathLedger data sized oosDays bps
  let unitReturns ← if sameFloat bps controls.decisionBps then pure unitDaily
    else (pathLedger data unit oosDays bps).map Prod.fst
  pure
    { oneWayBps := bps
      dailyReturns := daily
      unitDailyReturns := unitReturns
      exposure := exposure
      refits := refits.map Refit.record
      unitTargetWeights := unit
      targetWeights := sized
      turnover1h := turnover
      signalAvailableAt := unit.index.map (· + clock.barCompletionLag)
      policyChoices := refits.filterMap Refit.choice }

def validBps (bps : V) : Bool := isFinite bps && !lt bps 0

def FitMode.membersMatch : FitMode V → Bool
  | .nested spec evidence =>
    (evidence.map Prod.fst).all (fun id => decide (id ∈ spec.policies.map TrainingWindowSpec.policyId))
      && (spec.policies.map TrainingWindowSpec.policyId).all fun id => decide (id ∈ evidence.map Prod.fst)
  | _ => true

/-- `oos_days`: the decisions that some refit governs. -/
def oosDays (schedule : List RefitPoint) : List ℤ :=
  match schedule.head?, schedule.getLast? with
  | some first, some last =>
    data.decisionGrid.filter fun t => decide (first.effectiveFrom ≤ t ∧ t < last.effectiveTo)
  | _, _ => []

/-- `sized_targets.mul(exposure.reindex(sized_targets.index).fillna(0.0), axis=0)`. -/
def sizedTargets (unit : Series (Row V n)) (exposure : Series V) : Series (Row V n) :=
  unit.mapRows fun t row i => row i * fillna ((exposure.row? t).getD nan)

/-- `run_process_paths`, with a clock and member evidence. -/
def runProcessPaths (labels : MaturedMemberReturns V m) (clock : ProcessClockSpec) (schedule : List RefitPoint)
    (evaluationBps : List V) (mode : FitMode V) : Except ProcessExc (List (ProcessPath V n m)) :=
  if schedule = [] then .error (.valueError .schedule)
  else if evaluationBps.isEmpty then .error (.valueError .evaluationTiers)
  else if validBps controls.decisionBps = false then .error (.valueError .decisionBps)
  else if evaluationBps.all validBps = false then .error (.valueError .evaluationTiers)
  else if (isFinite controls.leverageCap && lt 0 controls.leverageCap) =
    false then .error (.valueError .leverageCap)
  else if mode.membersMatch = false then .error (.dataIntegrityError .selection)
  else if ¬ ∀ k, data.executionMask.index =
    (data.memberBooks k).index then .error (.dataIntegrityError .executionMask)
  else do
    let days := oosDays data schedule
    let refits ← schedule.mapM (refitAt num labels mode)
    let unit ← unitTargets num data controls days refits
    let (unitDaily, _) ← pathLedger data unit days controls.decisionBps
    if controls.riskSizing.any fun spec => !sameFloat spec.leverageCap controls.leverageCap then
      .error (.valueError .leverageCap)
    else do
      let exposure ← processExposure num controls.leverageCap controls.riskSizing unitDaily
      evaluationBps.mapM (tierPath data controls clock days refits unit
        (sizedTargets unit exposure) exposure unitDaily)

end Path

/-! ## §3 Inner evidence -/

section Inner

variable (num : ProcessNumerics V m) (data : ProcessMarketData V n m) (controls : PathControls V)
  (labels : MaturedMemberReturns V m) (clock : ProcessClockSpec) (knowledge : Series (Fin n → Bool))

/-- A day of a policy's path as evidence: valid where the closes, the funding and its knowledge are
there until the next decision for the symbols held, and the ledger return is. -/
def innerDay (ledger : V) (t : ℤ) (prev row : Row V n) : InnerDay V :=
  let held : Fin n → Bool := fun i => !isZero (row i)
  let next := data.logCloseStep.next t
  let now := (data.logCloseStep.row? t).getD fun _ => nan
  let fund := (data.fundingStep.row? t).getD fun _ => nan
  let forward : Row V n := fun i => next.elim nan fun p => p.2 i - now i
  let priceMove : Row V n := fun i => if isFinite (forward i) then exp (forward i) - 1 else nan
  let priceOk := (List.finRange n).all fun i => !held i || isFinite (priceMove i)
  let fundOk := (List.finRange n).all fun i => !held i || isFinite (fund i)
  let knowOk := !(List.finRange n).any held || next.any fun p =>
    !(knowledge.between t p.1).isEmpty && fundingSettled (knowledge.between t p.1) held
  let valid := priceOk && fundOk && knowOk && isFinite ledger && lt (const (-1)) ledger
  { dailyReturn := if valid then ledger else nan
    availableAt := t + clock.decisionPeriod + clock.barCompletionLag
    turnover := rowSum fun i => abs (row i - prev i)
    valid := valid }

def innerDays (path : ProcessPath V n m) : Series (InnerDay V) :=
  let days := (path.dailyReturns.index.filter fun t =>
    decide (t ∈ labels.rows.map MemberLabel.label)).insertionSort (· ≤ ·)
  let holdings : Series (Row V n) := days.map fun t => (t, (path.unitTargetWeights.row? t).getD fun _ => nan)
  (holdings.withPrev zeroRow).mapRows fun t p =>
    innerDay data clock knowledge ((path.dailyReturns.row? t).getD nan) t p.1 p.2

/-- `first_live`: the application of the first fit with a weight. -/
def firstLive (fits : List (RefitPoint × WindowedFit V m)) : Option ℤ :=
  (fits.find? fun p => (List.finRange (m + 1)).any fun k => !isZero (p.2.weights k)).map fun p => p.1.effectiveFrom

/-- `prerequisites_ready_at`. -/
def readyAt (kind : TrainingWindowKind) (minimumReadyAt : ℤ)
    (fits : List (RefitPoint × WindowedFit V m)) : WithTop ℤ :=
  match kind with
  | .rolling _ => (firstLive fits).elim ⊤ fun t => (t : WithTop ℤ)
  | _ => minimumReadyAt

def innerPolicy (schedule : List RefitPoint) (minimumReadyAt : ℤ) (window : TrainingWindowSpec) :
    Except ProcessExc (String × InnerPolicyEvidence V) := do
  let paths ← runProcessPaths num data controls labels clock schedule [controls.decisionBps] (.window window)
  let fits ← schedule.mapM fun point => (windowedWeights num labels point window).map fun fit => (point, fit)
  match paths with
  | [path] => do
    let e : InnerPolicyEvidence V :=
      { policyId := window.policyId
        days := innerDays data labels clock knowledge path
        procedureDigest := labels.procedureDigest
        inputManifestDigest := labels.inputManifestDigest
        prerequisitesReadyAt := readyAt window.kind minimumReadyAt fits
        fitAudits := fits.map fun p =>
          ⟨p.1, p.2.trainStart, p.2.nTrainLabels, p.2.latestLabelEnd, p.2.latestInputAvailableAt⟩ }
    checkInnerPolicyEvidence e
    pure (window.policyId, e)
  | _ => .error (.valueError .evaluationTiers)

def buildInnerPolicyEvidence (spec : NestedSelectionSpec V) :
    Except ProcessExc (List (String × InnerPolicyEvidence V)) := do
  match data.decisionGrid.getLast? with
  | none => .error .indexError
  | some lastDay => do
    let schedule ← maturedMonthlyRefitSchedule labels lastDay processMinTrainDays clock.fitLatency
    match (labels.rows.filter MemberLabel.common)[processMinTrainDays - 1]? with
    | none => .error .indexError
    | some ready =>
      if ¬ ∀ r ∈ labels.rows, r.label ∈ data.decisionGrid then .error (.dataIntegrityError .innerEvidence)
      else
        match data.fundingKnown1h with
        | none => .error (.dataIntegrityError .fundingKnowledge)
        | some knowledge =>
          spec.policies.mapM (innerPolicy num data controls labels clock knowledge schedule ready.availableAt)

end Inner

/-! ## §4 The chain -/

structure Procedure (V : Type) where
  clock : ProcessClockSpec
  selection : NestedSelectionSpec V
  controls : PathControls V
  evaluationBps : List V
  procedureDigest : String
  inputManifestDigest : Option String

/-- The chain of `evaluate_process_backtest`: labels, schedule, inner evidence, and the paths chosen
by it. -/
def processTargets (num : ProcessNumerics V m) (procedure : Procedure V) (data : ProcessMarketData V n m) :
    Except ProcessExc (List (ProcessPath V n m)) := do
  let labels ← buildProxyMemberReturns num data procedure.clock procedure.controls.decisionBps
    procedure.procedureDigest
    procedure.inputManifestDigest
  match data.decisionGrid.getLast? with
  | none => .error .indexError
  | some lastDay => do
    let schedule ← maturedMonthlyRefitSchedule labels lastDay processMinTrainDays procedure.clock.fitLatency
    let inner ← buildInnerPolicyEvidence num data procedure.controls labels procedure.clock procedure.selection
    runProcessPaths num data procedure.controls labels procedure.clock schedule procedure.evaluationBps
      (.nested procedure.selection inner)

end CryptoPilot.Lab
