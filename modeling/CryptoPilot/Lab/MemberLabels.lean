/- # MemberLabels — what may be fitted on: member labels with their maturity.

`build_proxy_member_returns` gives each decision a label per member: the return of the member's
executable book from this decision to the next one, known when the next one is published. -/
import CryptoPilot.Lab.ProcessBook
import CryptoPilot.Lib.Calendar

namespace CryptoPilot.Lab

open CryptoPilot.Lib List
open CryptoPilot.Lib.Series (AgreeTo)
open FloatArith

variable {V : Type} {n m : ℕ}

/-! ## §1 Market data -/

/-- `ProcessMarketData`.  Decision labels are a day apart with the log closes on them, and the
funding knowledge is on the hourly grid, as `load_process_market_data` builds them. -/
structure ProcessMarketData (V : Type) (n m : ℕ) where
  grid1h : List ℤ
  decisionGrid : List ℤ
  opens1h : Series (Row V n)
  barFunding1h : Series (Row V n)
  logCloseStep : Series (Row V n)
  fundingStep : Series (Row V n)
  memberBooks : Fin (m + 1) → Series (Row V n)
  executionMask : Series (Fin n → Bool)
  fundingKnown1h : Option (Series (Fin n → Bool))
  hourly : grid1h.Pairwise (· < ·)
  daily : decisionGrid.IsChain fun d d' => d' = d + dayNs
  log_index : logCloseStep.index = decisionGrid
  known_index : ∀ known ∈ fundingKnown1h, known.index = grid1h

structure ProcessClockSpec where
  decisionPeriod : ℤ
  barCompletionLag : ℤ
  fitLatency : ℤ

structure SameGrids (data data' : ProcessMarketData V n m) : Prop where
  grid1h : data.grid1h = data'.grid1h
  decisionGrid : data.decisionGrid = data'.decisionGrid

/-- Two markets agree up to a decision label: on books, mask and closes to it, on funding steps
before it, and on hourly opens and funding to the completion lag after it. -/
structure MarketsAgree (d lag : ℤ) (data data' : ProcessMarketData V n m) : Prop where
  memberBooks : ∀ k, AgreeTo d (data.memberBooks k) (data'.memberBooks k)
  executionMask : AgreeTo d data.executionMask data'.executionMask
  logCloseStep : AgreeTo d data.logCloseStep data'.logCloseStep
  fundingStep : AgreeTo (d - 1) data.fundingStep data'.fundingStep
  opens1h : AgreeTo (d + lag) data.opens1h data'.opens1h
  barFunding1h : AgreeTo (d + lag) data.barFunding1h data'.barFunding1h
  fundingKnown1h : ∀ known ∈ data.fundingKnown1h, ∀ known' ∈ data'.fundingKnown1h, AgreeTo (d + lag) known known'

theorem ProcessMarketData.decisionGrid_sorted (data : ProcessMarketData V n m) :
    data.decisionGrid.Pairwise (· < ·) := by
  rw [← isChain_iff_pairwise]
  refine data.daily.imp fun d d' h => ?_
  unfold dayNs at h; omega

theorem ProcessMarketData.day_over {data : ProcessMarketData V n m} {t d : ℤ} (ht : t ∈ data.decisionGrid)
    (hd : d ∈ data.decisionGrid) (hlt : t < d) : t + dayNs ≤ d := by
  have hpairwise : data.decisionGrid.Pairwise fun d d' => d + dayNs ≤ d' := by
    have : IsTrans ℤ fun d d' => d + dayNs ≤ d' := ⟨fun a b c hab hbc => by unfold dayNs at hab hbc ⊢; omega⟩
    rw [← isChain_iff_pairwise]; exact data.daily.imp fun d d' h => h.ge
  obtain ⟨i, hi, rfl⟩ := getElem_of_mem ht
  obtain ⟨j, hj, rfl⟩ := getElem_of_mem hd
  rw [pairwise_iff_getElem] at hpairwise
  rcases lt_trichotomy i j with hij | rfl | hji
  · exact hpairwise i j hi hj hij
  · exact absurd hlt (lt_irrefl _)
  · have hle := hpairwise j i hj hi hji; omega

/-! ## §2 Labels -/

variable [FloatArith V]

/-- A row of `MaturedMemberReturns`: the label of a decision with its interval and its availability.
-/
structure MemberLabel (V : Type) (m : ℕ) where
  label : ℤ
  labelStart : ℤ
  labelEnd : ℤ
  availableAt : ℤ
  returns : Fin (m + 1) → V
  known : Fin (m + 1) → Bool

structure MaturedMemberReturns (V : Type) (m : ℕ) where
  rows : List (MemberLabel V m)
  procedureDigest : String
  inputManifestDigest : Option String

def MemberLabel.common (r : MemberLabel V m) : Bool := (finRange (m + 1)).all r.known

def MemberLabel.timely (cutoff : ℤ) (r : MemberLabel V m) : Bool :=
  decide (r.availableAt ≤ cutoff) && decide (r.labelEnd ≤ cutoff)

/-- The held symbols all have their funding known in each of some hours. -/
def fundingSettled (hours : Series (Fin n → Bool)) (held : Fin n → Bool) : Bool :=
  hours.all fun p => (finRange n).all fun i => !held i || p.2 i

/-- The label of a member from one decision to the next, and whether it is known. -/
def memberReturn (friction : V) (entry prev logNow logNext fund : Row V n)
    (hours : Series (Fin n → Bool)) : V × Bool :=
  let held : Fin n → Bool := fun i => !isZero (entry i)
  let priceMove : Row V n := fun i => if isFinite (logNext i - logNow i) then exp
    (logNext i - logNow i) - 1 else nan
  let usable := (finRange n).all fun i => !held i || (isFinite (priceMove i) && isFinite (fund i))
  let turnover : V := rowSum fun i => abs (entry i - prev i)
  let raw : V := (rowSum fun i => entry i * finiteOrZero (priceMove i)) - (rowSum fun i =>
    entry i * finiteOrZero (fund i))
    - friction * const (1 / 10000) * turnover
  let row : V := if usable then raw else nan
  let mature := fundingSettled hours held && isFinite row && lt (const (-1)) row
  (if mature then row else nan, mature)

section Build

variable (num : ProcessNumerics V m) (data : ProcessMarketData V n m) (clock : ProcessClockSpec) (friction : V)
  (knowledge : Series (Fin n → Bool))

/-- `executable`: the smoothed book of a member, with its unavailable cells emptied again. -/
def executableBook (k : Fin (m + 1)) : Series (Row V n) :=
  maskedRows (smoothedRows num.smoothingRate (data.memberBooks k)) data.executionMask

def memberLabel (t t' : ℤ) : MemberLabel V m :=
  let value (k : Fin (m + 1)) : V × Bool :=
    let entry := (((executableBook num data k).withPrev zeroRow).row? t).getD (zeroRow, zeroRow)
    memberReturn friction entry.2 entry.1 ((data.logCloseStep.row? t).getD fun _ => nan)
      ((data.logCloseStep.row? t').getD fun _ => nan) ((data.fundingStep.row? t).getD fun _ => nan)
      (knowledge.between t t')
  { label := t
    labelStart := t + clock.barCompletionLag
    labelEnd := t' + clock.barCompletionLag
    availableAt := t' + clock.barCompletionLag
    returns := fun k => (value k).1
    known := fun k => (value k).2 }

def memberLabels : List (MemberLabel V m) :=
  (data.logCloseStep.index.zip data.logCloseStep.index.tail).map fun p =>
    memberLabel num data clock friction knowledge p.1 p.2

def requireClock : Except ProcessExc Unit :=
  if clock.decisionPeriod ≤ 0 ∨ clock.barCompletionLag ≤ 0 ∨ clock.fitLatency <
    0 then .error (.dataIntegrityError .clock)
  else .ok ()

def buildProxyMemberReturns (oneWayBps : V) (procedureDigest : String) (inputManifestDigest : Option String) :
    Except ProcessExc (MaturedMemberReturns V m) := do
  requireClock clock
  if isFinite oneWayBps = false ∨ lt oneWayBps 0 = true then .error (.dataIntegrityError .friction)
  else if procedureDigest = "" ∨ inputManifestDigest = some "" then .error (.dataIntegrityError .identity)
  else if data.fundingStep.index ≠ data.logCloseStep.index then .error (.dataIntegrityError .planes)
  else if ¬ ∀ k, (data.memberBooks k).index = data.logCloseStep.index then .error (.dataIntegrityError .planes)
  else
    match data.fundingKnown1h with
    | none => .error (.dataIntegrityError .fundingKnowledge)
    | some knowledge =>
      if data.executionMask.index ≠ data.logCloseStep.index then .error (.dataIntegrityError .executionMask)
      else .ok { rows := memberLabels num data clock oneWayBps knowledge
                 procedureDigest := procedureDigest
                 inputManifestDigest := inputManifestDigest }

end Build

section BuildAgree

variable {num : ProcessNumerics V m} {data data' : ProcessMarketData V n m}
  {clock : ProcessClockSpec} {friction : V}
  {digest : String} {manifest : Option String} {labels labels' : MaturedMemberReturns V m} {d : ℤ}

theorem buildProxyMemberReturns_ok (h : buildProxyMemberReturns num data clock friction digest
    manifest = .ok labels) :
    0 < clock.decisionPeriod ∧ 0 < clock.barCompletionLag ∧ 0 ≤ clock.fitLatency
      ∧ (∀ k, (data.memberBooks k).index = data.decisionGrid) ∧ data.executionMask.index = data.decisionGrid
      ∧ data.fundingStep.index = data.decisionGrid
      ∧ ∃ knowledge, data.fundingKnown1h = some knowledge ∧ labels =
        ⟨memberLabels num data clock friction knowledge, digest, manifest⟩ := by
  unfold buildProxyMemberReturns requireClock at h
  obtain ⟨_, hclock, h⟩ := bind_eq_ok.mp h
  split at hclock
  next => cases hclock
  next hclock =>
    split at h
    next => cases h
    next =>
      split at h
      next => cases h
      next =>
        split at h
        next => cases h
        next hfunding =>
          split at h
          next => cases h
          next hbooks =>
            split at h
            next => cases h
            next knowledge hknowledge =>
              split at h
              next => cases h
              next hmask =>
                cases h
                rw [not_not, data.log_index] at hfunding hbooks hmask
                exact ⟨by omega, by omega, by omega, hbooks, hmask, hfunding, knowledge, hknowledge, rfl⟩

theorem executableBook_agree (hbooks : ∀ k, (data.memberBooks k).index = data.decisionGrid)
    (hbooks' : ∀ k, (data'.memberBooks k).index = data'.decisionGrid)
    (hmask : data.executionMask.index = data.decisionGrid)
    (hmask' : data'.executionMask.index = data'.decisionGrid) (k : Fin (m + 1))
    (hagree : AgreeTo d (data.memberBooks k) (data'.memberBooks k))
    (hmasks : AgreeTo d data.executionMask data'.executionMask) :
    AgreeTo d (executableBook num data k) (executableBook num data' k) ∧ (executableBook num data k).Sorted
      ∧ (executableBook num data' k).Sorted := by
  have hsorted : ∀ data : ProcessMarketData V n m, (∀ k, (data.memberBooks k).index = data.decisionGrid) →
      data.executionMask.index = data.decisionGrid →
      (data.memberBooks k).Sorted ∧ data.executionMask.index =
        (smoothedRows num.smoothingRate (data.memberBooks k)).index
        ∧ (executableBook num data k).Sorted := fun data hbooks hmask => by
    have hindex : data.executionMask.index = (smoothedRows num.smoothingRate (data.memberBooks k)).index := by
      rw [index_smoothedRows, hbooks k, hmask]
    refine ⟨?_, hindex, ?_⟩
    · rw [Series.Sorted, hbooks k]; exact data.decisionGrid_sorted
    · rw [Series.Sorted, executableBook, index_maskedRows hindex, index_smoothedRows, hbooks k]
      exact data.decisionGrid_sorted
  obtain ⟨hs, hindex, hexecutable⟩ := hsorted data hbooks hmask
  obtain ⟨hs', hindex', hexecutable'⟩ := hsorted data' hbooks' hmask'
  exact ⟨maskedRows_agree hindex hindex' (smoothedRows_agree _ hs hs' hagree) hmasks, hexecutable, hexecutable'⟩

theorem mem_zip_tail : ∀ {l : List ℤ} {p : ℤ × ℤ}, l.Pairwise (· < ·) → p ∈ l.zip l.tail →
    p.1 < p.2 ∧ p.1 ∈ l ∧ p.2 ∈ l
  | t :: t' :: rest, p, hl, hp => by
    obtain ⟨hlt, hrest⟩ := pairwise_cons.mp hl
    rcases mem_cons.mp hp with rfl | hp
    · exact ⟨hlt t' mem_cons_self, by simp, by simp⟩
    · obtain ⟨hpair, hmem, hmem'⟩ := mem_zip_tail hrest hp
      exact ⟨hpair, mem_cons_of_mem _ hmem, mem_cons_of_mem _ hmem'⟩

section

variable (h : buildProxyMemberReturns num data clock friction digest manifest = .ok labels)

include h

theorem buildProxyMemberReturns_agree
    (h' : buildProxyMemberReturns num data' clock friction digest manifest = .ok labels')
    (hgrids : SameGrids data data')
    (hagree : MarketsAgree d clock.barCompletionLag data data') :
    labels.rows.filter (fun r => decide (r.availableAt ≤ d)) =
      labels'.rows.filter (fun r => decide (r.availableAt ≤ d)) := by
  obtain ⟨-, hlag, -, hbooks, hmask, hfunding, knowledge, hknowledge, rfl⟩ := buildProxyMemberReturns_ok h
  obtain ⟨-, -, -, hbooks', hmask', hfunding', knowledge', hknowledge', rfl⟩ := buildProxyMemberReturns_ok h'
  unfold memberLabels
  rw [data.log_index, data'.log_index, ← hgrids.decisionGrid, filter_map, filter_map]
  refine map_congr_left fun p hp => ?_
  obtain ⟨hp, hle⟩ := mem_filter.mp hp
  obtain ⟨hlt, -, -⟩ := mem_zip_tail data.decisionGrid_sorted hp
  have hle : p.2 + clock.barCompletionLag ≤ d := of_decide_eq_true hle
  have hentry : ∀ k, ((executableBook num data k).withPrev zeroRow).row? p.1
      = ((executableBook num data' k).withPrev zeroRow).row? p.1 := fun k => by
    obtain ⟨hbook, hs, hs'⟩ : AgreeTo d (executableBook num data k) (executableBook num data' k) ∧ _ :=
      executableBook_agree hbooks hbooks' hmask hmask' k (hagree.memberBooks k) hagree.executionMask
    exact (hbook.withPrev hs hs' zeroRow).row? (by omega)
  have hknown := hagree.fundingKnown1h knowledge hknowledge knowledge' hknowledge'
  unfold memberLabel
  simp only [hentry]
  rw [hagree.logCloseStep.row? (show p.1 ≤ d by omega), hagree.logCloseStep.row? (show p.2 ≤ d by omega),
    hagree.fundingStep.row? (show p.1 ≤ d - 1 by omega),
      hknown.between (show p.2 ≤ d + clock.barCompletionLag by omega)]

theorem buildProxyMemberReturns_intervals :
    labels.rows.map (fun r => (r.label, r.availableAt))
        = (data.decisionGrid.zip data.decisionGrid.tail).map (fun p => (p.1, p.2 + clock.barCompletionLag))
      ∧ labels.rows.Pairwise (fun r r' => r.availableAt < r'.availableAt) ∧ labels.procedureDigest = digest
      ∧ labels.inputManifestDigest = manifest := by
  obtain ⟨-, -, -, -, -, -, knowledge, -, rfl⟩ := buildProxyMemberReturns_ok h
  have hrows : memberLabels num data clock friction knowledge
      = (data.decisionGrid.zip data.decisionGrid.tail).map fun p =>
        memberLabel num data clock friction knowledge p.1 p.2 := by
    rw [memberLabels, data.log_index]
  rw [hrows]
  refine ⟨by rw [map_map]; rfl, ?_, rfl, rfl⟩
  rw [pairwise_map]
  have hpairs : ∀ {l : List ℤ}, l.Pairwise (· < ·) → (l.zip l.tail).Pairwise fun p q => p.2 <
    q.2 := fun {l} hl => by
    rw [pairwise_iff_getElem]
    intro i j hi hj hij
    simp only [getElem_zip, getElem_tail]; exact pairwise_iff_getElem.mp hl _ _ _ _ (by omega)
  refine (hpairs data.decisionGrid_sorted).imp fun hlt => ?_
  simp only [memberLabel]; omega

end

end BuildAgree

/-! ## §3 Training labels -/

def requireMaturedLabels (labels : MaturedMemberReturns V m) : Except ProcessExc Unit :=
  if labels.rows.any fun r => decide (r.labelEnd ≤ r.labelStart ∨ r.availableAt < r.labelEnd) then
    .error (.dataIntegrityError .labels)
  else if labels.rows.any fun r => (finRange (m + 1)).any fun k =>
      if r.known k then !(isFinite (r.returns k) && lt (const (-1)) (r.returns k)) else !isNan (r.returns k) then
    .error (.dataIntegrityError .labels)
  else .ok ()

/-- `select_matured_training_returns`: the complete common labels available at the cutoff, from the
start on if there is one. -/
def selectMaturedTrainingReturns (labels : MaturedMemberReturns V m) (fitCutoff : ℤ) (trainStart : Option ℤ) :
    Except ProcessExc (List (MemberLabel V m)) := do
  requireMaturedLabels labels
  if trainStart.any fun start => decide (fitCutoff < start) then .error (.dataIntegrityError .fitCutoff)
  else .ok (labels.rows.filter fun r =>
    r.common && r.timely fitCutoff && trainStart.all fun start => decide (start ≤ r.labelStart))

def trainFrame (train : List (MemberLabel V m)) :
    Series (Fin (m + 1) → V) := train.map fun r => (r.label, r.returns)

def processMinTrainDays : ℕ := 365

structure RefitPoint where
  effectiveFrom : ℤ
  effectiveTo : ℤ
  trainEnd : ℤ
  deriving DecidableEq, Repr

/-- `normalize()`: the midnight of an instant. -/
def normalize (t : ℤ) : ℤ := t / dayNs * dayNs

/-- `pd.date_range(start, end, freq="MS")` of two midnights. -/
def monthStarts (start stop : ℤ) : List ℤ :=
  (((List.range (stop / dayNs + 1 - start / dayNs).toNat).map fun i : ℕ =>
    start / dayNs + (i : ℤ)).filter fun day =>
    decide (civilMonth day ≠ civilMonth (day - 1))).map (· * dayNs)

example : monthStarts (18629 * dayNs) (18690 * dayNs) = [18659 * dayNs, 18687 * dayNs] := by decide +kernel

/-- The application intervals of some months, the last one up to an end. -/
def refitPoints (fitLatency lastEnd : ℤ) : List ℤ → List RefitPoint
  | [] => []
  | start :: rest => ⟨start, rest.head?.getD lastEnd, start - fitLatency⟩ :: refitPoints fitLatency lastEnd rest

def enoughLabels (labels : MaturedMemberReturns V m) (minTrainDays : ℕ) (cutoff : ℤ) : Bool :=
  decide (minTrainDays ≤ (labels.rows.filter fun r => r.common && r.timely cutoff).length)

def maturedMonthlyRefitSchedule (labels : MaturedMemberReturns V m) (evaluationEnd : ℤ)
    (minTrainDays : ℕ) (fitLatency : ℤ) : Except ProcessExc (List RefitPoint) :=
  if minTrainDays < 1 ∨ fitLatency < 0 then .error (.valueError .schedule)
  else
    match labels.rows.head? with
    | none => .error (.valueError .schedule)
    | some first =>
      let candidates := monthStarts (normalize first.label + dayNs) (normalize evaluationEnd)
      let kept := candidates.filter fun candidate => enoughLabels labels minTrainDays (candidate - fitLatency)
      if kept = [] then .error (.valueError .schedule)
      else .ok (refitPoints fitLatency (normalize evaluationEnd + dayNs) kept)

section Schedule

omit [FloatArith V]

variable {labels labels' : MaturedMemberReturns V m} {d cutoff : ℤ}

def LabelsAgree (d : ℤ) (labels labels' : MaturedMemberReturns V m) : Prop :=
  labels.rows.filter (fun r => decide (r.availableAt ≤ d)) =
    labels'.rows.filter (fun r => decide (r.availableAt ≤ d))

theorem LabelsAgree.filter_eq (h : LabelsAgree d labels labels') {p : MemberLabel V m → Bool}
    (hp : ∀ r, p r → r.availableAt ≤ d) : labels.rows.filter p = labels'.rows.filter p := by
  have hcut : ∀ rows : List (MemberLabel V m),
    (rows.filter fun r => decide (r.availableAt ≤ d)).filter p = rows.filter p :=
    fun rows => by
      rw [filter_filter]
      refine filter_congr fun r _ => ?_
      by_cases hr : p r = true
      · simp [hr, hp r hr]
      · simp [hr]
  rw [← hcut labels.rows, ← hcut labels'.rows, h]

variable {r : MemberLabel V m}

theorem timely_available (h : r.timely cutoff = true) : r.availableAt ≤ cutoff := by
  unfold MemberLabel.timely at h; simp only [Bool.and_eq_true, decide_eq_true_eq] at h; exact h.1

theorem timely_mono {cutoff' : ℤ} (hle : cutoff ≤ cutoff') (h : r.timely cutoff = true) :
    r.timely cutoff' = true := by
  unfold MemberLabel.timely at h ⊢; simp only [Bool.and_eq_true, decide_eq_true_eq] at h ⊢; omega

theorem enoughLabels_agree (h : LabelsAgree d labels labels') (hle : cutoff ≤ d) (minTrainDays : ℕ) :
    enoughLabels labels minTrainDays cutoff = enoughLabels labels' minTrainDays cutoff := by
  rw [enoughLabels, enoughLabels, h.filter_eq]
  intro r hr
  rw [Bool.and_eq_true] at hr; exact (timely_available hr.2).trans hle

variable {minTrainDays : ℕ} {evaluationEnd latency : ℤ}

theorem enoughLabels_mono {cutoff' : ℤ} (hle : cutoff ≤ cutoff')
    (h : enoughLabels labels minTrainDays cutoff = true) : enoughLabels labels minTrainDays cutoff' = true := by
  unfold enoughLabels at h ⊢
  rw [decide_eq_true_eq] at h ⊢
  refine h.trans (List.Sublist.length_le (monotone_filter_right _ fun r hr => ?_))
  rw [Bool.and_eq_true] at hr ⊢; exact ⟨hr.1, timely_mono hle hr.2⟩

theorem monthStarts_sorted (start stop : ℤ) : (monthStarts start stop).Pairwise (· < ·) := by
  have hdays : ((List.range (stop / dayNs + 1 - start / dayNs).toNat).map fun i : ℕ =>
    start / dayNs + (i : ℤ)).Pairwise
      (· < ·) := pairwise_map.mpr (pairwise_lt_range.imp fun h => by omega)
  unfold monthStarts
  rw [pairwise_map]
  refine (hdays.filter _).imp fun h => ?_
  unfold dayNs; omega

variable {latency lastEnd : ℤ}

theorem refitPoints_from {point : RefitPoint} : ∀ {kept : List ℤ},
    point ∈ refitPoints latency lastEnd kept → point.effectiveFrom ∈ kept ∧ point.trainEnd =
      point.effectiveFrom - latency
  | [], h => by cases h
  | start :: rest, h => by
    rcases mem_cons.mp h with rfl | h
    · exact ⟨mem_cons_self, rfl⟩
    · obtain ⟨hmem, hend⟩ := refitPoints_from h; exact ⟨mem_cons_of_mem _ hmem, hend⟩

theorem refitPoints_sorted : ∀ {kept : List ℤ}, kept.Pairwise (· < ·) →
    (refitPoints latency lastEnd kept).Pairwise fun p q => p.effectiveFrom < q.effectiveFrom
  | [], _ => .nil
  | start :: rest, h => by
    obtain ⟨hlt, hrest⟩ := pairwise_cons.mp h
    exact .cons (fun p hp => hlt _ (refitPoints_from hp).1) (refitPoints_sorted hrest)

theorem maturedMonthlyRefitSchedule_ok {schedule : List RefitPoint}
    (h : maturedMonthlyRefitSchedule labels evaluationEnd minTrainDays latency = .ok schedule) :
    0 ≤ latency ∧ schedule.Pairwise (fun p q => p.effectiveFrom < q.effectiveFrom)
      ∧ ∀ point ∈ schedule, point.trainEnd = point.effectiveFrom - latency
        ∧ enoughLabels labels minTrainDays point.trainEnd = true := by
  unfold maturedMonthlyRefitSchedule at h
  split at h
  next => cases h
  next hcontrols =>
    split at h
    next => cases h
    next first _ =>
      dsimp only at h
      split at h
      next => cases h
      next =>
        cases h
        refine ⟨by omega, refitPoints_sorted ((monthStarts_sorted _ _).filter _), fun point hpoint => ?_⟩
        obtain ⟨hmem, hend⟩ := refitPoints_from hpoint; exact ⟨hend, hend ▸ (mem_filter.mp hmem).2⟩

/-- **The schedule does not look ahead**, unless neither schedule has a fit up to the instant. -/
theorem maturedMonthlyRefitSchedule_agree {schedule schedule' : List RefitPoint}
    (h : maturedMonthlyRefitSchedule labels evaluationEnd minTrainDays latency = .ok schedule)
    (h' : maturedMonthlyRefitSchedule labels' evaluationEnd minTrainDays latency = .ok schedule')
    (hfirst : labels.rows.head?.map MemberLabel.label = labels'.rows.head?.map MemberLabel.label)
    (hagree : LabelsAgree d labels labels') :
    schedule = schedule' ∨ (∀ point ∈ schedule, d < point.effectiveFrom) ∧ ∀ point ∈ schedule', d <
      point.effectiveFrom := by
  unfold maturedMonthlyRefitSchedule at h h'
  split at h
  next => cases h
  next hcontrols =>
    rw [if_neg hcontrols] at h'
    split at h
    next => cases h
    next first hhead =>
      rw [hhead, Option.map_some] at hfirst
      split at h'
      next hhead' => rw [hhead'] at hfirst; cases hfirst
      next first' hhead' =>
        rw [hhead', Option.map_some, Option.some_inj] at hfirst
        dsimp only at h h'
        rw [← hfirst] at h'
        split at h
        next => cases h
        next =>
          split at h'
          next => cases h'
          next =>
            cases h
            cases h'
            have hsame : ∀ c, c ≤ d → enoughLabels labels minTrainDays (c - latency)
                = enoughLabels labels' minTrainDays (c - latency) :=
                  fun c hc => enoughLabels_agree hagree (by omega) _
            by_cases hearly : ∃ c, c ≤ d ∧ enoughLabels labels minTrainDays (c - latency) = true
            · -- from this month on every month is kept, in both
              obtain ⟨c, hc, henough⟩ := hearly
              refine .inl (congrArg _ (filter_congr fun month _ => ?_))
              rcases le_total month d with hle | hle
              · exact hsame month hle
              · rw [enoughLabels_mono (show c - latency ≤ month - latency by omega) henough,
                  enoughLabels_mono (show c - latency ≤ month - latency by omega) (hsame c hc ▸ henough)]
            · refine .inr ⟨fun point hpoint => ?_, fun point hpoint => ?_⟩ <;> by_contra hle <;>
                obtain ⟨-, hkept⟩ := mem_filter.mp (refitPoints_from hpoint).1
              · exact hearly ⟨_, not_lt.mp hle, hkept⟩
              · exact hearly ⟨_, not_lt.mp hle, (hsame _ (not_lt.mp hle)).trans hkept⟩

section Availability

variable (hsorted : labels.rows.Pairwise fun r r' => r.availableAt < r'.availableAt)
  (hsorted' : labels'.rows.Pairwise fun r r' => r.availableAt <
    r'.availableAt) (hagree : LabelsAgree d labels labels')

include hsorted hsorted' hagree

theorem find?_common_agree (hexists : ∃ r ∈ labels.rows, r.common = true ∧ r.availableAt ≤ d) :
    labels.rows.find? MemberLabel.common = labels'.rows.find? MemberLabel.common := by
  obtain ⟨r, hr, hcommon, hle⟩ := hexists
  obtain ⟨rest, hrest⟩ := Series.exists_append_filter MemberLabel.availableAt d hsorted
  obtain ⟨rest', hrest'⟩ := Series.exists_append_filter MemberLabel.availableAt d hsorted'
  have hmem : r ∈ labels.rows.filter fun r => decide (r.availableAt ≤ d) := mem_filter.mpr ⟨hr, decide_eq_true hle⟩
  rw [hrest, hrest', ← hagree]
  cases hfind : (labels.rows.filter fun r => decide (r.availableAt ≤ d)).find? MemberLabel.common with
  | none => exact absurd hcommon (find?_eq_none.mp hfind r hmem)
  | some first => rw [find?_append, find?_append, hfind]; rfl

theorem getElem?_common_agree {k : ℕ} {cutoff : ℤ} (hcutoff : cutoff ≤ d)
    (henough : enoughLabels labels (k + 1) cutoff = true) :
    (labels.rows.filter MemberLabel.common)[k]? = (labels'.rows.filter MemberLabel.common)[k]? := by
  have hprefix : ∀ {labels : MaturedMemberReturns V m},
      labels.rows.Pairwise (fun r r' => r.availableAt < r'.availableAt) →
      ∃ rest, labels.rows.filter MemberLabel.common
        = labels.rows.filter (fun r => r.common && decide (r.availableAt ≤ d)) ++ rest := fun {labels} hsorted => by
    obtain ⟨rest, hrest⟩ := Series.exists_append_filter MemberLabel.availableAt d
      (hsorted.filter MemberLabel.common)
    refine ⟨rest, ?_⟩
    rw [filter_filter] at hrest
    rw [hrest]
    congr 1; exact filter_congr fun r _ => Bool.and_comm _ _
  obtain ⟨rest, hrest⟩ := hprefix hsorted
  obtain ⟨rest', hrest'⟩ := hprefix hsorted'
  have hsame : labels.rows.filter (fun r => r.common && decide (r.availableAt ≤ d))
      = labels'.rows.filter (fun r => r.common && decide (r.availableAt ≤ d)) := hagree.filter_eq fun r hr => by
    rw [Bool.and_eq_true, decide_eq_true_eq] at hr; exact hr.2
  have hlength : k < (labels.rows.filter fun r => r.common && decide (r.availableAt ≤ d)).length := by
    unfold enoughLabels at henough
    rw [decide_eq_true_eq] at henough
    refine Nat.lt_of_succ_le (henough.trans (List.Sublist.length_le (monotone_filter_right _ fun r hr => ?_)))
    rw [Bool.and_eq_true] at hr ⊢
    exact ⟨hr.1, decide_eq_true ((timely_available hr.2).trans hcutoff)⟩
  rw [hrest, hrest', getElem?_append_left hlength, getElem?_append_left (hsame ▸ hlength), hsame]

end Availability

end Schedule

theorem selectMaturedTrainingReturns_agree {labels labels' : MaturedMemberReturns V m} {d cutoff : ℤ}
    {trainStart : Option ℤ} {train train' : List (MemberLabel V m)}
    (h : selectMaturedTrainingReturns labels cutoff trainStart = .ok train)
    (h' : selectMaturedTrainingReturns labels' cutoff trainStart = .ok train')
    (hagree : LabelsAgree d labels labels')
    (hle : cutoff ≤ d) : train = train' := by
  unfold selectMaturedTrainingReturns at h h'
  rw [bind_eq_ok] at h h'
  obtain ⟨_, -, h⟩ := h
  obtain ⟨_, -, h'⟩ := h'
  split at h
  next => cases h
  next hstart =>
    rw [if_neg hstart] at h'
    cases h
    cases h'
    refine hagree.filter_eq fun r hr => ?_
    simp only [Bool.and_eq_true] at hr; exact (timely_available hr.1.2).trans hle

end CryptoPilot.Lab
