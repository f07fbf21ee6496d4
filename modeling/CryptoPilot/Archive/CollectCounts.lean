/- # CollectCounts — what a run of `execute_plan` counts.

The counters are bumped while a month is gathered, and once more for each of its days after the
commit.  Whatever the workers do side by side, the days counted are the days started, each once. -/
import CryptoPilot.Archive.CollectRuns

namespace CryptoPilot.Archive

open CryptoPilot.Lib List Option
open CryptoPilot.Lib.Interleave (scriptOf)

variable {ρ σ : Type} [Timed ρ] [Timed σ]

/-! ## The counters of a run -/

/-- The fields of `state`. -/
inductive CountField where
  | ok
  | failed
  | absent
  | defective
  | pending
  deriving DecidableEq, Repr

variable (ρ σ) in
/-- What a worker does to the archive and to the counters; `committed` is a `commit_month` that
returned `None`. -/
inductive RunEvent where
  | started (plan : CollectionPlan) (days : List ℤ)
  | op (plan : CollectionPlan) (op : ArchiveOp ρ σ)
  | committed (plan : CollectionPlan) (month : Month)
  | bump (plan : CollectionPlan) (day : ℤ) (field : CountField)

/-- The field that `gather_month` bumps for a day; `recentCutoff` parts what is pending from what is
absent. -/
def gatherField (recentCutoff : ℤ) (w : MonthWork ρ σ) (day : ℤ) : Option CountField :=
  match w.env.fetched day with
  | .missing => some (if recentCutoff ≤ day then .pending else .absent)
  | .failed _ => some .failed
  | .defective _ _ => some (if w.env.appended day then .defective else .failed)
  | .derived _ =>
    match w.plan.sliceHours, w.env.stagingFails day with
    | some _, some _ => some .failed
    | _, _ => none

/-- The field that `run_month` bumps for an outcome. -/
def outcomeField (w : MonthWork ρ σ) (detail : Option String) (o : DayOutcome) : Option CountField :=
  match o.status, detail with
  | .failed, _ => none
  | .ok, some _ => some .failed
  | .ok, none => some (if w.env.appended o.day then .ok else .failed)

def dayEvents (plan : CollectionPlan) (day : ℤ) (ops : List (ArchiveOp ρ σ)) (field : Option CountField) :
    List (RunEvent ρ σ) :=
  ops.map (.op plan) ++ (field.map fun f => .bump plan day f).toList

def gatherEvents (recentCutoff : ℤ) (w : MonthWork ρ σ) (day : ℤ) : List (RunEvent ρ σ) :=
  dayEvents w.plan day (gatherDay w day {}).ops (gatherField recentCutoff w day)

def outcomeEvents (w : MonthWork ρ σ) (detail : Option String) (o : DayOutcome) : List (RunEvent ρ σ) :=
  dayEvents w.plan o.day (outcomeOps w detail o) (outcomeField w detail o)

/-- A month that `run_group` starts, and `run_month`. -/
def monthEvents (recentCutoff : ℤ) (isSealed : Sealed) (w : MonthWork ρ σ) (s : SymbolArchive ρ σ) :
    List (RunEvent ρ σ) :=
  let g := gatherMonth w w.days
  let commit := commitMonth isSealed w g s
  .started w.plan w.days :: (w.days.flatMap (gatherEvents recentCutoff w) ++ (commit.1.map (.op w.plan) ++
    ((if commit.2 = none then [.committed w.plan w.month] else []) ++ g.outcomes.flatMap
      (outcomeEvents w commit.2))))

/-- `run_symbol`. -/
def symbolEvents (recentCutoff : ℤ) (isSealed : Sealed) :
    List (MonthWork ρ σ) → SymbolArchive ρ σ → List (RunEvent ρ σ)
  | [], _ => []
  | w :: works, s =>
    monthEvents recentCutoff isSealed w s ++ symbolEvents recentCutoff isSealed works
      (Interleave.execute SymbolArchive.apply s (monthOps isSealed w s))

def runEvents (recentCutoff : ℤ) (plans : List (CollectionPlan × (Month → Option (MonthEnv ρ σ)))) (symbol : String)
    (s : SymbolArchive ρ σ) : List (RunEvent ρ σ) :=
  symbolEvents recentCutoff (sealedMonths s) (symbolWorks plans symbol) s

/-- `state` and `_started`. -/
structure RunState where
  ok : ℕ := 0
  failed : ℕ := 0
  absent : ℕ := 0
  defective : ℕ := 0
  pending : ℕ := 0
  started : ℕ := 0
  deriving DecidableEq, Repr

def RunState.bump (st : RunState) : CountField → RunState
  | .ok => { st with ok := st.ok + 1 }
  | .failed => { st with failed := st.failed + 1 }
  | .absent => { st with absent := st.absent + 1 }
  | .defective => { st with defective := st.defective + 1 }
  | .pending => { st with pending := st.pending + 1 }

def RunState.apply (st : RunState) : RunEvent ρ σ → RunState
  | .started _ days => { st with started := st.started + days.length }
  | .bump _ _ field => st.bump field
  | .op _ _ => st
  | .committed _ _ => st

structure CollectionReport where
  plannedDays : ℕ
  ok : ℕ
  failed : ℕ
  absent : ℕ
  defective : ℕ
  pending : ℕ
  remainingDays : ℕ
  deriving DecidableEq, Repr

def initialPending (plans : List CollectionPlan) : ℕ := (plans.map fun p => p.pendingDays.length).sum

/-- `run`, from what the workers did. -/
def runReport (plans : List CollectionPlan) (trace : List (String × RunEvent ρ σ)) : CollectionReport :=
  let total := (plans.map fun p => p.days.length).sum
  let final := (trace.map Prod.snd).foldl RunState.apply { pending := initialPending plans }
  { plannedDays := total, ok := final.ok, failed := final.failed, absent := final.absent
    defective := final.defective, pending := final.pending, remainingDays := total - final.started }

def RunEvent.counted : RunEvent ρ σ → List (CollectionPlan × ℤ)
  | .bump plan day _ => [(plan, day)]
  | _ => []

def RunEvent.startedDays : RunEvent ρ σ → List (CollectionPlan × ℤ)
  | .started plan days => days.map fun day => (plan, day)
  | _ => []

/-! ## A month -/

section Month

variable {recentCutoff : ℤ} {isSealed : Sealed} {w : MonthWork ρ σ} {s : SymbolArchive ρ σ}

section DayEvents

variable (plan : CollectionPlan) (day : ℤ) (ops : List (ArchiveOp ρ σ)) (field : Option CountField)

omit [Timed ρ] [Timed σ]

@[simp] theorem counted_dayEvents :
    (dayEvents plan day ops field).flatMap RunEvent.counted = (field.map fun _ => (plan, day)).toList := by
  cases field <;> simp [dayEvents, flatMap_map, RunEvent.counted]

@[simp] theorem startedDays_dayEvents : (dayEvents plan day ops field).flatMap RunEvent.startedDays = [] := by
  cases field <;> simp [dayEvents, flatMap_map, RunEvent.startedDays]

variable {plan day ops field} {plan' : CollectionPlan}

theorem bump_mem_dayEvents {day' : ℤ} {f : CountField} :
    .bump plan' day' f ∈ dayEvents plan day ops field ↔ plan' = plan ∧ day' = day ∧ field = some f := by
  cases field <;> simp [dayEvents, eq_comm]

theorem op_mem_dayEvents {o : ArchiveOp ρ σ} :
    .op plan' o ∈ dayEvents plan day ops field ↔ plan' = plan ∧ o ∈ ops := by
  cases field <;> simp [dayEvents, eq_comm, and_comm]

end DayEvents

def openDays (w : MonthWork ρ σ) (outcomes : List DayOutcome) : List (CollectionPlan × ℤ) :=
  (outcomes.filter fun o => o.status = .ok).map fun o => (w.plan, o.day)

theorem counted_gatherDay (day : ℤ) (later : Gathered ρ σ) :
    (gatherEvents recentCutoff w day).flatMap RunEvent.counted ++ openDays w (gatherDay w day later).outcomes
      = (w.plan, day) :: openDays w later.outcomes := by
  rw [gatherEvents]
  cases hfetch : w.env.fetched day with
  | derived d =>
    cases hwindow : w.plan.sliceHours with
    | none => simp [gatherField, gatherDay, hfetch, hwindow, openDays]
    | some window =>
      cases hstaging : w.env.stagingFails day <;> simp [gatherField, gatherDay, hfetch, hwindow, hstaging, openDays]
  | _ => simp [gatherField, gatherDay, hfetch, openDays]

theorem counted_gatherMonth (days : List ℤ) :
    ((days.flatMap (gatherEvents recentCutoff w)).flatMap RunEvent.counted ++
    openDays w (gatherMonth w days).outcomes).Perm (days.map fun day => (w.plan, day)) := by
  induction days with
  | nil => exact .refl _
  | cons day days ih =>
    have hfold : gatherMonth w (day :: days) = gatherDay w day (gatherMonth w days) := rfl
    rw [flatMap_cons, flatMap_append, hfold, append_assoc]
    refine (perm_append_comm.append_left _).trans ?_
    rw [← append_assoc, counted_gatherDay]; exact (perm_append_comm.trans ih).cons _

theorem counted_outcomeEvents (detail : Option String) (outcomes : List DayOutcome) :
    (outcomes.flatMap (outcomeEvents w detail)).flatMap RunEvent.counted = openDays w outcomes := by
  induction outcomes with
  | nil => rfl
  | cons o outcomes ih =>
    rw [flatMap_cons, flatMap_append, ih, outcomeEvents]
    cases hstatus : o.status <;> cases detail <;> simp [outcomeField, openDays, hstatus]

theorem startedDays_monthEvents : (monthEvents recentCutoff isSealed w s).flatMap RunEvent.startedDays
    = w.days.map fun day => (w.plan, day) := by
  rw [monthEvents]
  split <;> simp [RunEvent.startedDays, flatMap_assoc, flatMap_map, gatherEvents, outcomeEvents]

/-- **A month counts each of its days once.** -/
theorem counted_monthEvents : ((monthEvents recentCutoff isSealed w s).flatMap RunEvent.counted).Perm
    ((monthEvents recentCutoff isSealed w s).flatMap RunEvent.startedDays) := by
  have hmarker : (if (commitMonth isSealed w (gatherMonth w w.days) s).2 = none
      then [RunEvent.committed w.plan w.month] else []).flatMap (RunEvent.counted (ρ := ρ) (σ := σ)) = [] := by
    split <;> rfl
  have hops : ((commitMonth isSealed w (gatherMonth w w.days) s).1.map (RunEvent.op w.plan)).flatMap
      RunEvent.counted = [] := by
    simp [flatMap_map, RunEvent.counted]
  rw [startedDays_monthEvents, monthEvents, flatMap_cons, flatMap_append, flatMap_append,
    flatMap_append, hops, hmarker,
    counted_outcomeEvents]
  exact counted_gatherMonth w.days

/-- An `ok` row stands behind the commit of its month. -/
def RecordedOk (plan : CollectionPlan) (day : ℤ) (events : List (RunEvent ρ σ)) : Prop :=
  ∃ front row later, events = front ++ .op plan (.append plan.dataset row) :: later ∧ row.day = day ∧
    row.status = .ok ∧ .committed plan (monthOf day) ∈ front

theorem gatherField_ne_ok (day : ℤ) : gatherField recentCutoff w day ≠ some .ok := by
  rw [gatherField]
  split
  · split <;> simp
  · simp
  · split <;> simp
  · split <;> simp

theorem outcomeField_ok {o : DayOutcome} {detail : Option String} :
    outcomeField w detail o = some .ok ↔ o.status = .ok ∧ detail = none ∧ w.env.appended o.day = true := by
  cases hstatus : o.status <;> cases detail <;> simp [outcomeField, hstatus]

variable {dataset : ArchiveDataset}

theorem commitMonth_not_append {row : CoverageRow} {g : Gathered ρ σ} :
    .append dataset row ∉ (commitMonth isSealed w g s).1 := by
  have hwritten : ∀ written, writeDerived w g s = .ok written → .append dataset row ∉ written := by
    intro written h
    rw [writeDerived] at h
    split at h
    · cases h; exact not_mem_nil
    · split at h
      · cases h
      · split at h
        all_goals
          cases h
          try simp
  rw [commitMonth]
  split
  · exact not_mem_nil
  · cases h : writeDerived w g s with
    | error detail => exact not_mem_nil
    | ok written =>
      have hnot := hwritten written h
      dsimp only
      split
      · exact hnot
      · split
        · split <;> simp [hnot]
        · simp [hnot]

theorem mem_monthEvents {e : RunEvent ρ σ} (h : e ∈ monthEvents recentCutoff isSealed w s) :
    e = .started w.plan w.days ∨ (∃ day ∈ w.days, e ∈ gatherEvents recentCutoff w day) ∨
      (∃ o ∈ (commitMonth isSealed w (gatherMonth w w.days) s).1, e = .op w.plan o) ∨
      e = .committed w.plan w.month ∨
      ∃ o ∈ (gatherMonth w w.days).outcomes,
        e ∈ outcomeEvents w (commitMonth isSealed w (gatherMonth w w.days) s).2 o := by
  rcases mem_cons.mp h with h | h
  · exact .inl h
  rcases mem_append.mp h with h | h
  · exact .inr (.inl (mem_flatMap.mp h))
  rcases mem_append.mp h with h | h
  · obtain ⟨o, ho, rfl⟩ := mem_map.mp h; exact .inr (.inr (.inl ⟨o, ho, rfl⟩))
  rcases mem_append.mp h with h | h
  · split at h
    · exact .inr (.inr (.inr (.inl (mem_singleton.mp h))))
    · cases h
  · exact .inr (.inr (.inr (.inr (mem_flatMap.mp h))))

variable {plan : CollectionPlan}

/-- A day is counted `ok` with its row appended, and the month committed before. -/
theorem recordedOk_of_bump (hw : w.WellFormed) {day : ℤ}
    (h : .bump plan day .ok ∈ monthEvents recentCutoff isSealed w s) :
    RecordedOk plan day (monthEvents recentCutoff isSealed w s) := by
  obtain h | ⟨day', -, h⟩ | ⟨o, -, h⟩ | h | ⟨o, ho, h⟩ := mem_monthEvents h
  · cases h
  · exact absurd (bump_mem_dayEvents.mp h).2.2 (gatherField_ne_ok day')
  · cases h
  · cases h
  obtain ⟨rfl, rfl, hfield⟩ := bump_mem_dayEvents.mp h
  obtain ⟨hstatus, hnone, happended⟩ := outcomeField_ok.mp hfield
  obtain ⟨before, after, houtcomes⟩ := append_of_mem ho
  have hmonth : monthOf o.day = w.month := hw.inMonth _ ((gatherMonth_spec w w.days).outcomes o ho).1
  refine ⟨.started w.plan w.days :: (w.days.flatMap (gatherEvents recentCutoff w) ++
    ((commitMonth isSealed w (gatherMonth w w.days) s).1.map (.op w.plan) ++
      (.committed w.plan w.month :: before.flatMap (outcomeEvents w none)))),
    { dataset := w.plan.dataset.name, symbol := w.plan.symbol, day := o.day, status := .ok, rawSha256 := some o.info
      rows := o.rows, recordedAt := some (w.env.now o.day), detail := none },
    .bump w.plan o.day .ok :: after.flatMap (outcomeEvents w none), ?_, rfl, rfl, ?_⟩
  · simp [monthEvents, houtcomes, hnone, outcomeEvents, dayEvents, outcomeOps, recordOps, outcomeField, hstatus,
      happended]
  · rw [hmonth]; simp

theorem bump_of_append {row : CoverageRow}
    (h : .op plan (.append dataset row) ∈ monthEvents recentCutoff isSealed w s)
    (hok : row.status = .ok) :
    .bump plan row.day .ok ∈ monthEvents recentCutoff isSealed w s := by
  obtain h | ⟨day', -, h⟩ | ⟨o, ho, h⟩ | h | ⟨o, ho, h⟩ := mem_monthEvents h
  · cases h
  · -- the rows of `gather_month` are not `ok`
    exact absurd hok ((gatherMonth_spec w [day']).notes _ (op_mem_dayEvents.mp h).2).2.2
  · cases h; exact absurd ho commitMonth_not_append
  · cases h
  · obtain ⟨rfl, hop⟩ := op_mem_dayEvents.mp h
    obtain ⟨row', hrow', hday, happended, hrow⟩ := mem_outcomeOps hop
    cases hrow'
    obtain ⟨hstatus, hnone, -⟩ := hrow hok
    have hbump : .bump w.plan row.day .ok ∈ outcomeEvents w (commitMonth isSealed w (gatherMonth w w.days) s).2 o :=
      bump_mem_dayEvents.mpr ⟨rfl, hday, outcomeField_ok.mpr ⟨hstatus, hnone, happended⟩⟩
    exact mem_cons_of_mem _ (mem_append_right _ (mem_append_right _ (mem_append_right _
      (mem_flatMap.mpr ⟨o, ho, hbump⟩))))

end Month

/-! ## A symbol -/

section Symbol

variable {recentCutoff : ℤ} {isSealed : Sealed} {works : List (MonthWork ρ σ)} {s : SymbolArchive ρ σ}
variable {plans : List (CollectionPlan × (Month → Option (MonthEnv ρ σ)))} {plan : CollectionPlan} {day : ℤ}

theorem startedDays_symbolEvents : (symbolEvents recentCutoff isSealed works s).flatMap RunEvent.startedDays
    = works.flatMap fun w => w.days.map fun day => (w.plan, day) := by
  induction works generalizing s with
  | nil => rfl
  | cons w works ih => rw [symbolEvents, flatMap_append, startedDays_monthEvents, ih, flatMap_cons]

theorem counted_symbolEvents : ((symbolEvents recentCutoff isSealed works s).flatMap RunEvent.counted).Perm
    ((symbolEvents recentCutoff isSealed works s).flatMap RunEvent.startedDays) := by
  induction works generalizing s with
  | nil => exact .refl _
  | cons w works ih =>
    rw [symbolEvents, flatMap_append, flatMap_append]; exact counted_monthEvents.append ih

omit [Timed ρ] [Timed σ] in
theorem RecordedOk.append {events : List (RunEvent ρ σ)} (h : RecordedOk plan day events)
    (before after : List (RunEvent ρ σ)) : RecordedOk plan day (before ++ events ++ after) := by
  obtain ⟨front, row, later, rfl, hday, hok, hcommitted⟩ := h
  exact ⟨before ++ front, row, later ++ after, by simp, hday, hok, mem_append_right _ hcommitted⟩

theorem recordedOk_of_counted (hworks : ∀ w ∈ works, w.WellFormed)
    (h : .bump plan day .ok ∈ symbolEvents recentCutoff isSealed works s) :
    RecordedOk plan day (symbolEvents recentCutoff isSealed works s) := by
  induction works generalizing s with
  | nil => cases h
  | cons w works ih =>
    rw [symbolEvents] at h ⊢
    rcases mem_append.mp h with h | h
    · exact (recordedOk_of_bump (hworks w mem_cons_self) h).append [] _
    · have hrest := ih (fun w' hw' => hworks w' (mem_cons_of_mem w hw')) h
      simpa using hrest.append (monthEvents recentCutoff isSealed w s) []

theorem counted_of_appended {dataset : ArchiveDataset} {row : CoverageRow}
    (h : .op plan (.append dataset row) ∈ symbolEvents recentCutoff isSealed works s) (hok : row.status = .ok) :
    .bump plan row.day .ok ∈ symbolEvents recentCutoff isSealed works s := by
  induction works generalizing s with
  | nil => cases h
  | cons w works ih =>
    rcases mem_append.mp h with h | h
    · exact mem_append_left _ (bump_of_append h hok)
    · exact mem_append_right _ (ih h)

variable {env : Month → Option (MonthEnv ρ σ)}

theorem nodup_groupDays :
    ((groupWorks plan env).flatMap fun w => w.days.map fun day => (w.plan, day)).Nodup := by
  refine nodup_flatMap.mpr ⟨fun w hw => (wellFormed_groupWorks hw).nodup.map fun _ _ h => (Prod.mk.inj h).2, ?_⟩
  have hmonths : (groupWorks plan env).Pairwise fun w w' => w.month ≠ w'.month := by
    refine pairwise_filterMap.mpr (pairwise_map.mpr ((nodup_eraseDups _).imp ?_))
    intro month month' hne w hw w' hw'
    obtain ⟨e, -, rfl⟩ := map_eq_some_iff.mp hw
    obtain ⟨e', -, rfl⟩ := map_eq_some_iff.mp hw'; exact hne
  refine hmonths.imp_of_mem fun hw hw' hne x hx hx' => hne ?_
  obtain ⟨day, hday, rfl⟩ := mem_map.mp hx
  obtain ⟨day', hday', hsame⟩ := mem_map.mp hx'
  rw [← (wellFormed_groupWorks hw).inMonth day hday, ← (wellFormed_groupWorks hw').inMonth day' hday',
    (Prod.mk.inj hsame).2]

theorem plan_of_groupWorks {w : MonthWork ρ σ} (hw : w ∈ groupWorks plan env) :
    w.plan = plan ∧ ∀ day ∈ w.days, day ∈ plan.days := by
  obtain ⟨g, hg, hw⟩ := mem_filterMap.mp hw
  obtain ⟨month, -, rfl⟩ := mem_map.mp hg
  obtain ⟨e, -, rfl⟩ := map_eq_some_iff.mp hw
  refine ⟨rfl, fun day hday => ?_⟩
  exact mem_dedup.mp ((mem_insertionSort _).mp (mem_filter.mp hday).1)

theorem mem_startedDays {symbol : String}
    (h : (plan, day) ∈ (runEvents recentCutoff plans symbol s).flatMap RunEvent.startedDays) :
    plan.symbol = symbol ∧ plan ∈ plans.map Prod.fst ∧ day ∈ plan.days := by
  rw [runEvents, startedDays_symbolEvents] at h
  obtain ⟨w, hw, hday⟩ := mem_flatMap.mp h
  obtain ⟨p, hp, hgroup⟩ := mem_flatMap.mp hw
  obtain ⟨day', hday', hsame⟩ := mem_map.mp hday
  obtain ⟨hplan, hdays⟩ := plan_of_groupWorks hgroup
  cases hsame
  obtain ⟨hmem, hsymbol⟩ := mem_filter.mp hp
  rw [hplan]; exact ⟨of_decide_eq_true hsymbol, mem_map_of_mem hmem, hdays day hday'⟩

theorem nodup_startedDays (hplans : (plans.map Prod.fst).Nodup) (symbol : String) :
    ((runEvents recentCutoff plans symbol s).flatMap RunEvent.startedDays).Nodup := by
  rw [runEvents, startedDays_symbolEvents, symbolWorks, flatMap_assoc]
  refine nodup_flatMap.mpr ⟨fun p _ => nodup_groupDays, ?_⟩
  refine ((pairwise_map.mp hplans).filter _).imp fun hne x hx hx' => hne ?_
  have hof : ∀ {p : CollectionPlan × (Month → Option (MonthEnv ρ σ))},
      x ∈ (groupWorks p.1 p.2).flatMap (fun w => w.days.map fun day => (w.plan, day)) → x.1 = p.1 := by
    intro p hx
    obtain ⟨w, hw, hx⟩ := mem_flatMap.mp hx
    obtain ⟨day, -, rfl⟩ := mem_map.mp hx; exact (plan_of_groupWorks hw).1
  exact (hof hx).symm.trans (hof hx')

end Symbol

/-! ## All workers -/

section Workers

variable {recentCutoff : ℤ} {plans : List (CollectionPlan × (Month → Option (MonthEnv ρ σ)))}
variable {archive : String → SymbolArchive ρ σ} {trace : List (String × RunEvent ρ σ)}

/-- The workers of a run that returns did their scripts, side by side. -/
def Returned (recentCutoff : ℤ) (plans : List (CollectionPlan × (Month → Option (MonthEnv ρ σ))))
    (archive : String → SymbolArchive ρ σ) (trace : List (String × RunEvent ρ σ)) : Prop :=
  ∀ symbol, scriptOf symbol trace = runEvents recentCutoff plans symbol (archive symbol)

def countedDays (trace : List (String × RunEvent ρ σ)) : List (CollectionPlan × ℤ) :=
  (trace.map Prod.snd).flatMap RunEvent.counted

def startedDays (trace : List (String × RunEvent ρ σ)) : List (CollectionPlan × ℤ) :=
  (trace.map Prod.snd).flatMap RunEvent.startedDays

omit [Timed ρ] [Timed σ] in
theorem mem_script {e : RunEvent ρ σ} : e ∈ trace.map Prod.snd ↔ ∃ symbol, e ∈ scriptOf symbol trace := by
  constructor
  · intro h
    obtain ⟨⟨symbol, e⟩, he, rfl⟩ := mem_map.mp h
    exact ⟨symbol, mem_map.mpr ⟨(symbol, e), mem_filter.mpr ⟨he, decide_eq_true rfl⟩, rfl⟩⟩
  · rintro ⟨symbol, h⟩
    obtain ⟨x, hx, rfl⟩ := mem_map.mp h; exact mem_map_of_mem (mem_filter.mp hx).1

omit [Timed ρ] [Timed σ] in
theorem count_scripts (f : RunEvent ρ σ → List (CollectionPlan × ℤ)) (x : CollectionPlan × ℤ) :
    ((trace.map Prod.snd).flatMap f).count x
      = ∑ symbol ∈ (trace.map Prod.fst).toFinset, ((scriptOf symbol trace).flatMap f).count x := by
  have hin : ∀ e ∈ trace, e.1 ∈ (trace.map Prod.fst).toFinset := fun e he => mem_toFinset.mpr (mem_map_of_mem he)
  simp only [count_flatMap]; exact Interleave.sum_scriptOf _ hin

section

variable (h : Returned recentCutoff plans archive trace)

include h

theorem Returned.counted : (countedDays trace).Perm (startedDays trace) := by
  refine perm_iff_count.mpr fun x => ?_
  rw [countedDays, startedDays, count_scripts, count_scripts]
  refine Finset.sum_congr rfl fun symbol _ => ?_
  rw [h symbol]; exact counted_symbolEvents.count_eq x

theorem Returned.nodup (hplans : (plans.map Prod.fst).Nodup) : (startedDays trace).Nodup := by
  refine nodup_iff_count_le_one.mpr fun x => ?_
  rw [startedDays, count_scripts]
  have hother : ∀ symbol ∈ (trace.map Prod.fst).toFinset, symbol ≠ x.1.symbol →
      ((scriptOf symbol trace).flatMap RunEvent.startedDays).count x = 0 := by
    intro symbol _ hne
    rw [h symbol]; exact count_eq_zero_of_not_mem fun hx => hne (mem_startedDays hx).1.symm
  by_cases hin : x.1.symbol ∈ (trace.map Prod.fst).toFinset
  · rw [Finset.sum_eq_single x.1.symbol hother fun hout => absurd hin hout, h x.1.symbol]
    exact nodup_iff_count_le_one.mp (nodup_startedDays hplans _) x
  · rw [Finset.sum_eq_zero fun symbol hs => hother symbol hs fun heq => hin (heq ▸ hs)]
    exact Nat.zero_le 1

theorem Returned.started_le (hplans : (plans.map Prod.fst).Nodup) :
    (startedDays trace).length ≤ ((plans.map Prod.fst).map fun p => p.days.length).sum := by
  have hsub : startedDays trace ⊆ (plans.map Prod.fst).flatMap fun p => p.days.map fun day => (p, day) := by
    intro x hx
    obtain ⟨e, he, hxe⟩ := mem_flatMap.mp hx
    obtain ⟨symbol, hsymbol⟩ := mem_script.mp he
    rw [h symbol] at hsymbol
    obtain ⟨-, hplan, hday⟩ := mem_startedDays (mem_flatMap.mpr ⟨e, hsymbol, hxe⟩)
    exact mem_flatMap.mpr ⟨x.1, hplan, mem_map.mpr ⟨x.2, hday, rfl⟩⟩
  have hle := (subperm_of_subset (h.nodup hplans) hsub).length_le; simpa using hle

end

def RunState.sum (st : RunState) : ℕ := st.ok + st.failed + st.absent + st.defective + st.pending

omit [Timed ρ] [Timed σ] in
theorem sum_foldl (events : List (RunEvent ρ σ)) (st : RunState) :
    (events.foldl RunState.apply st).sum = st.sum + (events.flatMap RunEvent.counted).length ∧
      (events.foldl RunState.apply st).started = st.started + (events.flatMap RunEvent.startedDays).length := by
  induction events generalizing st with
  | nil => exact ⟨rfl, rfl⟩
  | cons e events ih =>
    obtain ⟨hsum, hstarted⟩ := ih (st.apply e)
    rw [foldl_cons, hsum, hstarted]
    cases e with
    | bump plan day field =>
      cases field <;> simp [RunState.apply, RunState.bump, RunState.sum, RunEvent.counted,
        RunEvent.startedDays] <;> omega
    | _ => simp [RunState.apply, RunState.sum, RunEvent.counted, RunEvent.startedDays] <;> omega

/-- **Collection accounting is exact**: the counters are the days started, each once, by their
outcomes. -/
theorem execute_plan_accounts (hplans : (plans.map Prod.fst).Nodup)
    (h : Returned recentCutoff plans archive trace) :
    let r := runReport (plans.map Prod.fst) trace
    ((r.ok + r.failed + r.absent + r.defective : ℕ) : ℤ) + (r.pending - initialPending (plans.map Prod.fst))
        = r.plannedDays - r.remainingDays ∧
      (countedDays trace).Nodup ∧ (∀ x, x ∈ countedDays trace ↔ x ∈ startedDays trace) ∧
      ∀ plan day, .bump plan day .ok ∈ trace.map Prod.snd ↔ RecordedOk plan day (trace.map Prod.snd) := by
  refine ⟨?_, (h.counted.nodup_iff).mpr (h.nodup hplans), fun x => h.counted.mem_iff,
    fun plan day => ⟨fun hbump => ?_, ?_⟩⟩
  · obtain ⟨hsum, hstarted⟩ := sum_foldl (trace.map Prod.snd) { pending := initialPending (plans.map Prod.fst) }
    have hcounted : ((trace.map Prod.snd).flatMap RunEvent.counted).length
        = ((trace.map Prod.snd).flatMap RunEvent.startedDays).length := h.counted.length_eq
    have hle := h.started_le hplans
    rw [startedDays] at hle
    simp only [RunState.sum, Nat.zero_add] at hsum hstarted
    dsimp only [runReport]; omega
  · obtain ⟨symbol, hscript⟩ := mem_script.mp hbump
    rw [h symbol] at hscript
    obtain ⟨front, row, later, hevents, hday, hok, hcommitted⟩ :=
      recordedOk_of_counted (wellFormed_symbolWorks plans symbol) hscript
    obtain ⟨front', later', rfl, hfront⟩ := Interleave.scriptOf_eq_append ((h symbol).trans hevents)
    refine ⟨front'.map Prod.snd, row, later'.map Prod.snd, by simp, hday, hok, mem_script.mpr ⟨symbol, ?_⟩⟩
    rw [hfront]; exact hcommitted
  · rintro ⟨front, row, later, hevents, rfl, hok, -⟩
    have happended : .op plan (.append plan.dataset row) ∈ trace.map Prod.snd := by
      rw [hevents]; exact mem_append_right _ mem_cons_self
    obtain ⟨symbol, hscript⟩ := mem_script.mp happended
    rw [h symbol] at hscript
    refine mem_script.mpr ⟨symbol, ?_⟩
    rw [h symbol]; exact counted_of_appended hscript hok

def sampleTrace : List (String × RunEvent SampleRow SampleRow) :=
  (runEvents 20500 [samplePlan 1] "BTCUSDT" .empty).map fun e => ("BTCUSDT", e)

theorem execute_plan_accounts_sample :
    (countedDays sampleTrace).Nodup ∧ (runReport [(samplePlan 1).1] sampleTrace).ok = 1 := by
  have hreturned : Returned 20500 [samplePlan 1] (fun _ => .empty) sampleTrace := by
    intro symbol
    by_cases h : "BTCUSDT" = symbol
    · subst h; simp [sampleTrace, scriptOf, List.filter_map, Function.comp_def]
    · have hevents : runEvents 20500 [samplePlan 1] symbol .empty = [] := by
        simp [runEvents, symbolWorks, samplePlan, symbolEvents, h]
      rw [hevents]; simp [sampleTrace, scriptOf, List.filter_map, Function.comp_def, h]
  have hplans : ([samplePlan 1].map Prod.fst).Nodup := nodup_singleton _
  exact ⟨(execute_plan_accounts hplans hreturned).2.1, by decide +kernel⟩

end Workers

end CryptoPilot.Archive
