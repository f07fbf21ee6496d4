/- # Journal — the research journal and its transactions.

The journal is one SQLite file that several processes open.  Each function below is what one call
does between its `BEGIN` and its `commit`: it returns the tables behind the commit, or raises and
leaves them as they were. -/
import Mathlib.Data.List.Lemmas
import Mathlib.Data.Option.Basic
import CryptoPilot.Lib.Effect
import CryptoPilot.Lib.Timeline

namespace CryptoPilot.Research

open CryptoPilot.Lib

abbrev Stamp : Type := ℤ

def dayNs : ℤ := 86400000000000

/-- `Timestamp.normalize`: the midnight at or before. -/
def Stamp.normalize (t : Stamp) : Stamp := t / dayNs * dayNs

/-- `_HEX64.fullmatch`. -/
def isHex64 (text : String) : Bool :=
  text.toList.length == 64 && text.toList.all fun c => ('0' ≤ c && c ≤ '9') || ('a' ≤ c && c ≤ 'f')

abbrev Digest : Type := { text : String // isHex64 text = true }

def zeroDigest : Digest := ⟨String.ofList (List.replicate 64 '0'), by decide⟩

/-- The budgets of `ValidationInferenceSpec`. -/
structure ValidationInferenceSpec where
  procedureBudget : ℤ
  lookBudget : ℤ
  endpointBudget : ℤ
  deriving DecidableEq, Repr

/-- `ProcessProcedureDefinition`: what the journal reads of it, and the rest. -/
structure ProcessProcedureDefinition (τ : Type) where
  codeDigest : String
  inference : ValidationInferenceSpec
  terms : τ

inductive Role where
  | historical
  | forward
  deriving DecidableEq, Repr

/-- `ProcessEvaluationPlan`, with what its `__post_init__` checks. -/
structure ProcessEvaluationPlan (τ : Type) where
  role : Role
  procedure : ProcessProcedureDefinition τ
  procedureDigest : Digest
  familyId : String
  lookEndpoints : List Stamp
  registrationDigest : Option Digest
  judgingStart : Option Stamp
  family_nonempty : familyId ≠ ""
  endpoints_nonempty : lookEndpoints ≠ []
  endpoints_increasing : lookEndpoints.Pairwise (· < ·)
  endpoints_follow : ∀ start ∈ judgingStart, ∀ endpoint ∈ lookEndpoints, start < endpoint
  forward_starts : role = .forward → judgingStart.isSome = true

structure Registration where
  endpointBudget : ℤ
  familyId : String
  judgingStart : Option Stamp
  lookBudget : ℤ
  lookEndpoints : List Stamp
  procedureBudget : ℤ
  procedureDigest : Digest
  registeredAt : Stamp

/-- SHA-256 of the canonical JSON text of a procedure and of a registration. -/
structure Hashes (τ : Type) where
  procedure : ProcessProcedureDefinition τ → Digest
  registration : Registration → Digest

/-- What the journal's functions raise: its own exceptions, `sqlite3.IntegrityError`, a failed
`assert`, and whatever else ends a call. -/
inductive JournalExc where
  | dataIntegrity (message : String)
  | integrity
  | assertion
  | interrupted
  deriving DecidableEq, Repr

/-- `EvaluationContext`, with what its `__post_init__` checks. -/
structure EvaluationContext where
  role : Role
  procedureDigest : Digest
  codeDigest : String
  intervalStart : Stamp
  intervalEnd : Stamp
  registeredAt : Option Stamp
  consultedThrough : Stamp
  familyId : String
  lookOrdinal : Option ℕ
  inferenceSpec : ValidationInferenceSpec
  journalComplete : Bool
  observedThrough : Stamp
  interval_nonempty : intervalStart < intervalEnd

/-! ## The tables -/

structure FamilyRow where
  familyId : String
  procedureDigest : Digest
  procedureBudget : ℤ
  lookBudget : ℤ
  endpointBudget : ℤ
  lookEndpoints : List Stamp
  judgingStart : Option Stamp
  registeredAt : Stamp
  registrationDigest : Digest

inductive ConsultationSource where
  | cache
  | legacy
  | external
  | attempt
  deriving DecidableEq, Repr

structure ConsultationRow where
  procedureDigest : Option String
  start : Stamp
  «end» : Stamp
  recordedAt : Stamp
  source : ConsultationSource
  resultDigest : Option String

structure AttemptRow where
  attemptId : String
  familyId : String
  role : Role
  procedureDigest : Digest
  lookOrdinal : Option ℕ
  endpoint : Option Stamp
  requestedStart : Stamp
  requestedEnd : Stamp
  reservedAt : Stamp
  preReadConsulted : Stamp
  context : EvaluationContext

inductive AttemptStatus where
  | completed
  | failed
  | interrupted
  deriving DecidableEq, Repr

structure OutcomeRow where
  attemptId : String
  status : AttemptStatus
  resultDigest : Option String
  finishedAt : Stamp

structure PlanRow (τ : Type) where
  registrationDigest : Digest
  familyId : String
  role : Role
  procedureDigest : Digest
  canonical : ProcessEvaluationPlan τ
  createdAt : Stamp

/-- The journal file: whether it is there, the three rows of `meta`, and the other tables in row
order. -/
structure ResearchJournal (τ : Type) where
  created : Bool
  schemaVersion : Option String
  consultedThrough : Option Stamp
  journalComplete : Option String
  procedures : List (Digest × Registration)
  families : List FamilyRow
  consultations : List ConsultationRow
  attempts : List AttemptRow
  outcomes : List OutcomeRow
  plans : List (PlanRow τ)

def ResearchJournal.absent {τ : Type} : ResearchJournal τ :=
  ⟨false, none, none, none, [], [], [], [], [], []⟩

variable {τ : Type} (hashes : Hashes τ) (db : ResearchJournal τ)

/-- `JOURNAL_SCHEMA_VERSION`, as the text in `meta`. -/
def journalSchemaVersion : String := "1"

/-- `_require_file` and `_require_journal`. -/
def requireJournal : Except JournalExc Unit :=
  if db.created = false then .error (.dataIntegrity "research journal is missing")
  else if db.schemaVersion = some journalSchemaVersion then .ok ()
  else .error (.dataIntegrity "research journal is incompatible or corrupt")

def consultedEnds : List Stamp := db.consultations.map ConsultationRow.end ++ db.attempts.map
    AttemptRow.requestedEnd

/-- The stored boundary, read back by `_parse_ts`. -/
def storedHorizon : Except JournalExc Stamp :=
  match db.consultedThrough with
  | some latest => .ok latest
  | none => .error (.dataIntegrity "consulted horizon is corrupt: 'None'")

def lockedHorizon : Except JournalExc Stamp := do
  let latest ← storedHorizon db
  return (consultedEnds db).foldl max latest

def consultedProcessHorizon : Except JournalExc Stamp := do
  requireJournal db
  lockedHorizon db

/-- `UPDATE meta SET value=? WHERE key='consulted_through'`. -/
def ResearchJournal.setConsulted (t : Stamp) : ResearchJournal τ :=
  { db with consultedThrough := db.consultedThrough.map fun _ => t }

/-! ## `initialize_research_journal` -/

/-- `MHS_FINAL_OOS_CUTOFF_2026H1`. -/
def mhsFinalOosCutoff : Stamp := 1782863999000000000

/-- The arguments of `initialize_research_journal`. -/
structure InitializeArgs where
  now : Stamp
  legacyConsultedThrough : Stamp
  legacyHistoryComplete : Bool

def insertMeta (args : InitializeArgs) : Except JournalExc (ResearchJournal τ) :=
  if db.schemaVersion.isSome || db.consultedThrough.isSome || db.journalComplete.isSome then .error .integrity
  else
    let horizon :=
      if args.legacyHistoryComplete then args.legacyConsultedThrough
      else max (max args.legacyConsultedThrough mhsFinalOosCutoff) args.now
    .ok { db with
      schemaVersion := some journalSchemaVersion
      consultedThrough := some horizon
      journalComplete := some (if args.legacyHistoryComplete then "1" else "0") }

/-- The transaction of the other branch, with the boundary that was read before it. -/
def advanceMeta (stored : Stamp) (args : InitializeArgs) : ResearchJournal τ :=
  let advanced := if args.legacyConsultedThrough ≤ stored then stored else args.legacyConsultedThrough
  if advanced ≠ stored then db.setConsulted advanced else db

/-! ## `record_research_consultation` -/

/-- The arguments of `record_research_consultation`. -/
structure ConsultationArgs where
  procedureDigest : Option String
  start : Stamp
  «end» : Stamp
  now : Stamp
  source : ConsultationSource
  resultDigest : Option String

def ConsultationArgs.check (args : ConsultationArgs) : Except JournalExc Unit :=
  if ¬ args.start < args.end then .error (.dataIntegrity "consulted interval must be non-empty")
  else if args.source = .attempt then .error (.dataIntegrity "invalid consultation source 'attempt'")
  else if args.procedureDigest = some "" then
    .error (.dataIntegrity "procedure_digest must be a nonempty identity or None")
  else if args.resultDigest = some "" then
    .error (.dataIntegrity "result_digest must be a nonempty identity or None")
  else .ok ()

def recordConsultation (args : ConsultationArgs) : Except JournalExc (ResearchJournal τ) := do
  let row : ConsultationRow :=
    ⟨args.procedureDigest, args.start, args.end, args.now, args.source, args.resultDigest⟩
  let inserted := { db with consultations := db.consultations ++ [row] }
  let stored ← storedHorizon inserted
  let advanced := if args.end ≤ stored then stored else args.end
  return if advanced ≠ stored then inserted.setConsulted advanced else inserted

/-! ## `persist_process_registration` -/

def checkPersist (plan : ProcessEvaluationPlan τ) : Except JournalExc Unit :=
  if hashes.procedure plan.procedure ≠ plan.procedureDigest then
    .error (.dataIntegrity "procedure digest does not match the sealed definition")
  else if plan.registrationDigest.isSome then .error (.dataIntegrity "plan is already registered")
  else .ok ()

/-- `SELECT ... FROM families WHERE family_id=?`. -/
def familyOf (familyId : String) : Option FamilyRow := db.families.find? fun row => row.familyId = familyId

def sealedColumns (row : FamilyRow) (plan : ProcessEvaluationPlan τ) : Bool :=
  decide (row.procedureDigest = plan.procedureDigest)
    && decide (row.procedureBudget = plan.procedure.inference.procedureBudget)
    && decide (row.lookBudget = plan.procedure.inference.lookBudget)
    && decide (row.endpointBudget = plan.procedure.inference.endpointBudget)
    && decide (row.lookEndpoints = plan.lookEndpoints)

def registrationOf (plan : ProcessEvaluationPlan τ) (now : Stamp) : Registration where
  endpointBudget := plan.procedure.inference.endpointBudget
  familyId := plan.familyId
  judgingStart := plan.judgingStart
  lookBudget := plan.procedure.inference.lookBudget
  lookEndpoints := plan.lookEndpoints
  procedureBudget := plan.procedure.inference.procedureBudget
  procedureDigest := plan.procedureDigest
  registeredAt := now

def familyRow (plan : ProcessEvaluationPlan τ) (now : Stamp) (registrationDigest : Digest) : FamilyRow where
  familyId := plan.familyId
  procedureDigest := plan.procedureDigest
  procedureBudget := plan.procedure.inference.procedureBudget
  lookBudget := plan.procedure.inference.lookBudget
  endpointBudget := plan.procedure.inference.endpointBudget
  lookEndpoints := plan.lookEndpoints
  judgingStart := plan.judgingStart
  registeredAt := now
  registrationDigest := registrationDigest

/-- `dataclasses.replace(plan, registration_digest=...)`. -/
def ProcessEvaluationPlan.registered (plan : ProcessEvaluationPlan τ) (digest : Digest) : ProcessEvaluationPlan τ :=
  { plan with registrationDigest := some digest }

def persistRegistration (plan : ProcessEvaluationPlan τ) (now : Stamp) :
    Except JournalExc (ProcessEvaluationPlan τ × ResearchJournal τ) :=
  match familyOf db plan.familyId with
  | some row =>
    if sealedColumns row plan then .ok (plan.registered row.registrationDigest, db)
    else .error (.dataIntegrity s!"family {plan.familyId} is already sealed under a different definition")
  | none =>
    let payload := registrationOf plan now
    let digest := hashes.registration payload
    if db.plans.any fun row => row.registrationDigest = digest then .error .integrity
    else .ok (plan.registered digest, { db with
      procedures :=
        if db.procedures.any fun row => row.1 = plan.procedureDigest then db.procedures
        else db.procedures ++ [(plan.procedureDigest, payload)]
      families := db.families ++ [familyRow plan now digest]
      plans := db.plans ++
        [⟨digest, plan.familyId, plan.role, plan.procedureDigest, plan.registered digest, now⟩] })

/-! ## `reserve_research_attempt` -/

/-- What `_forward_look_slot` returns. -/
structure LookSlot where
  judgingStart : Stamp
  endpoint : Stamp
  lookOrdinal : ℕ
  registeredAt : Stamp

def nextOrdinal (familyId : String) : ℕ := (db.attempts.filter fun row => row.familyId = familyId).length + 1

/-- The start of a look: the plan's, or the day behind the endpoint before. -/
def lookStart (schedule : List Stamp) (planStart : Stamp) : ℕ → Stamp
  | k + 2 => Stamp.normalize (schedule.getD k 0) + dayNs
  | _ => planStart

def forwardLookSlot (plan : ProcessEvaluationPlan τ) (endUtc horizon : Stamp) : Except JournalExc LookSlot :=
  match familyOf db plan.familyId with
  | none => .error (.dataIntegrity s!"family {plan.familyId} is not registered")
  | some family =>
    if ¬ (sealedColumns family plan ∧ plan.registrationDigest = some family.registrationDigest) then
      .error (.dataIntegrity s!"family {plan.familyId} does not match the registered procedure")
    else if (nextOrdinal db plan.familyId : ℤ) > plan.procedure.inference.lookBudget then
      .error (.dataIntegrity "formal look budget is exhausted")
    else
      match family.lookEndpoints[nextOrdinal db plan.familyId - 1]? with
      | none => .error (.dataIntegrity "formal look schedule is exhausted")
      | some endpoint =>
        if ¬ endUtc ≤ endpoint then
          .error (.dataIntegrity "requested evidence exceeds the permitted look endpoint")
        else
          match plan.judgingStart with
          | none => .error .assertion
          | some planStart =>
            let judgingStart := lookStart family.lookEndpoints planStart (nextOrdinal db plan.familyId)
            if family.registeredAt < judgingStart ∧ horizon < judgingStart then
              .ok ⟨judgingStart, endpoint, nextOrdinal db plan.familyId, family.registeredAt⟩
            else .error (.dataIntegrity "judging interval is already consulted")

/-- The arguments of `reserve_research_attempt` beside the plan. -/
structure ReserveArgs where
  start : Stamp
  «end» : Stamp
  now : Stamp
  attemptId : String

def checkReserve (plan : ProcessEvaluationPlan τ) (args : ReserveArgs) : Except JournalExc Unit :=
  if ¬ args.start < args.end then .error (.dataIntegrity "requested interval must be non-empty")
  else if args.attemptId = "" then .error (.dataIntegrity "attempt_id must be a nonempty identity")
  else if hashes.procedure plan.procedure ≠ plan.procedureDigest then
    .error (.dataIntegrity "procedure digest does not match the sealed definition")
  else .ok ()

def judgingStartOf (plan : ProcessEvaluationPlan τ) (args : ReserveArgs) (horizon : Stamp) :
    Except JournalExc (Stamp × Option LookSlot) :=
  match plan.role with
  | .historical =>
    let judgingStart := plan.judgingStart.getD args.start
    if judgingStart < args.end then .ok (judgingStart, none)
    else .error (.dataIntegrity "historical judging interval must be non-empty")
  | .forward => do
    let slot ← forwardLookSlot db plan args.end horizon
    return (slot.judgingStart, some slot)

def attemptRow (plan : ProcessEvaluationPlan τ) (args : ReserveArgs) (horizon : Stamp) (slot : Option LookSlot)
    (context : EvaluationContext) : AttemptRow where
  attemptId := args.attemptId
  familyId := plan.familyId
  role := plan.role
  procedureDigest := plan.procedureDigest
  lookOrdinal := slot.map LookSlot.lookOrdinal
  endpoint := slot.map LookSlot.endpoint
  requestedStart := args.start
  requestedEnd := args.end
  reservedAt := args.now
  preReadConsulted := horizon
  context := context

def reserveRows (plan : ProcessEvaluationPlan τ) (args : ReserveArgs) (horizon : Stamp) (slot : Option LookSlot)
    (context : EvaluationContext) : ResearchJournal τ :=
  let inserted := { db with
    consultations := db.consultations ++
      [⟨some plan.procedureDigest.val, args.start, args.end, args.now, .attempt, none⟩]
    attempts := db.attempts ++ [attemptRow plan args horizon slot context] }
  if args.end > horizon then inserted.setConsulted args.end else inserted

structure ResearchAttempt where
  attemptId : String
  context : EvaluationContext
  reservedAt : Stamp
  preReadConsultedThrough : Stamp
  requestedStart : Stamp
  requestedEnd : Stamp

def contextOf (plan : ProcessEvaluationPlan τ) (args : ReserveArgs) (horizon judgingStart : Stamp)
    (slot : Option LookSlot) (h : judgingStart < args.end) : EvaluationContext where
  role := plan.role
  procedureDigest := plan.procedureDigest
  codeDigest := plan.procedure.codeDigest
  intervalStart := judgingStart
  intervalEnd := args.end
  registeredAt := slot.map LookSlot.registeredAt
  consultedThrough := horizon
  familyId := plan.familyId
  lookOrdinal := slot.map LookSlot.lookOrdinal
  inferenceSpec := plan.procedure.inference
  journalComplete := decide (db.journalComplete = some "1")
  observedThrough := args.now
  interval_nonempty := h

def reserveAttempt (plan : ProcessEvaluationPlan τ) (args : ReserveArgs) :
    Except JournalExc (ResearchAttempt × ResearchJournal τ) :=
  if db.attempts.any fun row => row.attemptId = args.attemptId then
    .error (.dataIntegrity s!"attempt {args.attemptId} is already reserved")
  else do
    let horizon ← lockedHorizon db
    let (judgingStart, slot) ← judgingStartOf db plan args horizon
    if h : judgingStart < args.end then
      let context := contextOf db plan args horizon judgingStart slot h
      .ok (⟨args.attemptId, context, args.now, horizon, args.start, args.end⟩,
        reserveRows db plan args horizon slot context)
    else .error (.dataIntegrity "evidence interval must be non-empty")

/-! ## `finish_research_attempt` -/

/-- The arguments of `finish_research_attempt`. -/
structure FinishArgs where
  attempt : ResearchAttempt
  status : AttemptStatus
  resultDigest : Option String
  now : Stamp

def FinishArgs.check (args : FinishArgs) : Except JournalExc Unit :=
  if args.resultDigest = some "" then .error (.dataIntegrity "result_digest must be a nonempty identity or None")
  else if args.status = .completed ∧ args.resultDigest = none then
    .error (.dataIntegrity "completed attempts must carry a result digest")
  else .ok ()

def AttemptRow.matches (row : AttemptRow) (attempt : ResearchAttempt) : Bool :=
  decide (row.familyId = attempt.context.familyId) && decide (row.role = attempt.context.role)
    && decide (row.procedureDigest = attempt.context.procedureDigest)
    && decide (row.requestedStart = attempt.requestedStart) && decide (row.requestedEnd = attempt.requestedEnd)
    && decide (row.reservedAt = attempt.reservedAt)

/-- The first `SELECT`: the reservation is there and is this one. -/
def findReservation (args : FinishArgs) : Except JournalExc Unit :=
  match db.attempts.find? fun row => row.attemptId = args.attempt.attemptId with
  | none => .error (.dataIntegrity s!"attempt {args.attempt.attemptId} was never reserved")
  | some row =>
    if row.matches args.attempt then .ok ()
    else .error (.dataIntegrity s!"attempt {args.attempt.attemptId} does not match the reservation")

/-- The second `SELECT`: whether an outcome is there already, which must be the same one. -/
def findOutcome (args : FinishArgs) : Except JournalExc Bool :=
  match db.outcomes.find? fun row => row.attemptId = args.attempt.attemptId with
  | none => .ok false
  | some row =>
    if row.status = args.status ∧ row.resultDigest = args.resultDigest then .ok true
    else .error (.dataIntegrity s!"conflicting outcome for attempt {args.attempt.attemptId}")

def insertOutcome (args : FinishArgs) : Except JournalExc (ResearchJournal τ) :=
  if db.outcomes.any fun row => row.attemptId = args.attempt.attemptId then .error .integrity
  else .ok { db with outcomes := db.outcomes ++
    [⟨args.attempt.attemptId, args.status, args.resultDigest, args.now⟩] }

/-! ## What a transaction leaves behind -/

section Specs

variable {hashes} {db} {db' : ResearchJournal τ} {plan sealedPlan : ProcessEvaluationPlan τ} {now horizon : Stamp}

theorem storedHorizon_eq_ok {stored : Stamp} :
    storedHorizon db = .ok stored ↔ db.consultedThrough = some stored := by
  unfold storedHorizon
  cases db.consultedThrough <;> simp

theorem requireJournal_eq_ok :
    requireJournal db = .ok () ↔ db.created = true ∧ db.schemaVersion = some journalSchemaVersion := by
  unfold requireJournal
  by_cases hc : db.created = false <;> by_cases hv : db.schemaVersion = some journalSchemaVersion <;> simp_all

theorem lockedHorizon_eq_ok :
    lockedHorizon db = .ok horizon ↔
      ∃ stored, db.consultedThrough = some stored ∧ (consultedEnds db).foldl max stored = horizon := by
  unfold lockedHorizon
  rw [bind_eq_ok]; simp only [storedHorizon_eq_ok, pure_eq_ok]

theorem lockedHorizon_ge (h : lockedHorizon db = .ok horizon) :
    (∀ c ∈ db.consultations, c.end ≤ horizon) ∧ ∀ a ∈ db.attempts, a.requestedEnd ≤ horizon := by
  obtain ⟨stored, _, rfl⟩ := lockedHorizon_eq_ok.mp h
  have hend : ∀ e ∈ consultedEnds db, e ≤ (consultedEnds db).foldl max stored := fun e he => le_foldl_max_of_mem he
  constructor
  · intro c hc; exact hend _ (List.mem_append_left _ (List.mem_map_of_mem hc))
  · intro a ha; exact hend _ (List.mem_append_right _ (List.mem_map_of_mem ha))

theorem insertMeta_ok {args : InitializeArgs} (h : insertMeta db args = .ok db') :
    db.schemaVersion = none ∧ ∃ first complete, args.legacyConsultedThrough ≤ first ∧ db' = { db with
      schemaVersion := some journalSchemaVersion, consultedThrough :=
        some first, journalComplete := complete } := by
  unfold insertMeta at h
  split at h
  · cases h
  · next hfresh =>
    have hnone : db.schemaVersion = none := by
      cases hv : db.schemaVersion with
      | none => rfl
      | some v => simp [hv] at hfresh
    refine ⟨hnone, _, _, ?_, (Except.ok.inj h).symm⟩
    split
    · exact le_rfl
    · exact (le_max_left _ _).trans (le_max_left _ _)

theorem advanceMeta_eq (stored : Stamp) (args : InitializeArgs) :
    advanceMeta db stored args =
      if stored < args.legacyConsultedThrough then db.setConsulted args.legacyConsultedThrough else db := by
  unfold advanceMeta
  by_cases h : stored < args.legacyConsultedThrough
  · have hne : args.legacyConsultedThrough ≠ stored := ne_of_gt h; simp [not_le.mpr h, hne, h]
  · simp [not_lt.mp h, h]

theorem recordConsultation_ok {args : ConsultationArgs} (h : recordConsultation db args = .ok db') :
    ∃ row stored, row.end = args.end ∧ db.consultedThrough = some stored ∧ db' = { db with
      consultations := db.consultations ++ [row], consultedThrough := some (max stored args.end) } := by
  obtain ⟨stored, hstored, h⟩ := bind_eq_ok.mp h
  rw [storedHorizon_eq_ok] at hstored
  change db.consultedThrough = some stored at hstored
  rw [pure_eq_ok] at h
  refine ⟨⟨args.procedureDigest, args.start, args.end, args.now, args.source, args.resultDigest⟩, stored, rfl,
    hstored, ?_⟩
  rw [← h]
  by_cases hle : args.end ≤ stored
  · simp [hle, hstored]
  · have hlt := not_le.mp hle
    simp [hle, ne_of_gt hlt, max_eq_right hlt.le, ResearchJournal.setConsulted, hstored]

theorem persistRegistration_ok (h : persistRegistration hashes db plan now = .ok (sealedPlan, db')) :
    (∃ row, familyOf db plan.familyId = some row ∧ sealedColumns row plan = true
        ∧ sealedPlan = plan.registered row.registrationDigest ∧ db' = db)
      ∨ (familyOf db plan.familyId = none ∧ ∃ digest procedures, sealedPlan = plan.registered digest
        ∧ db' = { db with
            procedures := procedures
            families := db.families ++ [familyRow plan now digest]
            plans := db.plans ++
              [⟨digest, plan.familyId, plan.role, plan.procedureDigest, plan.registered digest, now⟩] }) := by
  unfold persistRegistration at h
  split at h
  next row hrow =>
    split at h
    next hcolumns =>
      cases h; exact .inl ⟨row, hrow, hcolumns, rfl, rfl⟩
    next => cases h
  next hnone =>
    dsimp only at h
    split at h
    next => cases h
    next =>
      cases h; exact .inr ⟨hnone, _, _, rfl, rfl⟩

structure Granted (db : ResearchJournal τ) (plan : ProcessEvaluationPlan τ) (endUtc horizon : Stamp)
    (slot : LookSlot) (family : FamilyRow) (planStart : Stamp) : Prop where
  found : familyOf db plan.familyId = some family
  columns : sealedColumns family plan = true
  registration : plan.registrationDigest = some family.registrationDigest
  ordinal : slot.lookOrdinal = nextOrdinal db plan.familyId
  budget : (slot.lookOrdinal : ℤ) ≤ plan.procedure.inference.lookBudget
  endpoint : family.lookEndpoints[slot.lookOrdinal - 1]? = some slot.endpoint
  ends : endUtc ≤ slot.endpoint
  planStarts : plan.judgingStart = some planStart
  starts : slot.judgingStart = lookStart family.lookEndpoints planStart slot.lookOrdinal
  registered : slot.registeredAt = family.registeredAt
  registeredBefore : family.registeredAt < slot.judgingStart
  unseen : horizon < slot.judgingStart

theorem forwardLookSlot_ok {endUtc : Stamp} {slot : LookSlot}
    (h : forwardLookSlot db plan endUtc horizon = .ok slot) :
    ∃ family planStart, Granted db plan endUtc horizon slot family planStart := by
  unfold forwardLookSlot at h
  split at h
  next => cases h
  next family hfound =>
    split at h
    next => cases h
    next hmatch =>
      obtain ⟨hcolumns, hregistration⟩ := not_not.mp hmatch
      split at h
      next => cases h
      next hbudget =>
        split at h
        next => cases h
        next endpoint hendpoint =>
          split at h
          next => cases h
          next hends =>
            split at h
            next => cases h
            next planStart hstart =>
              dsimp only at h
              split at h
              next hbefore =>
                cases h
                exact ⟨family, planStart, hfound, hcolumns, hregistration, rfl, not_lt.mp hbudget, hendpoint,
                  not_not.mp hends, hstart, rfl, rfl, hbefore.1, hbefore.2⟩
              next => cases h

theorem reserveAttempt_ok {args : ReserveArgs} {attempt : ResearchAttempt}
    (h : reserveAttempt db plan args = .ok (attempt, db')) :
    ∃ horizon judgingStart slot hstart, lockedHorizon db = .ok horizon
      ∧ judgingStartOf db plan args horizon = .ok (judgingStart, slot)
      ∧ db' = reserveRows db plan args horizon slot (contextOf db plan args horizon judgingStart slot hstart) := by
  unfold reserveAttempt at h
  split at h
  next => cases h
  next =>
    obtain ⟨horizon, hhorizon, h⟩ := bind_eq_ok.mp h
    obtain ⟨⟨judgingStart, slot⟩, hslot, h⟩ := bind_eq_ok.mp h
    dsimp only at h
    split at h
    next hstart =>
      cases h; exact ⟨horizon, judgingStart, slot, hstart, hhorizon, hslot, rfl⟩
    next => cases h

theorem judgingStartOf_forward {args : ReserveArgs} {judgingStart : Stamp} {slot : Option LookSlot}
    (hrole : plan.role = .forward) (h : judgingStartOf db plan args horizon = .ok (judgingStart, slot)) :
    ∃ look family planStart, slot = some look ∧ judgingStart = look.judgingStart
      ∧ Granted db plan args.end horizon look family planStart := by
  unfold judgingStartOf at h
  rw [hrole] at h
  obtain ⟨look, hlook, h⟩ := bind_eq_ok.mp h
  cases h
  obtain ⟨family, planStart, hgranted⟩ := forwardLookSlot_ok hlook
  exact ⟨look, family, planStart, rfl, rfl, hgranted⟩

section Rows

variable (args : ReserveArgs) (horizon : Stamp) (slot : Option LookSlot) (context : EvaluationContext)

@[simp] theorem reserveRows_attempts :
    (reserveRows db plan args horizon slot context).attempts
      = db.attempts ++ [attemptRow plan args horizon slot context] := by
  unfold reserveRows
  split <;> rfl

@[simp] theorem reserveRows_families : (reserveRows db plan args horizon slot context).families = db.families := by
  unfold reserveRows
  split <;> rfl

@[simp] theorem reserveRows_plans : (reserveRows db plan args horizon slot context).plans = db.plans := by
  unfold reserveRows
  split <;> rfl

theorem reserveRows_consultations :
    ∃ row, row.end = args.end
      ∧ (reserveRows db plan args horizon slot context).consultations = db.consultations ++ [row] := by
  unfold reserveRows
  split <;> exact ⟨_, rfl, rfl⟩

theorem reserveRows_consultedThrough :
    (reserveRows db plan args horizon slot context).consultedThrough
      = if args.end > horizon then db.consultedThrough.map fun _ => args.end else db.consultedThrough := by
  unfold reserveRows
  split <;> rfl

end Rows

theorem insertOutcome_ok {args : FinishArgs} (h : insertOutcome db args = .ok db') :
    ∃ outcomes, db' = { db with outcomes := db.outcomes ++ outcomes } := by
  unfold insertOutcome at h
  split at h
  next => cases h
  next => exact ⟨_, (Except.ok.inj h).symm⟩

end Specs

end CryptoPilot.Research
