/- # Registry — the execution registry: runs, finalizations and artifacts.

`finalize_run` publishes a run's artifacts in one `BEGIN IMMEDIATE` transaction,
`set_run_protection` writes the flags of a run in one `UPDATE`.  A run is protected while it is
unknown, pinned, referenced by a deployment or not finalized, and after that unless it is resolved
or completed with both validity flags. -/
import Mathlib.Data.List.Nodup
import CryptoPilot.Lib.Effect

namespace CryptoPilot.Backtests

open CryptoPilot.Lib

inductive RunStatus where
  | completed
  | failed
  | timedOut
  | signaled
  | resourceRejected
  | interrupted
  deriving DecidableEq, Repr

/-- The columns of `runs` that are read here. -/
structure RunRow where
  runId : String
  pinned : Bool
  resolved : Bool
  deploymentReferenced : Bool
  deriving DecidableEq, Repr

/-- `RunFinalization`, with its outcome as the sorted JSON text. -/
structure RunFinalization where
  runId : String
  finalizedAt : String
  status : RunStatus
  primaryValid : Option Bool
  terminalCertified : Option Bool
  outcomeJson : String
  deriving DecidableEq, Repr

/-- `ArtifactReference`, with its path as text. -/
structure ArtifactReference where
  runId : String
  role : String
  path : String
  sha256 : String
  byteCount : ℕ
  managed : Bool
  evidenceId : Option String
  deriving DecidableEq, Repr

structure ArtifactRow extends ArtifactReference where
  retained : Bool
  deriving DecidableEq, Repr

/-- The primary key of `artifacts`. -/
def ArtifactReference.key (a : ArtifactReference) : String × String × String := (a.runId, a.role, a.path)

abbrev ArtifactRow.key (a : ArtifactRow) : String × String × String := a.toArtifactReference.key

/-- The tables, with the primary key of `artifacts`. -/
structure Registry where
  runs : List RunRow
  finalizations : List RunFinalization
  artifacts : List ArtifactRow
  keys : artifacts.Pairwise fun a b => a.key ≠ b.key

/-- `ValueError`, `KeyError` and `sqlite3.IntegrityError`. -/
inductive RegistryExc where
  | value (message : String)
  | key (message : String)
  | integrity
  deriving DecidableEq, Repr

variable (reg : Registry)

def Registry.runOf (runId : String) : Option RunRow := reg.runs.find? fun row => row.runId = runId

def Registry.finalizationOf (runId : String) : Option RunFinalization :=
  reg.finalizations.find? fun row => row.runId = runId

/-! ## `_run_protected` -/

/-- What the first `SELECT` of `_run_protected` decides; `none` where the second one is needed. -/
def flagsVerdict : Option RunRow → Option Bool
  | none => some true
  | some row => if row.pinned || row.deploymentReferenced then some true else none

/-- What the second one decides, with the `resolved` flag of the first. -/
def finalVerdict (resolved : Bool) : Option RunFinalization → Bool
  | none => true
  | some final =>
    if resolved then false
    else if final.status ≠ .completed then true
    else if final.primaryValid ≠ some true then true
    else decide (final.terminalCertified ≠ some true)

/-- `_run_protected`, read at one moment. -/
def Registry.runProtected (runId : String) : Bool :=
  match reg.runOf runId with
  | none => true
  | some row =>
    if row.pinned || row.deploymentReferenced then true else finalVerdict row.resolved (reg.finalizationOf runId)

/-! ## `finalize_run` and `set_run_protection` -/

/-- The stored rows of a run by `(role, path)`. -/
def artifactOrder (a b : ArtifactReference) : Bool :=
  decide (a.role < b.role) || (decide (a.role = b.role) && decide (a.path ≤ b.path))

/-- One `INSERT INTO artifacts`. -/
def Registry.insertArtifact (a : ArtifactReference) : Except RegistryExc Registry :=
  if h : ∀ b ∈ reg.artifacts, b.key ≠ a.key then
    .ok { reg with
      artifacts := reg.artifacts ++ [{ a with retained := true }]
      keys := List.pairwise_append.mpr ⟨reg.keys, List.pairwise_singleton _ _,
        fun b hb c hc => by rw [List.mem_singleton.mp hc]; exact h b hb⟩ }
  else .error .integrity

/-- The finalization inserted and the run's publication lease dropped. -/
def Registry.insertFinalization (fin : RunFinalization) : Registry where
  runs := reg.runs
  finalizations := reg.finalizations ++ [fin]
  artifacts := reg.artifacts.filter fun a =>
    !(decide (a.runId = fin.runId) && decide (a.role = "publication_lease"))
  keys := reg.keys.filter _

/-- The transaction of `finalize_run`. -/
def Registry.finalizeRun (fin : RunFinalization) (artifacts : List ArtifactReference) :
    Except RegistryExc Registry :=
  if artifacts.any fun a => a.runId ≠ fin.runId then
    .error (.value s!"artifact run does not match finalization {fin.runId}")
  else
    match reg.runOf fin.runId with
    | none => .error (.value s!"unknown run_id {fin.runId}")
    | some _ =>
      match reg.finalizationOf fin.runId with
      | some stored =>
        if stored ≠ fin then .error (.value s!"conflicting finalization for run_id {fin.runId}")
        else if ((reg.artifacts.filter fun a => a.runId = fin.runId).map ArtifactRow.toArtifactReference).mergeSort
            artifactOrder ≠ artifacts.mergeSort artifactOrder then
          .error (.value s!"conflicting artifacts for run_id {fin.runId}")
        else .ok reg
      | none => artifacts.foldlM Registry.insertArtifact (reg.insertFinalization fin)

/-- The flags of `set_run_protection`. -/
structure ProtectionFlags where
  pinned : Bool
  resolved : Bool
  deploymentReferenced : Bool
  deriving DecidableEq, Repr

def RunRow.setFlags (flags : ProtectionFlags) (row : RunRow) : RunRow :=
  { row with
    pinned := flags.pinned, resolved := flags.resolved, deploymentReferenced := flags.deploymentReferenced }

/-- The transaction of `set_run_protection`. -/
def Registry.setRunProtection (runId : String) (flags : ProtectionFlags) : Except RegistryExc Registry :=
  match reg.runOf runId with
  | none => .error (.key s!"unknown run_id {runId}")
  | some _ => .ok { reg with runs := reg.runs.map fun row => if row.runId = runId then row.setFlags flags else row }

/-- `UPDATE artifacts SET retained = 0 WHERE evidence_id = ?`. -/
def Registry.releaseArtifacts (evidenceId : String) : Registry where
  runs := reg.runs
  finalizations := reg.finalizations
  artifacts := reg.artifacts.map fun a => if a.evidenceId = some evidenceId then { a with retained := false } else a
  keys := by
    have hkey : ∀ a : ArtifactRow,
        (if a.evidenceId = some evidenceId then { a with retained := false } else a : ArtifactRow).key = a.key := by
      intro a
      split <;> rfl
    rw [List.pairwise_map]; exact reg.keys.imp fun h => by rw [hkey, hkey]; exact h

/-- `SELECT run_id, byte_count FROM artifacts WHERE evidence_id = ? AND retained = 1`. -/
def Registry.references (evidenceId : String) : List (String × ℕ) :=
  (reg.artifacts.filter fun a => decide (a.evidenceId = some evidenceId) && a.retained).map
    fun a => (a.runId, a.byteCount)

end CryptoPilot.Backtests
