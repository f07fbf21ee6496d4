/- # Scheduler — the daemon loop: decision days, retries, catch-up and restarts.

An iteration of `run_daemon` loads the state file, picks its target (the pending day, or the day
after the last processed one), skips days that are too old, waits for the release of the target, and
runs the refresh, the signal step and the cycle. -/
import CryptoPilot.Lib.Calendar
import Mathlib.Data.NNRat.Defs

namespace CryptoPilot.Live

open CryptoPilot.Lib

/-! ## The state file and the trace of a run -/

structure DaemonSettings where
  maxSignalStalenessHours : ℚ := 26
  maxMarketDataStalenessHours : ℚ := 30
  daemonCatchupBufferMinutes : ℚ := 1 / 4
  daemonMaxAttemptsPerDay : ℕ := 5
  alertHaltStreak : ℕ := 2
  alertDailyDigest : Bool := true
  venueRulesWarnAgeDays : ℚ := 2
  /-- `_positive_daemon_attempt_cap` -/
  attempts_pos : 1 ≤ daemonMaxAttemptsPerDay := by decide

structure DaemonState where
  lastProcessedDecisionTime : Option ℚ
  pendingDecisionTime : Option ℚ := none
  attempts : ℕ := 0
  deriving DecidableEq

inductive StateFile
  | missing
  /-- the schema with the last processed day only -/
  | legacy (last : ℚ)
  | saved (s : DaemonState)
  /-- not the JSON of a state -/
  | corrupt
  deriving DecidableEq

/-- `_load_daemon_state`; `none` is its DataIntegrityError. -/
def StateFile.load : StateFile → Option DaemonState
  | .missing => some ⟨none, none, 0⟩
  | .legacy last => some ⟨some last, none, 0⟩
  | .saved s => some s
  | .corrupt => none

def normalize (t : ℚ) : ℚ := dayStart (dayOf t)

def OnDayGrid (t : ℚ) : Prop := normalize t = t

instance (t : ℚ) : Decidable (OnDayGrid t) := inferInstanceAs (Decidable (normalize t = t))

def nextDecisionTime (lastProcessed : Option ℚ) (now : ℚ) : ℚ :=
  match lastProcessed with
  | none => normalize now
  | some last => normalize (last + secondsPerDay)

def decisionReleaseOffset : ℚ := 23 * 3600

/-- The status of a cycle report; a cycle that raises counts as `halt`. -/
inductive CycleStatus
  | complete
  /-- with whether unresolved orders are the only reason -/
  | degraded (freezeOnly : Bool)
  | interrupted
  | halt
  deriving DecidableEq

def CycleStatus.processed : CycleStatus → Bool
  | .complete => true
  | .degraded _ => true
  | _ => false

/-- `_daemon_alert`, by event and decision time. -/
inductive DaemonAlert
  | stateCorrupt
  /-- `day_skipped` of a catch-up, from a first to a last day -/
  | catchupSkipped (first last : ℚ)
  /-- `day_skipped` of a day whose attempts are used up -/
  | daySkipped (target : ℚ) (attempts : ℕ)
  | venueCaptureFailed (target : ℚ)
  | dataDegraded (target : ℚ)
  | dataRefreshFailed (target : ℚ)
  | refreshIncomplete (target : ℚ)
  | haltStreak (target : ℚ) (consecutiveHalts : ℕ)
  | venueRulesStale (target : ℚ)
  | cycleDegraded (target : ℚ)
  | cycleComplete (target : ℚ)
  deriving DecidableEq

def DaemonAlert.skips (day : ℚ) : DaemonAlert → Bool
  | .catchupSkipped first last => decide (first ≤ day ∧ day ≤ last)
  | .daySkipped target _ => decide (target = day)
  | _ => false

inductive DaemonEvent
  /-- the iteration has its target and waits for the release -/
  | waiting (target : ℚ)
  /-- the signal step of a target ran; `false` is its HALT -/
  | signal (target : ℚ) (ok : Bool)
  /-- the cycle of a target ran -/
  | cycle (target : ℚ) (status : CycleStatus)
  | alert (a : DaemonAlert)
  /-- `_save_daemon_state` -/
  | saved (s : DaemonState)
  deriving DecidableEq

def DaemonEvent.target : DaemonEvent → Option ℚ
  | .signal t _ => some t
  | .cycle t _ => some t
  | _ => none

def DaemonEvent.failed (day : ℚ) : DaemonEvent → Bool
  | .signal t ok => !ok && decide (t = day)
  | .cycle t status => decide (status = .halt) && decide (t = day)
  | _ => false

def DaemonEvent.recorded : DaemonEvent → Option ℚ
  | .saved s => s.lastProcessedDecisionTime
  | _ => none

/-! ## One iteration -/

/-- A reading of the clock while waiting, and whether a shutdown is requested next. -/
structure Tick where
  elapsed : ℚ≥0
  shutdown : Bool := false

/-- The outcome of the data refresh; `staleness` is read when it is not ok, `none` is infinite. -/
structure Refresh where
  ok : Bool := true
  staleness : Option ℚ := none
  requiredIncomplete : Bool := false

/-- What happens around one iteration: how the clock moves, and the outcomes of its steps. -/
structure Iteration where
  shutdownBefore : Bool := false
  toTarget : ℚ≥0 := 0
  toFresh : ℚ≥0 := 0
  waits : List Tick
  venueFailed : Bool := false
  shutdownAfterVenue : Bool := false
  refresh : Refresh := {}
  shutdownAfterRefresh : Bool := false
  /-- the age of the venue snapshot, or a HALT of the signal step -/
  signal : Option ℚ := some 0
  shutdownAfterSignal : Bool := false
  cycle : CycleStatus
  shutdownInBackoff : Bool := false

structure Daemon where
  file : StateFile
  now : ℚ
  running : Bool := false
  consecutiveHalts : ℕ := 0
  trace : List DaemonEvent := []

namespace Daemon

def emit (d : Daemon) (e : DaemonEvent) : Daemon := { d with trace := d.trace ++ [e] }

def alert (d : Daemon) (a : DaemonAlert) : Daemon := d.emit (.alert a)

def alertIf (d : Daemon) (c : Bool) (a : DaemonAlert) : Daemon := if c then d.alert a else d

def save (d : Daemon) (s : DaemonState) : Daemon := { d.emit (.saved s) with file := .saved s }

/-- `break`: the process ends. -/
def stop (d : Daemon) : Daemon := { d with running := false }

def stopIf (d : Daemon) (c : Bool) : Daemon := if c then d.stop else d

def tick (d : Daemon) (elapsed : ℚ≥0) : Daemon := { d with now := d.now + elapsed }

end Daemon

/-- The target of an iteration and the failed attempts that count for it. -/
structure Aim where
  target : ℚ
  attempts : ℕ

def DaemonState.aim (s : DaemonState) (now : ℚ) : Aim :=
  match s.pendingDecisionTime with
  | some pending => ⟨pending, s.attempts⟩
  | none => ⟨nextDecisionTime s.lastProcessedDecisionTime now, 0⟩

def DaemonState.fresh (s : DaemonState) : Prop :=
  s.pendingDecisionTime = none ∧ s.lastProcessedDecisionTime = none

instance (s : DaemonState) : Decidable s.fresh :=
  inferInstanceAs (Decidable (s.pendingDecisionTime = none ∧ s.lastProcessedDecisionTime = none))

def DaemonSettings.earliestFresh (st : DaemonSettings) (now : ℚ) : ℚ :=
  dayStart (dayCeil (now - 3600 * st.maxSignalStalenessHours))

/-- The catch-up: days that are too old are skipped, with one alert for their range. -/
def Daemon.catchUp (st : DaemonSettings) (s : DaemonState) (aim : Aim) (d : Daemon) : Daemon × Aim :=
  if ¬ s.fresh ∧ aim.target < st.earliestFresh d.now then
    let skippedLast := st.earliestFresh d.now - secondsPerDay
    ((d.alert (.catchupSkipped aim.target skippedLast)).save ⟨some skippedLast, none, 0⟩,
      ⟨st.earliestFresh d.now, 0⟩)
  else (d, aim)

/-- The wait for the release. -/
def Daemon.awaitRelease (waitUntil : ℚ) : List Tick → Daemon → Daemon × Bool
  | [], d => (d, false)
  | t :: rest, d =>
    let d' := d.tick t.elapsed
    if t.shutdown then (d', false)
    else if waitUntil ≤ d'.now then (d', true)
    else awaitRelease waitUntil rest d'

def Daemon.retryOrSkip (st : DaemonSettings) (s : DaemonState) (aim : Aim) (shutdownInBackoff : Bool)
    (d : Daemon) : Daemon :=
  if st.daemonMaxAttemptsPerDay ≤ aim.attempts + 1 then
    (d.alert (.daySkipped aim.target (aim.attempts + 1))).save ⟨some aim.target, none, 0⟩
  else
    (d.save ⟨s.lastProcessedDecisionTime, some aim.target, aim.attempts + 1⟩).stopIf shutdownInBackoff

def Daemon.halted (st : DaemonSettings) (s : DaemonState) (aim : Aim) (shutdownInBackoff : Bool)
    (d : Daemon) : Daemon :=
  let d := { d with consecutiveHalts := d.consecutiveHalts + 1 }
  (d.alertIf (decide (st.alertHaltStreak ≤ d.consecutiveHalts))
    (.haltStreak aim.target d.consecutiveHalts)).retryOrSkip st s aim shutdownInBackoff

def Daemon.runCycle (st : DaemonSettings) (s : DaemonState) (aim : Aim) (it : Iteration) (d : Daemon) : Daemon :=
  let d := d.emit (.cycle aim.target it.cycle)
  match it.cycle with
  | .interrupted =>
    (d.save ⟨s.lastProcessedDecisionTime, some aim.target, aim.attempts⟩).stop
  | .degraded freezeOnly =>
    (d.alertIf (!freezeOnly) (.cycleDegraded aim.target)).save ⟨some aim.target, none, 0⟩
  | .complete =>
    let d := { d with consecutiveHalts := 0 }
    (d.alertIf st.alertDailyDigest (.cycleComplete aim.target)).save ⟨some aim.target, none, 0⟩
  | .halt => d.halted st s aim it.shutdownInBackoff

def Daemon.runSignal (st : DaemonSettings) (s : DaemonState) (aim : Aim) (it : Iteration) (d : Daemon) : Daemon :=
  match it.signal with
  | none => (d.emit (.signal aim.target false)).halted st s aim it.shutdownInBackoff
  | some age =>
    let d := d.emit (.signal aim.target true)
    if it.shutdownAfterSignal then d.stop
    else (d.alertIf (decide (st.venueRulesWarnAgeDays < age)) (.venueRulesStale aim.target)).runCycle
      st s aim it

/-- Whether the data of a refresh that is not ok are fresh enough to go on. -/
def DaemonSettings.usable (st : DaemonSettings) (r : Refresh) : Bool :=
  match r.staleness with
  | some hours => decide (hours ≤ st.maxMarketDataStalenessHours)
  | none => false

/-- The data refresh, then the signal step; without usable data nothing is saved. -/
def Daemon.runRefresh (st : DaemonSettings) (s : DaemonState) (aim : Aim) (it : Iteration) (d : Daemon) : Daemon :=
  if !it.refresh.ok && !st.usable it.refresh then d.alert (.dataRefreshFailed aim.target)
  else
    let d := d.alertIf (!it.refresh.ok) (.dataDegraded aim.target)
    if it.shutdownAfterRefresh then d.stop
    else (d.alertIf it.refresh.requiredIncomplete (.refreshIncomplete aim.target)).runSignal st s aim it

/-- From the release of the target on: the venue capture, then the stages. -/
def Daemon.runStages (st : DaemonSettings) (s : DaemonState) (aim : Aim) (it : Iteration) (d : Daemon) : Daemon :=
  let d := d.alertIf it.venueFailed (.venueCaptureFailed aim.target)
  if it.shutdownAfterVenue then d.stop else d.runRefresh st s aim it

def Daemon.work (st : DaemonSettings) (s : DaemonState) (aim : Aim) (it : Iteration) (d : Daemon) : Daemon :=
  let waitUntil := aim.target + decisionReleaseOffset + 60 * st.daemonCatchupBufferMinutes
  match (d.emit (.waiting aim.target)).awaitRelease waitUntil it.waits with
  | (d, true) => d.runStages st s aim it
  | (d, false) => d.stop

/-- One pass of the loop of `run_daemon`. -/
def Daemon.iterate (st : DaemonSettings) (it : Iteration) (d : Daemon) : Daemon :=
  if it.shutdownBefore then d.stop
  else
    match d.file.load with
    | none => d.alert .stateCorrupt
    | some s =>
      let d := d.tick it.toTarget
      let aim := s.aim d.now
      let (d, aim) := (d.tick it.toFresh).catchUp st s aim
      d.work st s aim it

inductive DaemonActivity
  /-- a new process, with the streak of halts that its heartbeat file gives -/
  | restart (consecutiveHalts : ℕ)
  | iterate (it : Iteration)
  /-- the process is killed between two iterations -/
  | kill
  /-- the state file is damaged from outside -/
  | damage

def Daemon.step (st : DaemonSettings) (d : Daemon) : DaemonActivity → Daemon
  | .restart n => { d with running := true, consecutiveHalts := n }
  | .iterate it => if d.running then d.iterate st it else d
  | .kill => d.stop
  | .damage => { d with file := .corrupt }

def Daemon.run (st : DaemonSettings) (d : Daemon) (acts : List DaemonActivity) : Daemon :=
  acts.foldl (Daemon.step st) d

/-- An installation: no state file, or one of the old schema. -/
def Daemon.installed (now : ℚ) : Option ℚ → Daemon
  | none => { file := .missing, now := now }
  | some last => { file := .legacy last, now := now, trace := [.saved ⟨some last, none, 0⟩] }

end CryptoPilot.Live
