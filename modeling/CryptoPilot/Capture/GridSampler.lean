/- # GridSampler — sampling a REST endpoint on a grid.

`GridSampler.run` journals one outcome for each point of a grid of instants: the response, an error,
or a skip.  What it cannot foresee comes from a script (`Surroundings`): the clock, which never goes
back, the shutdown flag, the replies to fetches, the outcomes of flushes, cancelled sleeps, and the
embargoes that other samplers set on the shared gate. -/
import Mathlib
import CryptoPilot.Lib.Effect

namespace CryptoPilot.Capture

open CryptoPilot.Lib (Proc)

/-! ## The shared gate -/

/-- `RateGate`: the end of the embargo, in seconds. -/
structure RateGate where
  embargoEnd : Option ℚ := none

/-- `RateGate.block`: never shortens. -/
def RateGate.block (gate : RateGate) (cooldown now : ℚ) (retryAfter : Option ℚ) : RateGate :=
  let extra := match retryAfter with
    | some delay => if 0 < delay then delay else 0
    | none => 0
  let stop := now + max extra cooldown
  match gate.embargoEnd with
  | none => { embargoEnd := some stop }
  | some current => if current < stop then { embargoEnd := some stop } else gate

def RateGate.blockedUntil (gate : RateGate) (now : ℚ) : Option ℚ :=
  match gate.embargoEnd with
  | some stop => if now < stop then some stop else none
  | none => none

/-! ## Records and replies -/

inductive GridKind where
  | rest
  | restError
  deriving DecidableEq, Repr

/-- A record of the journal; `grid` is what `grid_iso_label` renders, `text` the body or the error.
-/
structure GridRecord where
  kind : GridKind
  recvNs : ℤ
  grid : ℤ
  status : Option ℕ
  text : String
  deriving DecidableEq

/-- The end of a fetch: a response with its parsed `Retry-After`, an exception, or the cancellation
of the task. -/
inductive FetchReply where
  | response (status : ℕ) (body : String) (retryAfter : Option ℚ)
  | raised (error : String)
  | cancelled

/-- The end of a flush: written, an `OSError` that left records pending, or another exception. -/
inductive FlushReply where
  | written
  | osError (pending : ℕ)
  | raised

/-- `CaptureConfig`, as far as a sampler reads it. -/
structure GridConfig where
  gridMaxStartLagS : ℚ := 5
  gridRetryDelayS : ℚ := 1
  rateLimitCooldownS : ℚ
  restMaxPendingRecords : ℕ

structure RestStatus where
  firstOkAtNs : Option ℤ := none
  lastOkAtNs : Option ℤ := none
  consecutiveFailures : ℕ := 0
  droppedRecords : ℕ := 0

structure Surroundings where
  clock : ℕ → ℤ
  clock_mono : Monotone clock
  shutdown : ℕ → Bool
  fetch : ℕ → FetchReply
  flush : ℕ → FlushReply
  sleepCancelled : ℕ → Bool
  /-- What other samplers blocked before an inquiry: the clock, and their `retry_after_s`. -/
  blocks : ℕ → List (ℚ × Option ℚ)

inductive SamplerError where
  | flushFailed
  | cancelled
  deriving DecidableEq

structure FetchStart where
  grid : ℤ
  admitted : ℤ
  deriving DecidableEq

/-- The sampler: its place in the script, the gate, the status, the pending records, and the
histories of the records added and the fetches started. -/
structure GridSampler where
  clockReads : ℕ := 0
  shutdownReads : ℕ := 0
  fetches : ℕ := 0
  flushes : ℕ := 0
  sleeps : ℕ := 0
  inquiries : ℕ := 0
  gate : RateGate := {}
  status : RestStatus := {}
  pending : ℕ := 0
  added : List GridRecord := []
  started : List FetchStart := []

abbrev Sampling : Type → Type := Proc SamplerError GridSampler

/-- `int` of a number: towards zero. -/
def intOf (x : ℚ) : ℤ := if 0 ≤ x then ⌊x⌋ else ⌈x⌉

def floorGrid (recvNs step : ℤ) : ℤ := recvNs / step * step

/-- `while point < grid_ns: skipped.append(point); point += interval_ns`. -/
def pointsBefore (step grid point : ℤ) : List ℤ :=
  if 0 < step ∧ point < grid then point :: pointsBefore step grid (point + step) else []
  termination_by (grid - point).toNat
  decreasing_by omega

section Program

variable (env : Surroundings) (config : GridConfig) (intervalS : ℕ)

def intervalNs : ℤ := intervalS * 10 ^ 9

def lagNs : ℤ := intOf (config.gridMaxStartLagS * 10 ^ 9)

def seconds (ns : ℤ) : ℚ := ns / 10 ^ 9

/-! ## Reads -/

def readClock : Sampling ℤ := fun s => (.ok (env.clock s.clockReads), { s with clockReads := s.clockReads + 1 })

def readShutdown : Sampling Bool := fun s =>
  (.ok (env.shutdown s.shutdownReads), { s with shutdownReads := s.shutdownReads + 1 })

def sleep : Sampling Unit := fun s =>
  (if env.sleepCancelled s.sleeps then .error .cancelled else .ok (), { s with sleeps := s.sleeps + 1 })

def blockedUntil (now : ℤ) : Sampling (Option ℚ) := fun s =>
  let gate := (env.blocks s.inquiries).foldl (fun gate b => gate.block config.rateLimitCooldownS b.1 b.2) s.gate
  (.ok (gate.blockedUntil (seconds now)), { s with gate := gate, inquiries := s.inquiries + 1 })

/-- `self._gate.block(self._clock_ns() / 1e9, retry_after_s)`. -/
def blockGate (retryAfter : Option ℚ) : Sampling Unit := do
  let now ← readClock env
  Proc.modify fun s => { s with gate := s.gate.block config.rateLimitCooldownS (seconds now) retryAfter }

/-! ## Writing -/

def add (record : GridRecord) : Sampling Unit :=
  Proc.modify fun s => { s with added := s.added ++ [record], pending := s.pending + 1 }

def fail : Sampling Unit :=
  Proc.modify fun s =>
    { s with status := { s.status with consecutiveFailures := s.status.consecutiveFailures + 1 } }

def flushBestEffort : Sampling Unit := fun s =>
  let s := { s with flushes := s.flushes + 1 }
  match env.flush (s.flushes - 1) with
  | .written => (.ok (), { s with pending := 0 })
  | .osError pending =>
    let dropped := pending - config.restMaxPendingRecords
    (.ok (), { s with pending := pending - dropped,
                      status := { s.status with droppedRecords := s.status.droppedRecords + dropped } })
  | .raised => (.error .flushFailed, s)

def writeSkip (cause : String) (grid : ℤ) : Sampling Unit := do
  let recvNs ← readClock env
  add { kind := .restError, recvNs := recvNs, grid := grid, status := none, text := "skipped:" ++ cause }

def writeRestError (grid : ℤ) (status : Option ℕ) (error : String) : Sampling Unit := do
  let recvNs ← readClock env
  add { kind := .restError, recvNs := recvNs, grid := grid, status := status, text := error }
  fail
  flushBestEffort env config

def noteResponse (status : ℕ) (recvNs : ℤ) : Sampling Unit :=
  if status = 200 then
    Proc.modify fun s => { s with
      status := { s.status with firstOkAtNs := some (s.status.firstOkAtNs.getD recvNs)
                                lastOkAtNs := some recvNs, consecutiveFailures := 0 } }
  else fail

def writeRest (grid : ℤ) (status : ℕ) (body : String) : Sampling Unit := do
  let recvNs ← readClock env
  add { kind := .rest, recvNs := recvNs, grid := grid, status := some status, text := body }
  noteResponse status recvNs
  flushBestEffort env config

/-! ## Sampling a point -/

/-- How `_attempt` ends. -/
inductive Attempt where
  | response (status : ℕ) (body : String)
  | rateLimited (status : ℕ) (retryAfter : Option ℚ)
  | raised (error : String)

/-- `_attempt`, with the clock read that admitted it. -/
def attempt (grid admitted : ℤ) : Sampling Attempt := fun s =>
  let s' := { s with fetches := s.fetches + 1, started := s.started ++ [{ grid := grid, admitted := admitted }] }
  match env.fetch s.fetches with
  | .response status body retryAfter =>
    if status = 418 ∨ status = 429 then (.ok (.rateLimited status retryAfter), s')
    else (.ok (.response status body), s')
  | .raised error => (.ok (.raised error), s')
  | .cancelled => (.error .cancelled, s')

def rateLimitedText (status : ℕ) : String := "rate_limited:" ++ toString status

def writeRateLimited (grid : ℤ) (status : ℕ) (retryAfter : Option ℚ) : Sampling Unit := do
  blockGate env config retryAfter
  writeRestError env config grid (some status) (rateLimitedText status)

def retry (grid : ℤ) (error : String) : Sampling Unit := do
  sleep env
  let stop ← readShutdown env
  if stop then writeRestError env config grid none error
  else
    let now ← readClock env
    if lagNs config < now - grid then writeRestError env config grid none error
    else
      let answer ← attempt env grid now
      match answer with
      | .response status body => writeRest env config grid status body
      | .rateLimited status retryAfter => writeRateLimited env config grid status retryAfter
      | .raised error => writeRestError env config grid none error

def sampleSlot (grid admitted : ℤ) : Sampling Unit := do
  let answer ← attempt env grid admitted
  match answer with
  | .response status body => writeRest env config grid status body
  | .rateLimited status retryAfter => writeRateLimited env config grid status retryAfter
  | .raised error => retry env config grid error

/-! ## The loop -/

def nextTarget (grid : ℤ) : ℤ := (grid / intervalNs intervalS + 1) * intervalNs intervalS

def skipAll (cause : String) (points : List ℤ) : Sampling Unit := do
  Proc.forEach points (writeSkip env cause)
  flushBestEffort env config

def skipLate (points : List ℤ) : Sampling Unit := if points = [] then pure () else skipAll env config "late" points

def takePoint (now grid : ℤ) (skipped : List ℤ) : Sampling Unit := do
  let blocked ← blockedUntil env config now
  if blocked.isSome then skipAll env config "rate_limited" (skipped ++ [grid])
  else if lagNs config < now - grid then skipAll env config "lag" (skipped ++ [grid])
  else do
    skipLate env config skipped
    sampleSlot env config grid now

/-- One turn of `run`, with the target it leaves. -/
def turn (target : ℤ) : Sampling ℤ := do
  let now ← readClock env
  if now < target then do
    sleep env
    pure target
  else do
    let now ← readClock env
    let grid := floorGrid now (intervalNs intervalS)
    takePoint env config now grid (pointsBefore (intervalNs intervalS) grid target)
    pure (nextTarget intervalS grid)

/-- `while not self._shutdown()`, for at most `n` turns. -/
def loop : ℕ → ℤ → Sampling Unit
  | 0, _ => pure ()
  | n + 1, target => do
    let stop ← readShutdown env
    if stop then pure ()
    else do
      let target' ← turn env config intervalS target
      loop n target'

/-- `run`, for at most `n` turns. -/
def samplerRun (n : ℕ) : Sampling Unit := do
  let now ← readClock env
  loop env config intervalS n (nextTarget intervalS now)

end Program

end CryptoPilot.Capture
