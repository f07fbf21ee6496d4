/-
# Errors — the exceptions of the live layer and the venue error-code policy.

`Exc` is the closed set of exception KINDS that the live code raises, catches or lets through; an
exception carries exactly the data some handler reads (the venue code and HTTP status of a
`VenueError`).  Message texts are not modelled: no handler reads one.
-/
import Mathlib.Data.Int.Notation

namespace CryptoPilot.Live

/-- The exceptions of the live layer. -/
inductive Exc where
  /-- the process dies at this point -/
  | killed
  /-- `VenueError(code, http_status)` -/
  | venueError (code : Option ℤ) (httpStatus : ℤ)
  /-- `OrderStatusUnknown`: a mutation whose execution status cannot be confirmed -/
  | orderStatusUnknown
  /-- `OrderObsolete`: the venue reports the intent pointless (-2022) -/
  | orderObsolete
  /-- `TransientReadError`: an idempotent read failed and its retry budget is spent -/
  | transientReadError
  /-- `CancelNotConfirmed` -/
  | cancelNotConfirmed
  /-- `ExecutionInterrupted` -/
  | executionInterrupted
  /-- `StaleOrderIdentity` -/
  | staleOrderIdentity
  /-- `DataIntegrityError` -/
  | dataIntegrityError
  /-- `ValueError` -/
  | valueError
  /-- any other `Exception` (an IP ban, an `OSError`) -/
  | other
  /-- a `BaseException` that is not an `Exception` (`KeyboardInterrupt`, `SystemExit`) -/
  | interrupt
  deriving DecidableEq, Repr

/-- `except Exception` catches everything but process death and bare `BaseException`s. -/
def Exc.isException : Exc → Bool
  | .killed | .interrupt => false
  | _ => true

/-- `ErrorAction`: the closed set of policy actions. -/
inductive ErrorAction where
  | retryBackoff
  | retryBackoffLong
  | resyncClock
  | resyncThenDecide
  | benign
  | benignReprice
  | benignAbort
  | intentReject
  | marginWait
  | riskIncreaseFreeze
  | failClosed
  deriving DecidableEq, Repr

def binanceErrorPolicy : List (ℤ × ErrorAction) :=
  [(-1000, .retryBackoff), (-1001, .retryBackoff), (-1003, .retryBackoffLong),
   (-1007, .resyncThenDecide), (-1021, .resyncClock), (-1022, .failClosed),
   (-1013, .intentReject), (-2010, .failClosed), (-2011, .benign), (-2019, .marginWait),
   (-4046, .benign), (-5022, .benignReprice), (-2022, .benignAbort), (-4131, .benignReprice),
   (-4164, .intentReject), (-4140, .intentReject), (-2027, .intentReject),
   (-1111, .intentReject), (-4014, .intentReject), (-4023, .intentReject),
   (-4003, .intentReject), (-4400, .riskIncreaseFreeze), (-4016, .intentReject),
   (-4005, .intentReject), (-4118, .intentReject), (-4116, .failClosed)]

/-- `resolve_error_action`: unregistered codes and `None` fail closed. -/
def resolveErrorAction : Option ℤ → ErrorAction
  | none => .failClosed
  | some code => (binanceErrorPolicy.lookup code).getD .failClosed

end CryptoPilot.Live
