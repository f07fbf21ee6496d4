/- # OrderCancel — confirmed cancellation, order identity and the orphan sweep.

I-CANCEL-CONFIRMED: an own order is never treated as closed on the strength of a cancel response;
only the query that follows it (or "order does not exist") proves it closed. -/
import CryptoPilot.Live.Venue

namespace CryptoPilot.Live

open CryptoPilot.Lib

/-! ## Order identity -/

/-- The default of `order_identity_tolerance_ms`: the receive window plus the skew margin. -/
def defaultOrderIdentityToleranceMs : ℤ := 5000 + 30000

/-- `assert_order_identity`: fail closed when the payload predates its submit beyond the tolerance.
-/
def assertOrderIdentity (payload : OrderPayload) (submittedAt : ℚ) (toleranceMs : ℤ) : Except Exc Unit :=
  match payload.time with
  | none => .error .dataIntegrityError
  | some venueMs =>
    if venueMs ≤ 0 then .error .dataIntegrityError
    else if toleranceMs ≤ 0 then .error .dataIntegrityError
    else if venueMs < ⌊submittedAt * 1000⌋ - toleranceMs then .error .staleOrderIdentity
    else .ok ()

/-- `_guard_order_identity`: an id without a (dated) submission is not guarded. -/
def guardOrderIdentity (submit : Option JournalSubmit) (payload : OrderPayload) (toleranceMs : ℤ) :
    Except Exc Unit :=
  match submit.bind JournalSubmit.recordedAt with
  | none => .ok ()
  | some recordedAt => assertOrderIdentity payload recordedAt toleranceMs

/-! ## Confirmed cancellation -/

def orderDoesNotExistCode : ℤ := -2013

def orderNotFoundStatus : String := "NOT_FOUND"

def orderGoneCodes : List ℤ := [-2011, -2013]

/-- `status in _OPEN_ORDER_STATUSES`. -/
def isOpenStatus (status : String) : Bool := status = "NEW" || status = "PARTIALLY_FILLED"

structure CancelConfirmation where
  closed : Bool
  status : String
  payload : Option OrderPayload

/-- The handler of a failed cancel: a gone order and an unknown outcome are left to the query. -/
def tolerateCancelError : Exc → WorldM Unit
  | .venueError (some code) http =>
    if code ∈ orderGoneCodes then pure () else Proc.throw (.venueError (some code) http)
  | .orderStatusUnknown => pure ()
  | exc => Proc.throw exc

def queryIfKnown (symbol orderId : String) : WorldM (Option OrderPayload) :=
  Proc.tryCatch (some <$> queryOrder symbol orderId) fun exc =>
    match exc with
    | .venueError (some code) http =>
      if code = orderDoesNotExistCode then pure none
      else Proc.throw (.venueError (some code) http)
    | exc => Proc.throw exc

/-- `cancel_and_confirm`: one cancel, then the authoritative query. -/
def cancelAndConfirm (symbol orderId : String) : WorldM CancelConfirmation := do
  Proc.tryCatch (cancelOrder symbol orderId) tolerateCancelError
  let payload ← queryIfKnown symbol orderId
  match payload with
  | none => pure { closed := true, status := orderNotFoundStatus, payload := none }
  | some p =>
    if p.status = "" then Proc.throw .dataIntegrityError
    else pure { closed := !isOpenStatus p.status, status := p.status, payload := some p }

/-! ## The orphan sweep -/

structure UnresolvedOrder where
  clientOrderId : String
  symbol : String
  attemptSeq : Option ℤ := none
  legIndex : ℤ := 0
  deriving DecidableEq

/-- The arguments of `cancel_orphan_orders` that its logic reads. -/
structure SweepConfig where
  now : ℚ
  takerFeeBps : ℚ
  orderIdentityToleranceMs : Option ℤ := none

/-- `_LEGACY_CLIENT_ORDER_ID.match`: eight digits and a dash. -/
def isLegacyClientOrderId (orderId : String) : Bool :=
  let chars := orderId.toList
  8 < chars.length && (chars.take 8).all Char.isDigit && (chars.drop 8).head? == some '-'

def isOwnOrder (orderId : String) : Bool :=
  clientOrderNamespace.toList.isPrefixOf orderId.toList || isLegacyClientOrderId orderId

structure OrphanSweep where
  fills : List JournalFill
  foreignSymbols : List String
  unconfirmed : List UnresolvedOrder

/-- `a or b` of two optional texts: an empty text does not count. -/
def orText : Option String → Option String → Option String
  | some a, b => if a = "" then b else some a
  | none, b => b

/-- `dict.get(key, default)` of a decimal field. -/
def orAbsent : VenueDecimal → VenueDecimal → VenueDecimal
  | .missing, dflt => dflt
  | present, _ => present

/-- The fill a sweep journals for the delta over the observed quantity. -/
def orphanDraft (c : SweepConfig) (symbol orderId side : String) (delta price executed : ℚ) : FillDraft where
  kind := .orphanSettlement
  attemptSeq := none
  symbol := symbol
  side := side
  quantity := delta
  price := price
  feeBps := c.takerFeeBps
  liquidity := "taker"
  reason := "orphan_settlement"
  filledAt := c.now
  clientOrderId := some orderId
  legIndex := 0
  cumulativeExecutedQty := some executed
  simulated := false

/-- The terminal record of a closed order, or its entry in `unconfirmed`. -/
def closeOrphan (sweep : OrphanSweep) (orderId symbol : String) (confirmation : CancelConfirmation) :
    WorldM OrphanSweep :=
  if confirmation.closed then do
    recordTerminal orderId confirmation.status
    pure sweep
  else
    pure { sweep with unconfirmed := sweep.unconfirmed ++
      [{ clientOrderId := orderId, symbol := symbol }] }

/-- The settlement of one own order whose state was confirmed by a payload. -/
def settleOrphan (c : SweepConfig) (sweep : OrphanSweep) (entry : OpenOrder) (symbol : String)
    (confirmation : CancelConfirmation) (queried : OrderPayload) : WorldM OrphanSweep := do
  let w ← Proc.get
  match queried.executedQty with
  | .value executedQty => do
    let observed := w.journal.observedQty entry.clientOrderId
    if executedQty - observed ≤ 0 then
      closeOrphan sweep entry.clientOrderId symbol confirmation
    else
      match orText queried.side entry.side, orAbsent queried.avgPrice entry.avgPrice with
      | some side, .value price =>
        if side ≠ "BUY" ∧ side ≠ "SELL" then Proc.throw .dataIntegrityError
        else if price ≤ 0 then Proc.throw .dataIntegrityError
        else do
          let fill ← recordFill (orphanDraft c symbol entry.clientOrderId side
            (executedQty - observed) price executedQty)
          auditRecord .orphanSettled
          closeOrphan { sweep with fills := sweep.fills ++ [fill] } entry.clientOrderId symbol
            confirmation
      | _, _ => Proc.throw .dataIntegrityError
  | _ => Proc.throw .dataIntegrityError

/-- One own order of the sweep: one confirmed cancel, then its settlement. -/
def sweepOrphan (c : SweepConfig) (submits : Journal) (sweep : OrphanSweep) (entry : OpenOrder) :
    WorldM OrphanSweep :=
  match entry.symbol with
  | none => Proc.throw .other
  | some symbol => do
    let confirmation ← cancelAndConfirm symbol entry.clientOrderId
    if confirmation.status = orderNotFoundStatus then do
      auditRecord .orphanCancelled
      pure sweep
    else
      match confirmation.payload with
      | none => Proc.throw .other
      | some queried => do
        let margin ← clockOffsetMarginMs
        Proc.ofExcept (guardOrderIdentity (submits.submitOf entry.clientOrderId) queried
          (c.orderIdentityToleranceMs.getD defaultOrderIdentityToleranceMs + margin))
        auditRecord (if confirmation.closed then .orphanCancelled else .orphanCancelUnconfirmed)
        settleOrphan c sweep entry symbol confirmation queried

def sweepOrphans (c : SweepConfig) (submits : Journal) :
    List OpenOrder → OrphanSweep → WorldM OrphanSweep
  | [], sweep => pure sweep
  | entry :: rest, sweep => do
    let next ← sweepOrphan c submits sweep entry
    sweepOrphans c submits rest next

def foreignSymbols (entries : List OpenOrder) : List String :=
  ((entries.filterMap OpenOrder.symbol).filter (· ≠ "")).dedup.insertionSort (· ≤ ·)

/-- `cancel_orphan_orders`: foreign orders are reported, own orders cancelled and settled. -/
def cancelOrphanOrders (c : SweepConfig) : WorldM OrphanSweep := do
  let w ← Proc.get
  let entries ← openOrders
  let foreign := entries.filter fun entry => !isOwnOrder entry.clientOrderId
  Proc.forEach foreign fun _ => auditRecord .foreignOpenOrder
  sweepOrphans c w.journal (entries.filter fun entry => isOwnOrder entry.clientOrderId)
    { fills := [], foreignSymbols := foreignSymbols foreign, unconfirmed := [] }

end CryptoPilot.Live
