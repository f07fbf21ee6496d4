/- # Recovery — restart recovery: the orders the journal left open.

Recovery queries every submission without a terminal record, books the executed delta over what was
observed and journals closed orders terminal; settlement cancels those still open, with
confirmation, and books what they executed. An order that the venue does not know is journaled
NOT_FOUND at once: neither looks at how long ago it was submitted. -/
import CryptoPilot.Live.OrderCancel

namespace CryptoPilot.Live

open CryptoPilot.Lib

/-! ## The executed delta -/

/-- The arguments of `recover_unresolved_orders` and `settle_unresolved_orders`; `suppressed`
suppresses mutations. -/
structure RecoverConfig where
  now : ℚ
  lookback : ℚ
  takerFeeBps : ℚ
  orderIdentityToleranceMs : Option ℤ := none
  suppressed : Bool := false

def venueDecimal : VenueDecimal → Except Exc ℚ
  | .value q => .ok q
  | _ => .error .dataIntegrityError

/-- `_venue_update_time`: the last update of an order, in seconds. -/
def venueUpdateTime (payload : OrderPayload) : Except Exc ℚ :=
  match payload.updateTime with
  | some millis => if millis ≤ 0 then .error .dataIntegrityError else .ok (millis / 1000)
  | none => .error .dataIntegrityError

/-- The fill recovery journals for the delta over the observed quantity. -/
def recoveredDraft (c : RecoverConfig) (order : UnresolvedOrder) (side : String)
    (delta price filledAt executed : ℚ) : FillDraft where
  kind := .recovered
  attemptSeq := order.attemptSeq
  symbol := order.symbol
  side := side
  quantity := delta
  price := price
  feeBps := c.takerFeeBps
  liquidity := "taker"
  reason := "recovered_fill"
  filledAt := filledAt
  clientOrderId := some order.clientOrderId
  legIndex := order.legIndex
  cumulativeExecutedQty := some executed
  simulated := false

def recoveryTolerance (c : RecoverConfig) (margin : ℤ) : ℤ :=
  c.orderIdentityToleranceMs.getD defaultOrderIdentityToleranceMs + margin

/-- `_book_recovered_delta`; `submit` is the submission the caller's table holds for the id. -/
def bookRecoveredDelta (c : RecoverConfig) (order : UnresolvedOrder) (payload : OrderPayload)
    (tolerance : ℤ) (submit : Option JournalSubmit) : WorldM (Option JournalFill) := do
  Proc.ofExcept (guardOrderIdentity submit payload tolerance)
  let executed ← Proc.ofExcept (venueDecimal payload.executedQty)
  let w ← Proc.get
  let observed := w.journal.observedQty order.clientOrderId
  if executed - observed ≤ 0 then pure none
  else
    match payload.side with
    | none => Proc.throw .dataIntegrityError
    | some side =>
      if side ≠ "BUY" ∧ side ≠ "SELL" then Proc.throw .dataIntegrityError
      else do
        let price ← Proc.ofExcept (venueDecimal payload.avgPrice)
        if price ≤ 0 then Proc.throw .dataIntegrityError
        else do
          let filledAt ← Proc.ofExcept (venueUpdateTime payload)
          let fill ← recordFill (recoveredDraft c order side (executed - observed) price filledAt
            executed)
          auditRecord .orderRecovered
          pure (some fill)

/-! ## Recovery -/

/-- `RecoveryReport`; `unresolved_ids` are the ids of `unresolved`. -/
structure RecoveryReport where
  recovered : List JournalFill
  resolvedIds : List String
  unresolved : List UnresolvedOrder

def unresolvedOrderOf (submit : JournalSubmit) : UnresolvedOrder where
  clientOrderId := submit.clientOrderId
  symbol := submit.symbol
  attemptSeq := submit.attemptSeq
  legIndex := submit.legIndex.getD 0

def resolveOrder (orderId status : String) : WorldM Unit := do
  recordTerminal orderId status
  auditRecord .orderRecoveryResolved

/-- One submission of `recover_unresolved_orders`. -/
def recoverSubmit (c : RecoverConfig) (report : RecoveryReport) (submit : JournalSubmit) :
    WorldM RecoveryReport := do
  let payload ← queryIfKnown submit.symbol submit.clientOrderId
  match payload with
  | none => do
    resolveOrder submit.clientOrderId orderNotFoundStatus
    pure { report with resolvedIds := report.resolvedIds ++ [submit.clientOrderId] }
  | some payload => do
    let margin ← clockOffsetMarginMs
    Proc.ofExcept (guardOrderIdentity (some submit) payload (recoveryTolerance c margin))
    if payload.status = "" then Proc.throw .dataIntegrityError
    else if isOpenStatus payload.status then
      pure { report with unresolved := report.unresolved ++ [unresolvedOrderOf submit] }
    else do
      let fill ← bookRecoveredDelta c (unresolvedOrderOf submit) payload
        (recoveryTolerance c margin) (some submit)
      resolveOrder submit.clientOrderId payload.status
      pure { report with recovered := report.recovered ++ fill.toList,
                         resolvedIds := report.resolvedIds ++ [submit.clientOrderId] }

def recoverSubmits (c : RecoverConfig) :
    List JournalSubmit → RecoveryReport → WorldM RecoveryReport
  | [], report => pure report
  | submit :: rest, report => do
    let next ← recoverSubmit c report submit
    recoverSubmits c rest next

def recoverUnresolvedOrders (c : RecoverConfig) : WorldM RecoveryReport :=
  if c.suppressed then pure { recovered := [], resolvedIds := [], unresolved := [] }
  else do
    let w ← Proc.get
    recoverSubmits c (w.journal.unresolvedSubmits (c.now - c.lookback))
      { recovered := [], resolvedIds := [], unresolved := [] }

/-! ## Settlement -/

structure UnresolvedSettlement where
  recovered : List JournalFill
  resolvedIds : List String
  stillOpen : List UnresolvedOrder

/-- One order of `settle_unresolved_orders`. -/
def settleOrder (c : RecoverConfig) (submits : Journal) (settlement : UnresolvedSettlement)
    (order : UnresolvedOrder) : WorldM UnresolvedSettlement := do
  let confirmation ← cancelAndConfirm order.symbol order.clientOrderId
  if confirmation.status = orderNotFoundStatus then do
    resolveOrder order.clientOrderId orderNotFoundStatus
    pure { settlement with resolvedIds := settlement.resolvedIds ++ [order.clientOrderId] }
  else
    match confirmation.payload with
    | none => Proc.throw .other
    | some payload => do
      let margin ← clockOffsetMarginMs
      let fill ← bookRecoveredDelta c order payload (recoveryTolerance c margin)
        (submits.submitOf order.clientOrderId)
      if confirmation.closed then do
        resolveOrder order.clientOrderId confirmation.status
        pure { settlement with recovered := settlement.recovered ++ fill.toList,
                               resolvedIds := settlement.resolvedIds ++ [order.clientOrderId] }
      else
        pure { settlement with recovered := settlement.recovered ++ fill.toList,
                               stillOpen := settlement.stillOpen ++ [order] }

def settleOrders (c : RecoverConfig) (submits : Journal) :
    List UnresolvedOrder → UnresolvedSettlement → WorldM UnresolvedSettlement
  | [], settlement => pure settlement
  | order :: rest, settlement => do
    let next ← settleOrder c submits settlement order
    settleOrders c submits rest next

def settleUnresolvedOrders (c : RecoverConfig) (unresolved : List UnresolvedOrder) : WorldM UnresolvedSettlement :=
  if c.suppressed then pure { recovered := [], resolvedIds := [], stillOpen := [] }
  else do
    let w ← Proc.get
    settleOrders c w.journal unresolved { recovered := [], resolvedIds := [], stillOpen := [] }

/-- The recovery of a cycle: recover, then settle what recovery left open. -/
def recoverAndSettle (c : RecoverConfig) : WorldM UnresolvedSettlement := do
  let report ← recoverUnresolvedOrders c
  settleUnresolvedOrders c report.unresolved

end CryptoPilot.Live
