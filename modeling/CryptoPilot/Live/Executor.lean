/- # Executor — the passive executor: one cooperative loop over all intents.

Each intent walks POST, HOLD, CHASE (bounded), CAPPED-IOC, RESIDUAL on its own `IntentRuntime`; the
loop polls and posts them in turn, settles them at the window's end, and cleans up on a shutdown or
an exception. -/
import Mathlib.Data.List.FinRange
import CryptoPilot.Live.OrderCancel

namespace CryptoPilot.Live

open CryptoPilot.Lib

/-! ## State -/

inductive Phase where
  | passive
  | ioc
  deriving DecidableEq, Repr

/-- The only `block_reason` the executor writes. -/
inductive BlockReason where
  | blockedByCloseLeg
  deriving DecidableEq, Repr

/-- One entry of `fills`. -/
structure FillEntry where
  quantity : ℚ
  price : ℚ
  feeBps : ℚ
  reason : String
  liquidity : Liquidity
  filledAt : ℚ
  deriving DecidableEq

/-- `_IntentRuntime`: the progress of one intent. -/
structure IntentRuntime where
  index : ℕ
  intent : OrderIntent
  filters : Option SymbolFilters
  phase : Phase := .passive
  activeId : Option String := none
  activePrice : ℚ := 0
  reportedExecuted : ℚ := 0
  filledTotal : ℚ := 0
  fillNotional : ℚ := 0
  chases : ℤ := 0
  attempts : ℕ := 0
  iocAttempts : ℤ := 0
  postedAt : ℚ := 0
  finalizedAt : ℚ := 0
  terminalStatus : Option OutcomeStatus := none
  paperActive : Bool := false
  activePostQty : ℚ := 0
  fills : List FillEntry := []
  passiveStartedAt : ℚ := 0
  lastRepegAt : ℚ := 0
  passiveQuote : ℚ := 0
  unresolvedId : Option String := none
  unresolvedPrice : ℚ := 0
  unresolvedPostQty : ℚ := 0
  unresolvedTif : Option TimeInForce := none
  unknownMisses : ℤ := 0
  readFailures : ℤ := 0
  unresolvedAt : ℚ := 0
  rejectCode : Option ℤ := none
  marginRejects : ℤ := 0
  marginWaitUntil : ℚ := 0
  shutdownFinalized : Bool := false
  journalSubmitted : List String := []
  journalTerminals : List String := []
  blockReason : Option BlockReason := none
  hardStopAt : ℚ := 0
  waitLogged : Bool := false

namespace IntentRuntime

def done (rt : IntentRuntime) : Bool := rt.terminalStatus.isSome

def remaining (rt : IntentRuntime) : ℚ := rt.intent.quantity - rt.filledTotal

def isBuy (rt : IntentRuntime) : Bool := decide (rt.intent.side = .buy)

end IntentRuntime

/-- `_CycleFlags`, with the two once-per-symbol report sets of the run. -/
structure CycleFlags where
  riskIncreaseFrozen : Bool := false
  freezeCode : Option ℤ := none
  quoteInvalidReported : List String := []
  degradedSymbols : List String := []

/-- The arguments of `execute_intents` that do not change during a run. -/
structure ExecConfig where
  policy : PassiveExecutionPolicy
  filters : Dict SymbolFilters
  attemptSeq : ℤ
  sha256 : Digest
  rateLimits : Option RateLimits := none
  clientHorizonS : Option ℚ := none
  orderIdentityToleranceMs : Option ℤ := none
  paperTape : Bool := false
  shutdown : Bool := false
  shutdownCleanupBudgetS : Option ℚ := none
  immediateTaker : Bool := false

/-- What one intent's program sees: its runtime, the status of its close leg (if any), the cycle
flags and the world. -/
structure Local where
  rt : IntentRuntime
  closeLeg : Option (Option OutcomeStatus)
  flags : CycleFlags
  w : World

abbrev IntentM : Type → Type := Proc Exc Local

def liftWorld {α : Type} (x : WorldM α) : IntentM α :=
  Proc.zoom Local.w (fun s w => { s with w := w }) x

def getRt : IntentM IntentRuntime := do
  let s ← Proc.get
  pure s.rt

def modifyRt (f : IntentRuntime → IntentRuntime) : IntentM Unit :=
  Proc.modify fun s => { s with rt := f s.rt }

def modifyFlags (f : CycleFlags → CycleFlags) : IntentM Unit :=
  Proc.modify fun s => { s with flags := f s.flags }

def auditIntent (kind : AuditKind) : IntentM Unit := liftWorld (auditRecord kind)

/-- An `assert` that fails. -/
def assertionError {α : Type} : IntentM α := Proc.throw .other

/-! ## Ends of an intent -/

/-- `terminal_status` and `finalized_at`. -/
def endIntent (status : OutcomeStatus) (now : ℚ) : IntentM Unit :=
  modifyRt fun rt => { rt with terminalStatus := some status, finalizedAt := now }

/-- `_journal_terminal`: once per submitted id of this runtime. -/
def journalTerminal (orderId : Option String) (status : String) : IntentM Unit := do
  let rt ← getRt
  match orderId with
  | none => pure ()
  | some id =>
    if id ∈ rt.journalTerminals ∨ id ∉ rt.journalSubmitted then pure ()
    else do
      modifyRt fun rt => { rt with journalTerminals := id :: rt.journalTerminals }
      liftWorld (recordTerminal id status)

def releaseActive (status : String) : IntentM Unit := do
  let rt ← getRt
  journalTerminal rt.activeId status
  modifyRt fun rt => { rt with activeId := none, activePrice := 0, activePostQty := 0,
                               reportedExecuted := 0, paperActive := false }

def endRejected (now : ℚ) (code : Option ℤ) (orderId : Option String) : IntentM Unit := do
  journalTerminal orderId "REJECTED"
  modifyRt fun rt => { rt with terminalStatus := some .rejected, rejectCode := code,
                               finalizedAt := now }
  auditIntent .intentRejected

def endSubMinimum (now : ℚ) : IntentM Unit := do
  endIntent .residualSubMinimum now
  auditIntent .intentSubMinimum

/-! ## Fills -/

/-- The `reason` of an execution fill. -/
def fillReason : Liquidity → String
  | .maker => "maker_fill"
  | .taker => "timeout_taker"

/-- The draft `_apply_fill` journals. -/
def executionDraft (c : ExecConfig) (rt : IntentRuntime) (quantity price : ℚ) (liquidity : Liquidity)
    (orderId : String) (cumulative : ℚ) (simulated : Bool) (now : ℚ) : FillDraft where
  kind := .execution
  attemptSeq := some c.attemptSeq
  symbol := rt.intent.symbol
  side := rt.intent.side.text
  quantity := quantity
  price := price
  feeBps := c.policy.feeSchedule.bpsFor liquidity
  liquidity := liquidity.text
  reason := fillReason liquidity
  filledAt := now
  clientOrderId := some orderId
  legIndex := rt.intent.legIndex
  cumulativeExecutedQty := if simulated then none else some cumulative
  simulated := simulated

def IntentRuntime.book (rt : IntentRuntime) (c : ExecConfig) (quantity price : ℚ)
    (liquidity : Liquidity) (cumulative now : ℚ) : IntentRuntime :=
  let entry : FillEntry :=
    { quantity := quantity, price := price, feeBps := c.policy.feeSchedule.bpsFor liquidity,
      reason := fillReason liquidity, liquidity := liquidity, filledAt := now }
  { rt with
    filledTotal := rt.filledTotal + quantity
    fillNotional := rt.fillNotional + quantity * price
    reportedExecuted := cumulative
    fills := rt.fills ++ [entry] }

/-- `_apply_fill`: the journal first, then the runtime. -/
def applyFill (c : ExecConfig) (quantity price : ℚ) (liquidity : Liquidity) (orderId : String)
    (cumulative : ℚ) (simulated : Bool) (now : ℚ) : IntentM Unit :=
  if quantity ≤ 0 ∨ price ≤ 0 then Proc.throw .valueError
  else do
    let rt ← getRt
    let _ ← liftWorld (recordFill
      (executionDraft c rt quantity price liquidity orderId cumulative simulated now))
    modifyRt fun rt => rt.book c quantity price liquidity cumulative now
    auditIntent .fill

def parseAvgPrice (payload : OrderPayload) : Option ℚ :=
  match payload.avgPrice with
  | .value q => if 0 < q then some q else none
  | _ => none

/-- `_sync_venue_order` with a payload: book what the venue executed beyond what was reported. -/
def syncVenueOrder (c : ExecConfig) (now : ℚ) (payload : OrderPayload) : IntentM String := do
  let s ← Proc.get
  match s.rt.activeId, s.rt.paperActive with
  | some orderId, false => do
    let margin ← liftWorld clockOffsetMarginMs
    Proc.ofExcept (guardOrderIdentity (s.w.journal.submitOf orderId) payload
      (c.orderIdentityToleranceMs.getD defaultOrderIdentityToleranceMs + margin))
    let executed ← Proc.ofExcept (readExecuted payload.executedQty)
    if s.rt.activePostQty < executed then Proc.throw .dataIntegrityError
    else if s.rt.reportedExecuted < executed then do
      applyFill c (executed - s.rt.reportedExecuted)
        ((parseAvgPrice payload).getD s.rt.activePrice)
        (if s.rt.phase = .passive then .maker else .taker) orderId executed false now
      pure payload.status
    else pure payload.status
  | _, _ => assertionError

/-- `_sync_venue_order` without a payload: query, then book. -/
def querySyncVenueOrder (c : ExecConfig) (now : ℚ) : IntentM String := do
  let rt ← getRt
  match rt.activeId with
  | some orderId => do
    let payload ← liftWorld (queryOrder rt.intent.symbol orderId)
    syncVenueOrder c now payload
  | none => assertionError

/-- The confirmed cancel of `_cancel_and_settle` and `_finalize`: cancel, book what the confirming
query reports, and raise unless the order is confirmed closed.  "Order does not exist" does not
confirm an order this run holds active. -/
def settleCancelled (c : ExecConfig) (now : ℚ) (orderId : String) : IntentM String := do
  let rt ← getRt
  let confirmation ← liftWorld (cancelAndConfirm rt.intent.symbol orderId)
  match confirmation.payload with
  | some payload => do
    let _ ← syncVenueOrder c now payload
    if confirmation.closed then pure confirmation.status
    else do
      auditIntent .orderCancelUnconfirmed
      Proc.throw .cancelNotConfirmed
  | none => do
    auditIntent .orderCancelUnconfirmed
    Proc.throw .cancelNotConfirmed

def cancelAndSettle (c : ExecConfig) (now : ℚ) : IntentM Unit := do
  let rt ← getRt
  match rt.activeId with
  | none => assertionError
  | some orderId => do
    auditIntent .orderCancelled
    if rt.paperActive then releaseActive "CANCELED"
    else do
      let status ← settleCancelled c now orderId
      releaseActive status

/-! ## Paper fills -/

def paperTapeAckDelayMs : ℤ := 50

/-- `int(float(now) * 1000)`. -/
def toMillis (now : ℚ) : ℤ := toIntegralValue .down (now * 1000)

/-- `except Exception: default`. -/
def orDefault {α : Type} (x : IntentM α) (dflt : α) : IntentM α :=
  Proc.tryCatch x fun exc => if exc.isException then pure dflt else Proc.throw exc

def tapeLive (now : ℚ) : IntentM Bool := do
  let rt ← getRt
  orDefault (liftWorld (tapeIsLive rt.intent.symbol (toMillis now))) false

def tapePrinted (now price : ℚ) : IntentM Bool := do
  let rt ← getRt
  orDefault (do
    let fillMs ← liftWorld (tapeTradedThrough rt.intent.symbol rt.intent.side price
      (toMillis rt.postedAt + paperTapeAckDelayMs))
    pure (match fillMs with
      | some ms => decide (ms ≤ toMillis now)
      | none => false)) false

/-- `_simulate_paper_fill`: a GTX fills in full when touch or tape trades through its price, an IOC
always. -/
def simulatePaperFill (useTape : Bool) (now : ℚ) (touch : ℚ × ℚ) (timeInForce : TimeInForce)
    (price postQty : ℚ) : IntentM ℚ := do
  let rt ← getRt
  match timeInForce with
  | .ioc => pure postQty
  | .gtx =>
    if (if rt.isBuy then touch.2 < price else price < touch.1) then pure postQty
    else if useTape then do
      let live ← tapeLive now
      if live then do
        let printed ← tapePrinted now price
        if printed then pure postQty else pure 0
      else pure 0
    else pure 0

/-- `_note_paper_tape_degraded`: once per symbol, and never an exception. -/
def notePaperTapeDegraded : IntentM Unit := do
  let s ← Proc.get
  if s.rt.intent.symbol ∈ s.flags.degradedSymbols then pure ()
  else do
    modifyFlags fun f => { f with degradedSymbols := s.rt.intent.symbol :: f.degradedSymbols }
    orDefault (auditIntent .paperTapeDegraded) ()

/-- The GTX simulation of `_paper_resting_fill` and `_settle_paper_post`; a tape that is not live is
not used. -/
def paperGtxFill (c : ExecConfig) (now : ℚ) (touch : ℚ × ℚ) (price postQty : ℚ) : IntentM ℚ :=
  if c.paperTape then do
    let live ← tapeLive now
    if live then simulatePaperFill true now touch .gtx price postQty
    else do
      notePaperTapeDegraded
      simulatePaperFill false now touch .gtx price postQty
  else simulatePaperFill false now touch .gtx price postQty

/-! ## The close gate -/

inductive GateState where
  | opened
  | wait
  | blocked
  deriving DecidableEq, Repr

/-- `_gate_state` of a runtime whose close leg stands at `closeLeg`. -/
def gateState : Option (Option OutcomeStatus) → GateState
  | none => .opened
  | some none => .wait
  | some (some .residual) | some (some .rejected) => .blocked
  | some (some _) => .opened

/-- `_apply_close_gate`: whether the runtime must not go on. -/
def applyCloseGate (now : ℚ) : IntentM Bool := do
  let s ← Proc.get
  match gateState s.closeLeg with
  | .opened => pure false
  | .wait =>
    if s.rt.waitLogged then pure true
    else do
      modifyRt fun rt => { rt with waitLogged := true }
      auditIntent .flipOpenWaiting
      pure true
  | .blocked => do
    modifyRt fun rt => { rt with terminalStatus := some .residual,
                                 blockReason := some .blockedByCloseLeg, finalizedAt := now }
    auditIntent .flipOpenBlocked
    pure true

def gatedPassiveDeadlineS (c : ExecConfig) (s : Local) : ℚ :=
  match s.closeLeg with
  | none => c.policy.passiveDeadlineS
  | some _ =>
    let reserve := c.policy.windowDeadlineS - c.policy.passiveDeadlineS
    min c.policy.passiveDeadlineS (max 0 (s.rt.hardStopAt - s.rt.passiveStartedAt - reserve))

/-! ## Unknown submissions -/

def unknownSubmissionMissLimit : ℤ := 2

/-- `DEFAULT_UNKNOWN_OUTCOME_HORIZON_S`: the receive window plus the transport timeout. -/
def defaultUnknownOutcomeHorizonS : ℚ := 5 + 30

def unknownOutcomeHorizonS (c : ExecConfig) : ℚ :=
  match c.clientHorizonS with
  | some h => if 0 < h then h else defaultUnknownOutcomeHorizonS
  | none => defaultUnknownOutcomeHorizonS

/-- `_adopt_unknown_submission`: the found order becomes the active one. -/
def adoptUnknownSubmission (now : ℚ) : IntentM Unit := do
  auditIntent .orderUnknownAdopted
  modifyRt fun rt =>
    { rt with activeId := rt.unresolvedId, activePrice := rt.unresolvedPrice,
              activePostQty := rt.unresolvedPostQty, reportedExecuted := 0, postedAt := now,
              iocAttempts := if rt.unresolvedTif = some .ioc then rt.iocAttempts + 1
                else rt.iocAttempts,
              unresolvedId := none, unknownMisses := 0 }

def declareNotPlaced : IntentM Unit := do
  auditIntent .orderUnknownNotPlaced
  let rt ← getRt
  journalTerminal rt.unresolvedId "NOT_PLACED"
  modifyRt fun rt => { rt with unresolvedId := none, unknownMisses := 0 }

/-- `_lookup_unknown_submission`: whether the venue knows the order. -/
def lookupUnknownSubmission : IntentM Bool := do
  let rt ← getRt
  match rt.unresolvedId with
  | none => assertionError
  | some orderId => do
    let payload ← liftWorld (queryIfKnown rt.intent.symbol orderId)
    pure payload.isSome

def lookupAtTick : IntentM (Option Bool) :=
  Proc.tryCatch (some <$> lookupUnknownSubmission) fun exc =>
    if exc = .transientReadError then pure none else Proc.throw exc

/-- `_resolve_unknown_submission`: whether the submission is resolved. -/
def resolveUnknownSubmission (c : ExecConfig) (now : ℚ) : IntentM Bool := do
  let found ← lookupAtTick
  match found with
  | none => pure false
  | some true => do
    adoptUnknownSubmission now
    pure true
  | some false => do
    modifyRt fun rt => { rt with unknownMisses := rt.unknownMisses + 1 }
    let rt ← getRt
    if rt.unknownMisses < unknownSubmissionMissLimit then pure false
    else if now - rt.unresolvedAt < unknownOutcomeHorizonS c then pure false
    else do
      declareNotPlaced
      pure true

/-- The sleeper of an exit: the real one at the window end, none in the cleanup paths. -/
def exitSleep (real : Bool) (seconds : ℚ) : IntentM Unit :=
  if real then liftWorld (sleep seconds) else pure ()

/-- The second look of `_resolve_unknown_at_exit`, after the horizon was slept. -/
def resolveAfterSleep (c : ExecConfig) (now : ℚ) : IntentM (Option ℚ) := do
  let found ← lookupUnknownSubmission
  let rt ← getRt
  if found then do
    adoptUnknownSubmission now
    pure (some now)
  else if now - rt.unresolvedAt < unknownOutcomeHorizonS c then do
    auditIntent .orderUnknownLeftUnresolved
    pure none
  else do
    declareNotPlaced
    pure (some now)

/-- `_resolve_unknown_at_exit`: the reading to go on with; none leaves the order to restart
recovery. -/
def resolveUnknownAtExit (c : ExecConfig) (realSleep : Bool) (now : ℚ) : IntentM (Option ℚ) := do
  let found ← lookupUnknownSubmission
  let rt ← getRt
  if found then do
    adoptUnknownSubmission now
    pure (some now)
  else if unknownOutcomeHorizonS c ≤ now - rt.unresolvedAt then do
    declareNotPlaced
    pure (some now)
  else do
    exitSleep realSleep (unknownOutcomeHorizonS c - (now - rt.unresolvedAt))
    let later ← liftWorld clock
    resolveAfterSleep c later

/-! ## Polling -/

/-- The resting PAPER order of an anchored mode; whether the poll ends here. -/
def pollPaper (c : ExecConfig) (touch : ℚ × ℚ) (now : ℚ) (orderId : String) : IntentM Bool := do
  let rt ← getRt
  if c.policy.passivePricing ≠ .touchChase ∧ rt.phase = .passive ∧ 0 < rt.activePrice ∧
      0 < rt.activePostQty - rt.reportedExecuted then do
    let fill ← paperGtxFill c now touch rt.activePrice (rt.activePostQty - rt.reportedExecuted)
    if 0 < fill then do
      applyFill c fill rt.activePrice .maker orderId (rt.reportedExecuted + fill) true now
      let rt ← getRt
      if rt.activePostQty ≤ rt.reportedExecuted then do
        releaseActive "FILLED"
        if rt.remaining ≤ 0 then endIntent .filled now else pure ()
        pure true
      else pure false
    else pure false
  else pure false

/-- The first half of `_poll_active`: learn the fills of the active order. -/
def pollFills (c : ExecConfig) (touch : ℚ × ℚ) (now : ℚ) (orderId : String) : IntentM Bool := do
  let rt ← getRt
  if rt.paperActive then pollPaper c touch now orderId
  else do
    let _ ← querySyncVenueOrder c now
    pure false

/-- The re-peg of `_poll_active`: move the quote level to the touch, capped at the band. -/
def pollRepeg (c : ExecConfig) (filters : SymbolFilters) (touch : ℚ × ℚ) (now : ℚ) :
    IntentM Unit := do
  let rt ← getRt
  let candidate ← Proc.ofExcept (bandCappedPegPrice (if rt.isBuy then touch.1 else touch.2) rt.isBuy
    filters.tickSize (band rt.intent c.policy).1 (band rt.intent c.policy).2)
  modifyRt fun rt => { rt with lastRepegAt := now, passiveQuote := candidate }
  if candidate ≠ rt.activePrice then cancelAndSettle c now else pure ()

/-- The second half of `_poll_active`: fill, time out, finish a slice, re-peg, chase or hold. -/
def pollAdvance (c : ExecConfig) (filters : SymbolFilters) (touch : ℚ × ℚ) (now : ℚ) :
    IntentM Unit := do
  let s ← Proc.get
  let rt := s.rt
  let ownTouch := if rt.isBuy then touch.1 else touch.2
  if rt.remaining ≤ 0 then do
    if rt.activeId.isSome then releaseActive "FILLED" else pure ()
    endIntent .filled now
  else
    match rt.phase with
    | .ioc => cancelAndSettle c now
    | .passive =>
      if gatedPassiveDeadlineS c s ≤ now - rt.passiveStartedAt then do
        cancelAndSettle c now
        modifyRt fun rt => { rt with phase := .ioc }
      else if 0 < rt.activePostQty ∧ rt.activePostQty ≤ rt.reportedExecuted then
        cancelAndSettle c now
      else if c.policy.passivePricing = .touchChase ∧ c.policy.maxChases ≤ rt.chases then pure ()
      else if c.policy.passivePricing = .anchoredRepeg ∧
          c.policy.repegIntervalS ≤ now - rt.lastRepegAt then
        pollRepeg c filters touch now
      else if filters.tickSize * c.policy.chaseTicks ≤ |ownTouch - rt.activePrice| ∧
          c.policy.passivePricing = .touchChase then do
        cancelAndSettle c now
        modifyRt fun rt => { rt with chases := rt.chases + 1 }
      else pure ()

def pollActive (c : ExecConfig) (touch : ℚ × ℚ) (now : ℚ) : IntentM Unit := do
  let rt ← getRt
  match rt.filters, rt.activeId with
  | some filters, some orderId => do
    let ended ← pollFills c touch now orderId
    if ended then pure () else pollAdvance c filters touch now
  | _, _ => assertionError

/-! ## Posting -/

def overFraction (fraction : ℚ) (count : Option ℤ) (limit : ℤ) : Bool :=
  match count with
  | none => false
  | some used => decide (0 < limit ∧ fraction * limit < used)

def orderBudgetExceeded (c : ExecConfig) : IntentM Bool :=
  match c.rateLimits with
  | none => pure false
  | some limits => do
    let state ← liftWorld rateState
    match state with
    | none => pure false
    | some rate =>
      pure (overFraction c.policy.rateWeightBudgetFraction rate.orderCount10s limits.orders10s ||
        overFraction c.policy.rateWeightBudgetFraction rate.orderCount1m limits.orders1m)

def markPosted (orderId : String) (price postQty now : ℚ) (simulated : Bool) : IntentM Unit :=
  modifyRt fun rt =>
    { rt with activeId := some orderId, activePrice := price, activePostQty := postQty,
              reportedExecuted := 0, postedAt := now,
              paperActive := if simulated then true else rt.paperActive }

def recordOrderPosted (timeInForce : TimeInForce) : IntentM Unit := do
  modifyRt fun rt => { rt with iocAttempts := if timeInForce = .ioc then rt.iocAttempts + 1
    else rt.iocAttempts }
  auditIntent .orderPosted

def paperPostFill (c : ExecConfig) (now : ℚ) (touch : ℚ × ℚ) (timeInForce : TimeInForce)
    (price postQty : ℚ) : IntentM ℚ :=
  match timeInForce with
  | .gtx => paperGtxFill c now touch price postQty
  | .ioc => simulatePaperFill false now touch .ioc price postQty

/-- `_settle_paper_post`, after `_mark_posted`. -/
def settlePaperPost (c : ExecConfig) (touch : ℚ × ℚ) (now : ℚ) (orderId : String)
    (timeInForce : TimeInForce) (price postQty : ℚ) : IntentM Unit := do
  let executedQty ← paperPostFill c now touch timeInForce price postQty
  if 0 < executedQty then do
    applyFill c executedQty price (if timeInForce = .gtx then .maker else .taker) orderId executedQty
      true now
    if postQty ≤ executedQty then releaseActive "FILLED" else pure ()
    let rt ← getRt
    if rt.remaining ≤ 0 then do
      endIntent .filled now
      auditIntent .paperFilled
    else recordOrderPosted timeInForce
  else recordOrderPosted timeInForce

def tooManyRequests : ℤ := 429

/-- The `MARGIN_WAIT` branch of `_handle_post_error`: only an increase is retried, a bounded number
of times. -/
def handleMarginWait (c : ExecConfig) (code : Option ℤ) (orderId : String) (now : ℚ) :
    IntentM Unit := do
  let rt ← getRt
  if rt.intent.reduceOnly then endRejected now code (some orderId)
  else do
    modifyRt fun rt => { rt with marginRejects := rt.marginRejects + 1 }
    if c.policy.maxMarginRejects < rt.marginRejects + 1 then endRejected now code (some orderId)
    else do
      modifyRt fun rt => { rt with marginWaitUntil := now + c.policy.marginRetryS }
      journalTerminal (some orderId) "NOT_PLACED"
      auditIntent .intentMarginWait

/-- `_handle_post_error`: whether the error was fully handled for this intent. -/
def handlePostError (c : ExecConfig) (code : Option ℤ) (httpStatus : ℤ) (orderId : String)
    (now : ℚ) : IntentM Bool :=
  if httpStatus = tooManyRequests ∨ resolveErrorAction code = .retryBackoffLong then do
    journalTerminal (some orderId) "NOT_PLACED"
    auditIntent .orderRateLimited
    pure true
  else
    match resolveErrorAction code with
    | .intentReject => do
      endRejected now code (some orderId)
      pure true
    | .marginWait => do
      handleMarginWait c code orderId now
      pure true
    | .riskIncreaseFreeze => do
      modifyFlags fun f => { f with riskIncreaseFrozen := true, freezeCode := code }
      auditIntent .riskIncreaseFrozen
      endRejected now code (some orderId)
      pure true
    | .benignReprice => do
      journalTerminal (some orderId) "NOT_PLACED"
      modifyRt fun rt => { rt with chases := rt.chases + 1 }
      pure true
    | _ => pure false

/-- What follows `client.new_order`. -/
def handleReply (c : ExecConfig) (touch : ℚ × ℚ) (now : ℚ) (orderId : String)
    (timeInForce : TimeInForce) (price postQty : ℚ) : Reply → IntentM Unit
  | .error .orderStatusUnknown => do
    modifyRt fun rt =>
      { rt with unresolvedId := some orderId, unresolvedPrice := price,
                unresolvedPostQty := postQty, unresolvedTif := some timeInForce,
                unknownMisses := 0, unresolvedAt := now }
    auditIntent .orderStatusUnknown
  | .error (.venueError code httpStatus) => do
    let handled ← handlePostError c code httpStatus orderId now
    if handled then pure () else Proc.throw (.venueError code httpStatus)
  | .error .orderObsolete => do
    journalTerminal (some orderId) "OBSOLETE"
    endIntent .obsolete now
    auditIntent .intentObsolete
  | .error exc => Proc.throw exc
  | .shadow => endIntent .shadow now
  | .paper => do
    markPosted orderId price postQty now true
    settlePaperPost c touch now orderId timeInForce price postQty
  | _ => do
    markPosted orderId price postQty now false
    recordOrderPosted timeInForce

def orderParams (rt : IntentRuntime) (orderId : String) (timeInForce : TimeInForce)
    (price postQty : ℚ) : OrderParams where
  symbol := rt.intent.symbol
  side := rt.intent.side
  type := "LIMIT"
  timeInForce := timeInForce
  quantity := postQty
  price := price
  newClientOrderId := orderId
  reduceOnly := rt.intent.reduceOnly

/-- The post proper: the submission is journaled with its sequence number, then sent. -/
def submitOrder (c : ExecConfig) (touch : ℚ × ℚ) (now : ℚ) (timeInForce : TimeInForce)
    (price postQty : ℚ) : IntentM Unit := do
  let exceeded ← orderBudgetExceeded c
  if exceeded then pure ()
  else do
    let s ← Proc.get
    let submitSeq := s.w.journal.nextSubmitSeq
    let orderId ← Proc.ofExcept (buildClientOrderId c.sha256 s.rt.intent.clientOrderPrefix
      s.rt.intent.symbol s.rt.intent.legIndex 0 submitSeq)
    let _ ← liftWorld (recordSubmit orderId s.rt.intent.symbol submitSeq c.attemptSeq s.rt.intent.side
      postQty s.rt.intent.reduceOnly s.rt.intent.legIndex)
    modifyRt fun rt => { rt with journalSubmitted := orderId :: rt.journalSubmitted,
                                 attempts := rt.attempts + 1 }
    let reply ← liftWorld (newOrder { owner := s.rt.index, closeLeg := s.closeLeg }
      (orderParams s.rt orderId timeInForce price postQty))
    handleReply c touch now orderId timeInForce price postQty reply

/-- The quantity of a post: the head slice, or all that remains when that is under the venue's
minimum. -/
def postAt (c : ExecConfig) (filters : SymbolFilters) (touch : ℚ × ℚ) (now : ℚ)
    (timeInForce : TimeInForce) (price : ℚ) : IntentM Unit := do
  let rt ← getRt
  if rt.remaining < filters.minQty then endSubMinimum now
  else do
    let postQty ← Proc.ofExcept (postQuantity rt.remaining price filters.stepSize c.policy.maxSlices)
    if postQty < filters.minQty ∨ postQty * price < filters.minNotional then
      if rt.remaining * price < filters.minNotional ∧ rt.intent.reduceOnly = false then
        endSubMinimum now
      else submitOrder c touch now timeInForce price rt.remaining
    else submitOrder c touch now timeInForce price postQty

/-- The price of a post: passive inside the band, or the capped backstop; no price, no post. -/
def postPriced (c : ExecConfig) (filters : SymbolFilters) (touch : ℚ × ℚ) (now : ℚ) :
    IntentM Unit := do
  let rt ← getRt
  match rt.phase with
  | .passive => do
    let price ← Proc.ofExcept
      (passivePrice c.policy rt.intent filters rt.passiveQuote touch.1 touch.2)
    match price with
    | none => pure ()
    | some price => postAt c filters touch now .gtx price
  | .ioc =>
    if c.policy.maxIocAttempts ≤ rt.iocAttempts then endIntent .residual now
    else do
      let price ← Proc.ofExcept (backstopPrice c.policy rt.intent filters touch.1 touch.2)
      match price with
      | none => pure ()
      | some price => postAt c filters touch now .ioc price

/-- The post step of `_poll_or_post`. -/
def post (c : ExecConfig) (filters : SymbolFilters) (touch : ℚ × ℚ) (now : ℚ) : IntentM Unit := do
  let s ← Proc.get
  let rt := s.rt
  if rt.remaining ≤ 0 then do
    journalTerminal rt.activeId "FILLED"
    endIntent .filled now
  else if now < rt.marginWaitUntil then pure ()
  else if s.flags.riskIncreaseFrozen = true ∧ rt.intent.reduceOnly = false then
    endRejected now s.flags.freezeCode none
  else do
    if rt.phase = .passive ∧ gatedPassiveDeadlineS c s ≤ now - rt.passiveStartedAt then
      modifyRt fun rt => { rt with phase := .ioc }
    else pure ()
    postPriced c filters touch now

/-- The poll step of `_poll_or_post` with its transient-read budget; whether to post. -/
def pollStep (c : ExecConfig) (touch : ℚ × ℚ) (now : ℚ) : IntentM Bool := do
  let rt ← getRt
  match rt.activeId with
  | none => pure true
  | some _ =>
    Proc.tryCatch (do
      pollActive c touch now
      modifyRt fun rt => { rt with readFailures := 0 }
      let rt ← getRt
      pure (!rt.done && rt.activeId.isNone)) fun exc =>
        if exc = .transientReadError then do
          modifyRt fun rt => { rt with readFailures := rt.readFailures + 1 }
          auditIntent .tickSkippedReadFailure
          let rt ← getRt
          if c.policy.maxConsecutiveReadFailures < rt.readFailures then Proc.throw exc
          else pure false
        else Proc.throw exc

/-- The unknown-submission step of `_poll_or_post`; whether to go on. -/
def resolveStep (c : ExecConfig) (now : ℚ) : IntentM Bool := do
  let rt ← getRt
  match rt.unresolvedId with
  | none => pure true
  | some _ => resolveUnknownSubmission c now

/-- `_poll_or_post`: gate, resolve, poll, post. -/
def pollOrPost (c : ExecConfig) (touch : ℚ × ℚ) (now : ℚ) : IntentM Unit := do
  let rt ← getRt
  match rt.filters with
  | none => assertionError
  | some filters => do
    let held ← applyCloseGate now
    if held then pure ()
    else do
      modifyRt fun rt =>
        { rt with passiveStartedAt := if rt.passiveStartedAt = 0 then now else rt.passiveStartedAt,
                  lastRepegAt := if rt.lastRepegAt = 0 then now else rt.lastRepegAt }
      let resolved ← resolveStep c now
      if resolved then do
        let goOn ← pollStep c touch now
        if goOn then post c filters touch now else pure ()
      else pure ()

/-! ## The end of one intent's window -/

/-- The unresolved order of `_finalize`. -/
def finalizeUnresolved (c : ExecConfig) (realSleep : Bool) (now : ℚ) : IntentM (Option ℚ) := do
  let rt ← getRt
  match rt.unresolvedId with
  | none => pure (some now)
  | some _ => resolveUnknownAtExit c realSleep now

/-- The active order of `_finalize`. -/
def finalizeActive (c : ExecConfig) (now : ℚ) : IntentM Unit := do
  let rt ← getRt
  match rt.activeId with
  | none => pure ()
  | some orderId =>
    if rt.paperActive then releaseActive "CANCELED"
    else do
      let status ← settleCancelled c now orderId
      auditIntent .orderCancelled
      releaseActive status

/-- `_finalize` of one runtime. -/
def finalizeOne (c : ExecConfig) (realSleep : Bool) : IntentM Unit := do
  let rt ← getRt
  if rt.done then pure ()
  else do
    let start ← liftWorld clock
    let resolved ← finalizeUnresolved c realSleep start
    match resolved with
    | none => pure ()
    | some now => do
      finalizeActive c now
      let rt ← getRt
      if 0 < rt.remaining then do
        endIntent .residual now
        auditIntent .orderResidual
      else endIntent .filled now

/-! ## The run -/

/-- The state of one `execute_intents` run over `n` intents. -/
structure Run (n : ℕ) where
  rts : Fin n → IntentRuntime
  deps : Fin n → Option (Fin n)
  flags : CycleFlags
  w : World

abbrev RunM (n : ℕ) : Type → Type := Proc Exc (Run n)

namespace Run

variable {n : ℕ}

/-- What intent `i` sees of the run. -/
def view (i : Fin n) (s : Run n) : Local where
  rt := s.rts i
  closeLeg := (s.deps i).map fun j => (s.rts j).terminalStatus
  flags := s.flags
  w := s.w

/-- The run after intent `i` moved. -/
def put (i : Fin n) (s : Run n) (l : Local) : Run n :=
  { s with rts := Function.update s.rts i l.rt, flags := l.flags, w := l.w }

end Run

section RunPrograms

variable {n : ℕ}

/-- A step of intent `i` inside the run. -/
def atIntent {α : Type} (i : Fin n) (x : IntentM α) : RunM n α :=
  Proc.zoom (Run.view i) (Run.put i) x

def liftRun {α : Type} (x : WorldM α) : RunM n α :=
  Proc.zoom Run.w (fun s w => { s with w := w }) x

/-- `_link_close_dependencies` for intent `i`: the same-symbol reduce-only intent of the greatest
lower leg. -/
def closeDependency (intents : Fin n → OrderIntent) (i : Fin n) : Option (Fin n) :=
  if (intents i).reduceOnly then none
  else
    (List.finRange n).foldl (fun candidate j =>
      if j ≠ i ∧ (intents j).symbol = (intents i).symbol ∧ (intents j).reduceOnly = true ∧
          (intents j).legIndex < (intents i).legIndex ∧
          (∀ best, candidate = some best → (intents best).legIndex < (intents j).legIndex)
      then some j else candidate) none

/-- The fresh runtimes of `execute_intents`; an intent without filters is RESIDUAL at once. -/
def initRuntime (c : ExecConfig) (index : ℕ) (intent : OrderIntent) : IntentRuntime where
  index := index
  intent := intent
  filters := c.filters.lookup intent.symbol
  terminalStatus := if (c.filters.lookup intent.symbol).isNone then some .residual else none

def initRun (c : ExecConfig) (intents : List OrderIntent) (w : World) : Run intents.length where
  rts := fun i => initRuntime c i (intents.get i)
  deps := closeDependency intents.get
  flags := {}
  w := w

def liveIntents (s : Run n) : List (Fin n) :=
  (List.finRange n).filter fun i => !(s.rts i).done

/-- `sorted(live, key=...)`: the close legs first, each group in order (the sort is stable). -/
def tickOrder (s : Run n) (live : List (Fin n)) : List (Fin n) :=
  live.filter (fun i => (s.rts i).intent.reduceOnly) ++
    live.filter (fun i => !(s.rts i).intent.reduceOnly)

def effectiveWindowDeadlineS (c : ExecConfig) (s : Run n) : ℚ :=
  if (List.finRange n).any (fun i => (s.deps i).isSome) then
    c.policy.windowDeadlineS + c.policy.passiveDeadlineS
  else c.policy.windowDeadlineS

/-- `_note_invalid_quote`: one row per symbol and run. -/
def noteInvalidQuote (entries : Dict BookEntry) (symbol : String) : RunM n Unit := do
  let s ← Proc.get
  if (entries.lookup symbol).isSome ∧ quoteOf entries symbol = none ∧
      symbol ∉ s.flags.quoteInvalidReported then do
    Proc.modify fun s => { s with flags := { s.flags with
      quoteInvalidReported := symbol :: s.flags.quoteInvalidReported } }
    liftRun (auditRecord .quoteInvalid)
  else pure ()

/-- `_fetch_books`: one batch, unusable quotes reported. -/
def fetchBooks (symbols : List String) : RunM n (Dict BookEntry) := do
  let entries ← liftRun bookTickers
  Proc.forEach symbols (noteInvalidQuote entries)
  pure entries

def tickIntent (c : ExecConfig) (entries : Dict BookEntry) (now : ℚ) (i : Fin n) : RunM n Unit := do
  let s ← Proc.get
  if (s.rts i).done then pure ()
  else
    match quoteOf entries (s.rts i).intent.symbol with
    | none => pure ()
    | some touch => atIntent i (pollOrPost c touch now)

/-- `_throttled_interval` on a rate report. -/
def throttledInterval (policy : PassiveExecutionPolicy) (limits : RateLimits)
    (rate : Option RateLimitState) (interval : ℚ) : ℚ :=
  let cap := policy.windowDeadlineS / 4
  let floor := policy.pollIntervalS
  match rate with
  | none => floor
  | some r =>
    let exceeds := fun fraction =>
      overFraction fraction r.usedWeight1m limits.requestWeight1m ||
        overFraction fraction r.orderCount10s limits.orders10s ||
        overFraction fraction r.orderCount1m limits.orders1m
    if r.usedWeight1m = none ∧ r.orderCount10s = none ∧ r.orderCount1m = none then floor
    else if exceeds policy.rateWeightBudgetFraction then min (max (interval * 2) floor) cap
    else if !exceeds policy.rateWeightRecoverFraction then
      if floor < interval then max (interval / 2) floor else floor
    else min (max interval floor) cap

/-- `_throttled_interval`. -/
def nextInterval (c : ExecConfig) (interval : ℚ) : RunM n ℚ :=
  match c.rateLimits with
  | none => pure c.policy.pollIntervalS
  | some limits => do
    let rate ← liftRun rateState
    pure (throttledInterval c.policy limits rate interval)

def finalize (c : ExecConfig) (realSleep : Bool) (live : List (Fin n)) : RunM n Unit :=
  Proc.forEach live fun i => atIntent i (finalizeOne c realSleep)

/-- `_finalize` of one runtime under `except Exception`. -/
def cleanupIntent (c : ExecConfig) : IntentM Unit :=
  Proc.tryCatch (finalizeOne c false) fun exc =>
    if exc.isException then auditIntent .abortCleanupFailed else Proc.throw exc

/-- One runtime of `_shutdown_finalize`. -/
def shutdownIntent (c : ExecConfig) (start : ℚ) : IntentM Unit := do
  modifyRt fun rt => { rt with shutdownFinalized := true }
  let rt ← getRt
  if rt.done then pure ()
  else if rt.activeId.isNone ∧ rt.unresolvedId.isNone then finalizeOne c false
  else do
    let now ← liftWorld clock
    let budget := match c.shutdownCleanupBudgetS with
      | some b => if 0 < b then b else 20
      | none => 20
    if budget ≤ now - start then pure () else cleanupIntent c

/-- `_shutdown_finalize`; the count of unsettled orders only goes into a message. -/
def shutdownFinalize (c : ExecConfig) (live : List (Fin n)) : RunM n Unit := do
  let start ← liftRun clock
  Proc.forEach live fun i => atIntent i (shutdownIntent c start)

/-- One runtime of `_cleanup_on_abort`. -/
def abortIntent (c : ExecConfig) : IntentM Unit := do
  let rt ← getRt
  if rt.shutdownFinalized = true ∨ rt.done = true ∨ rt.paperActive = true ∨
      (rt.activeId.isNone ∧ rt.unresolvedId.isNone) then pure ()
  else cleanupIntent c

def cleanupOnAbort (c : ExecConfig) : RunM n Unit :=
  Proc.forEach (List.finRange n) fun i => atIntent i (abortIntent c)

/-- `shutdown is not None and shutdown.requested`. -/
def pollShutdown (c : ExecConfig) : RunM n Bool :=
  if c.shutdown then liftRun shutdownRequested else pure false

def fetchAtTick (c : ExecConfig) (symbols : List String) (bookFailures : ℤ) : RunM n (Option (Dict BookEntry)) :=
  Proc.tryCatch (some <$> fetchBooks symbols) fun exc =>
    if exc = .transientReadError then do
      liftRun (auditRecord .tickSkippedReadFailure)
      if c.policy.maxConsecutiveReadFailures < bookFailures + 1 then Proc.throw exc else pure none
    else Proc.throw exc

/-- The loop of `_run_loop` over the ticks that are left. -/
def tickLoop (c : ExecConfig) (live order : List (Fin n)) (symbols : List String)
    (start windowS : ℚ) : ℕ → ℤ → ℚ → RunM n Unit
  | 0, _, _ => pure ()
  | ticks + 1, bookFailures, interval => do
    let s ← Proc.get
    if live.all (fun i => (s.rts i).done) then pure ()
    else do
      let requested ← pollShutdown c
      if requested then do
        shutdownFinalize c live
        liftRun (auditRecord .executionInterrupted)
        Proc.throw .executionInterrupted
      else do
        let now ← liftRun clock
        if windowS ≤ now - start then pure ()
        else do
          let books ← fetchAtTick c symbols bookFailures
          match books with
          | none => do
            liftRun (sleep interval)
            tickLoop c live order symbols start windowS ticks (bookFailures + 1) interval
          | some entries => do
            Proc.forEach order (tickIntent c entries now)
            let s ← Proc.get
            if live.all (fun i => (s.rts i).done) then pure ()
            else do
              let next ← nextInterval c interval
              liftRun (sleep next)
              tickLoop c live order symbols start windowS ticks 0 next

/-- The last pass of `_run_loop`: a leg whose close leg ended RESIDUAL or REJECTED is blocked. -/
def blockStep (i : Fin n) : RunM n Unit := do
  let s ← Proc.get
  if (s.rts i).blockReason = none ∧ gateState (s.view i).closeLeg = .blocked then
    atIntent i (do
      let now ← liftWorld clock
      let _ ← applyCloseGate now
      pure ())
  else pure ()

def runLoop (c : ExecConfig) : RunM n Unit := do
  let s ← Proc.get
  let live := liveIntents s
  if live.isEmpty then pure ()
  else do
    let symbols := ((live.map fun i => (s.rts i).intent.symbol).dedup).insertionSort (· ≤ ·)
    let start ← liftRun clock
    let windowS := effectiveWindowDeadlineS c s
    Proc.modify fun s => { s with rts := fun i => { s.rts i with hardStopAt := start + windowS } }
    let maxTicks := (⌈windowS / c.policy.pollIntervalS⌉ + 1).toNat
    tickLoop c live (tickOrder s live) symbols start windowS maxTicks 0 c.policy.pollIntervalS
    finalize c true live
    Proc.forEach live blockStep

/-! ## Outcomes -/

structure ExecutionOutcome where
  symbol : String
  filledQty : ℚ
  unfilledQty : ℚ
  avgFillPrice : Option ℚ
  chases : ℤ
  status : OutcomeStatus
  latencySeconds : Option ℚ
  fills : List FillEntry
  makerQty : ℚ
  takerQty : ℚ
  rejectCode : Option ℤ
  blockReason : Option BlockReason

def liquidityQty (liquidity : Liquidity) (fills : List FillEntry) : ℚ :=
  ((fills.filter fun f => decide (f.liquidity = liquidity)).map FillEntry.quantity).sum

def IntentRuntime.snapshot (rt : IntentRuntime) : ExecutionOutcome :=
  let status := match rt.terminalStatus with
    | some status => status
    | none =>
      if 0 < rt.intent.quantity ∧ rt.intent.quantity ≤ rt.filledTotal then .filled else .residual
  { symbol := rt.intent.symbol
    filledQty := rt.filledTotal
    unfilledQty := max rt.remaining 0
    avgFillPrice := if 0 < rt.filledTotal then some (rt.fillNotional / rt.filledTotal) else none
    chases := rt.chases
    status := status
    latencySeconds := if 0 < rt.postedAt ∧ 0 < rt.finalizedAt then
      some (max 0 (rt.finalizedAt - rt.postedAt)) else none
    fills := rt.fills
    makerQty := liquidityQty .maker rt.fills
    takerQty := liquidityQty .taker rt.fills
    rejectCode := if status = .rejected then rt.rejectCode else none
    blockReason := rt.blockReason }

/-- The fill of one intent in `simulate_immediate_taker_fills`: the whole quantity at the mid. -/
def immediateTakerDraft (c : ExecConfig) (intent : OrderIntent) (touch : ℚ × ℚ) (now : ℚ) : FillDraft where
  kind := .execution
  attemptSeq := some c.attemptSeq
  symbol := intent.symbol
  side := intent.side.text
  quantity := intent.quantity
  price := (touch.1 + touch.2) / 2
  feeBps := c.policy.feeSchedule.takerFeeBps + c.policy.takerSlippageBps
  liquidity := Liquidity.taker.text
  reason := "immediate_taker"
  filledAt := now
  clientOrderId := none
  legIndex := intent.legIndex
  cumulativeExecutedQty := none
  simulated := true

/-- One outcome of `simulate_immediate_taker_fills`. -/
def immediateTakerOutcome (c : ExecConfig) (intent : OrderIntent) (touch : Option (ℚ × ℚ))
    (now : ℚ) : ExecutionOutcome :=
  match touch with
  | none =>
    { symbol := intent.symbol, filledQty := 0, unfilledQty := intent.quantity,
      avgFillPrice := none, chases := 0, status := .residual, latencySeconds := some 0,
      fills := [], makerQty := 0, takerQty := 0, rejectCode := none, blockReason := none }
  | some touch =>
    { symbol := intent.symbol, filledQty := intent.quantity, unfilledQty := 0,
      avgFillPrice := some ((touch.1 + touch.2) / 2), chases := 0, status := .filled,
      latencySeconds := some 0,
      fills := [{ quantity := intent.quantity, price := (touch.1 + touch.2) / 2,
                  feeBps := c.policy.feeSchedule.takerFeeBps + c.policy.takerSlippageBps,
                  reason := "immediate_taker", liquidity := .taker, filledAt := now }],
      makerQty := 0, takerQty := intent.quantity, rejectCode := none, blockReason := none }

/-- The `immediate_taker` paper model: no order is posted, the simulated fills are journaled. -/
def executeImmediateTaker (c : ExecConfig) (intents : List OrderIntent) :
    RunM n (List ExecutionOutcome) := do
  let requested ← pollShutdown c
  if requested then Proc.throw .executionInterrupted
  else if intents.isEmpty then pure []
  else do
    let symbols := ((intents.map OrderIntent.symbol).dedup).insertionSort (· ≤ ·)
    let entries ← fetchBooks symbols
    let now ← liftRun clock
    Proc.forEach intents fun intent =>
      match quoteOf entries intent.symbol with
      | none => pure ()
      | some touch => do
        let _ ← liftRun (recordFill (immediateTakerDraft c intent touch now))
        pure ()
    Proc.forEach intents fun _ => liftRun (auditRecord .intentOutcome)
    pure (intents.map fun intent =>
      immediateTakerOutcome c intent (quoteOf entries intent.symbol) now)

/-- `execute_intents` with its cleanup on every exception; the death of the process is none. -/
def executeIntents (c : ExecConfig) (intents : List OrderIntent) : RunM n (List ExecutionOutcome) :=
  if c.immediateTaker then executeImmediateTaker c intents
  else do
    Proc.tryCatch (runLoop c) fun exc =>
      if exc = .killed then Proc.throw exc
      else do
        cleanupOnAbort c
        Proc.throw exc
    Proc.forEach (List.finRange n) fun _ => liftRun (auditRecord .intentOutcome)
    let s ← Proc.get
    pure ((List.finRange n).map fun i => (s.rts i).snapshot)

end RunPrograms

end CryptoPilot.Live
