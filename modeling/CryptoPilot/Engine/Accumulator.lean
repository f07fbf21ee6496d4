/- # Accumulator — the fill track of one execution bound.

`Acc` is what a later step reads of `_BoundExecutionReplayAccumulator`: the fill track, the causal
mirror, the streamed ledger, the admitted settlements and the clocks.  A step that raises is an
`.error`. -/
import CryptoPilot.Lib.Effect
import CryptoPilot.Engine.Schedules

namespace CryptoPilot.Engine

open CryptoPilot.Live (Exc)

/-- What an accumulator is constructed with. -/
structure ReplayConfig where
  columns : List String
  initialEquity : ℚ
  bound : ExecutionBound
  spec : ExecutionSpec
  minEquityFraction : Option ℚ
  pairSpread : ℚ × ℚ → ℚ × ℚ → ℚ
  linspace : Microstructure.Linspace
  equity_pos : 0 < initialEquity
  fraction_mem : ∀ x ∈ minEquityFraction, 0 < x ∧ x < 1

/-- `CausalPortfolioState`. -/
structure CausalState where
  cash : ℚ
  units : String → ℚ
  lastMarks : String → Option ℚ
  lastEvent : Option ℤ

structure SpreadState where
  halfSpreadBps : String → Option ℚ
  pendingKey : Option (ℕ × ℕ)
  pairSums : String → ℚ
  pairCounts : String → ℕ
  barCounts : String → ℕ
  carryHigh : String → Option ℚ
  carryLow : String → Option ℚ
  carryNs : String → ℤ

structure LedgerRow where
  bar : ℤ
  equity : ℚ
  mtm : ℚ
  funding : ℚ
  fee : ℚ
  turnover : ℚ
  deriving DecidableEq

/-- `_BoundExecutionReplayAccumulator`. -/
structure Acc where
  cash : ℚ
  units : String → ℚ
  lastPrices : String → Option ℚ
  lastTime : Option ℤ
  /-- every booked fill, in booking order -/
  fills : List Fill
  mirror : CausalState
  mirrorPending : List Fill
  ledgerCash : ℚ
  ledgerUnits : String → ℚ
  lastValidMark : String → Option ℚ
  lastValidMarkAvail : String → ℤ
  ledgerStart : Option ℤ
  /-- the last finite close of a symbol: its bar and the mark there -/
  lastClose : String → Option (ℤ × Option ℚ)
  spread : SpreadState
  admitted : List SettlementEvent
  pending : List SettlementEvent
  admittedBySymbol : String → Option SettlementEvent
  /-- `_last_trade_ns`; `none` is the largest integer -/
  lastTrade : String → Option ℤ
  overrides : ℤ → String → Option ℚ
  booked : List SettlementEvent
  exitClock : ExitClock
  equityFloorBreaches : List ℤ
  trimAnchor : Option ℤ
  /-- `ledger_valid` -/
  valid : Bool
  rows : List LedgerRow
  fundingTotals : String → ℚ
  finalMark : String → Option ℚ
  finalMarkAvail : String → ℤ
  /-- `full_grid_end` -/
  gridEnd : ℤ

def Acc.init (cfg : ReplayConfig) : Acc where
  cash := cfg.initialEquity
  units := fun _ => 0
  lastPrices := fun _ => none
  lastTime := none
  fills := []
  mirror := ⟨cfg.initialEquity, fun _ => 0, fun _ => none, none⟩
  mirrorPending := []
  ledgerCash := cfg.initialEquity
  ledgerUnits := fun _ => 0
  lastValidMark := fun _ => none
  lastValidMarkAvail := fun _ => -1
  ledgerStart := none
  lastClose := fun _ => none
  spread := ⟨fun _ => none, none, fun _ => 0, fun _ => 0, fun _ => 0, fun _ => none, fun _ => none, fun _ => -1⟩
  admitted := []
  pending := []
  admittedBySymbol := fun _ => none
  lastTrade := fun _ => none
  overrides := fun _ _ => none
  booked := []
  exitClock := ⟨fun _ => none, none⟩
  equityFloorBreaches := []
  trimAnchor := none
  valid := true
  rows := []
  fundingTotals := fun _ => 0
  finalMark := fun _ => none
  finalMarkAvail := fun _ => -1
  gridEnd := 0

/-- A plane of marks with the settlement prices written over it: `_settlement_patched_marks`. -/
def Acc.patchedMarks (acc : Acc) (w : Window) (b : ℤ) (s : String) : Option ℚ :=
  (acc.overrides b s).orElse (fun _ => w.mark b s)

/-! ## Advancing the fill track -/

/-- The bars of `(last_time, target]`. -/
def spanBars (w : Window) (acc : Acc) (target : ℤ) : List ℤ :=
  w.grid.filter (fun b => acc.lastTime.all (fun t => decide (t < b)) && decide (b ≤ target))

/-- `_fills_in_span`: the fills of a symbol recorded inside `(last_time, target]`. -/
def fillsInSpan (acc : Acc) (target : ℤ) (s : String) : List Fill :=
  acc.fills.filter (fun f => decide (f.symbol = s) &&
    acc.lastTime.all (fun t => decide (t < f.bar)) && decide (f.bar ≤ target))

/-- The inventory `_advance_window` charges at a bar: later fills of the span are backed out, with
`preFill` those of the bar too. -/
def spanUnits (w : Window) (acc : Acc) (target : ℤ) (preFill : Bool) (s : String) (b : ℤ) : ℚ :=
  acc.units s - (((fillsInSpan acc target s).filter (fun f =>
    decide (b < f.bar) || preFill && decide (w.firstFrom f.bar = some b))).map Fill.quantity).sum

/-- The funding of a symbol at a bar on an inventory; unknown funding or a missing mark charges
nothing. -/
def fundingTerm (w : Window) (mark : ℤ → String → Option ℚ) (s : String) (b : ℤ) (units : ℚ) : ℚ :=
  if w.fundingKnown b s then w.fundingRate b s * units * (mark b s).getD 0 else 0

/-- The funding `_advance_window` charges. -/
def spanCharge (w : Window) (mark : ℤ → String → Option ℚ) (acc : Acc) (target : ℤ) (preFill : Bool) : ℚ :=
  ((spanBars w acc target).map (fun b =>
    (w.symbols.map (fun s => fundingTerm w mark s b (spanUnits w acc target preFill s b))).sum)).sum

def spanHeldUnknown (w : Window) (acc : Acc) (target : ℤ) (preFill : Bool) : Bool :=
  (spanBars w acc target).any (fun b => w.symbols.any (fun s =>
    decide (qtyEps ≤ |spanUnits w acc target preFill s b|) && !w.fundingKnown b s))

def futureRead (w : Window) (mark : ℤ → String → Option ℚ) (target : ℤ) : Bool :=
  w.symbols.any (fun s => (mark target s).any (fun m => decide (0 < m)) && decide (target < w.markAvail target))

def readMarks (w : Window) (mark : ℤ → String → Option ℚ) (target : ℤ) (prices : String → Option ℚ)
    (s : String) : Option ℚ :=
  if s ∈ w.symbols ∧ w.markAvail target ≤ target then
    ((mark target s).filter (fun m => decide (0 < m))).orElse (fun _ => prices s)
  else prices s

/-- `_advance_window`: marks update last prices and never touch cash, funding settles per bar. -/
def advance (w : Window) (mark : ℤ → String → Option ℚ) (target : ℤ) (onGrid preFill : Bool) (acc : Acc) :
    Except Exc Acc :=
  if acc.lastTime.any (fun t => decide (target < t)) then .error .dataIntegrityError
  else .ok
    { acc with
      lastPrices := if onGrid then readMarks w mark target acc.lastPrices else acc.lastPrices
      valid := acc.valid && !(onGrid && futureRead w mark target) && !spanHeldUnknown w acc target preFill
      cash := acc.cash - spanCharge w mark acc target preFill
      lastTime := some target }

/-- `_equity_at`: cash plus the roster at its last prices. -/
def equityAt (w : Window) (acc : Acc) : ℚ :=
  acc.cash + (w.symbols.map (fun s => acc.units s * (acc.lastPrices s).getD 0)).sum

def bookFill (bar : ℤ) (s : String) (quantity price feeBps : ℚ) (reason : FillReason)
    (valuationMark : Option ℚ) (preTradeEquity : ℚ) (acc : Acc) : Except Exc Acc :=
  if preTradeEquity ≤ 0 then .error .dataIntegrityError
  else
    let post := acc.units s + quantity
    let fill : Fill := ⟨bar, s, quantity, price, feeBps, post, reason, preTradeEquity⟩
    .ok
      { acc with
        lastPrices :=
          match valuationMark with
          | some m => Function.update acc.lastPrices s (some m)
          | none => acc.lastPrices
        cash := acc.cash + fill.flow
        units := Function.update acc.units s post
        exitClock := if quantity = 0 then acc.exitClock else acc.exitClock.inventoryChanged s
        fills := acc.fills ++ [fill]
        mirrorPending := acc.mirrorPending ++ [fill] }

def takerCostBps (spec : ExecutionSpec) (acc : Acc) (s : String) : ℚ :=
  if spec.corwinSchultz then (acc.spread.halfSpreadBps s).getD spec.takerSlippageBps
  else spec.takerSlippageBps

/-! ## One order -/

/-- An intent of one symbol: what `_consume_single_fill` passes down to the fill rules. -/
structure Order where
  symbol : String
  /-- the decision label and the information instant -/
  decision : ℤ
  signal : ℤ
  /-- the submit bar -/
  submit : ℤ
  buy : Bool
  decisionPrice : ℚ
  netUnits : ℚ
  equity : ℚ

/-- `side` as a factor. -/
def Order.side (o : Order) : ℤ := if o.buy then 1 else -1

/-- `timeout_ns`. -/
def Order.timeout (spec : ExecutionSpec) (o : Order) : ℤ := o.submit + spec.timeoutNs

/-- The bars from the submit bar to the timeout bar, which is not one of them. -/
def Order.bars (w : Window) (spec : ExecutionSpec) (o : Order) : List ℤ :=
  w.grid.filter (fun b => decide (o.submit ≤ b) && decide (b < o.timeout spec))

/-- The bars of the order before the end of trading: `_delivery_cap_pos`. -/
def Order.cappedBars (w : Window) (spec : ExecutionSpec) (acc : Acc) (o : Order) : List ℤ :=
  (o.bars w spec).filter (fun b => (acc.lastTrade o.symbol).all (fun t => decide (b < t)))

def Order.takerAllowed (spec : ExecutionSpec) (acc : Acc) (o : Order) : Bool :=
  (acc.lastTrade o.symbol).all (fun t => decide (o.timeout spec < t))

/-- The last bar a blocked exit of the order may be retried on: the bar at the position `limit`
points to. -/
def deadlineBar (w : Window) (limit : ℤ) : ℤ := (w.firstFrom limit).getD w.last

def Order.cappedLimit (spec : ExecutionSpec) (acc : Acc) (o : Order) : ℤ :=
  match acc.lastTrade o.symbol with
  | none => o.timeout spec
  | some t => min (o.timeout spec) t

inductive ViabilityGap where
  | causalTimingViolation
  | knownZeroVolume
  | zeroOrUnknownVolume
  | missingActiveFunding
  deriving DecidableEq, Repr

/-- `_bar_viability_gap`. -/
def viabilityGap (w : Window) (o : Order) (fillBar : ℤ) : Option ViabilityGap :=
  if ¬ (o.signal ≤ o.submit ∧ o.submit ≤ w.avail o.submit) then some .causalTimingViolation
  else if w.quoteVolume fillBar o.symbol = some 0 ∨ w.halted fillBar = true then some .knownZeroVolume
  else if (w.quoteVolume fillBar o.symbol).all (fun qv => decide (qv ≤ 0)) then some .zeroOrUnknownVolume
  else if w.fundingKnown fillBar o.symbol = false then some .missingActiveFunding
  else none

/-- `_defer_blocked_exit`: booked at the first viable bar, or left for the next decision. -/
def deferBlockedExit (cfg : ReplayConfig) (w : Window) (o : Order) (fillBar deadline : ℤ) (net : ℚ) (acc : Acc) :
    Except Exc Acc :=
  match firstViableRetryBar w o.symbol fillBar deadline (acc.lastTrade o.symbol) with
  | none => .ok acc
  | some bar =>
    bookFill bar o.symbol net ((w.close bar o.symbol).getD 0)
      (cfg.spec.takerFeeBps + takerCostBps cfg.spec acc o.symbol) .timeoutTaker (w.mark bar o.symbol)
      o.equity acc

def isExit (prior net : ℚ) : Bool := decide (qtyEps ≤ |prior| ∧ |prior + net| < |prior|)

/-- `_block_fill`: a deferrable exit is re-attempted inside its timeout, anything else invalidates.
-/
def blockFill (cfg : ReplayConfig) (w : Window) (o : Order) (gap : ViabilityGap) (fillBar deadline : ℤ)
    (net : ℚ) (acc : Acc) : Except Exc Acc :=
  let prior := acc.units o.symbol
  let exit := isExit prior net
  let gap :=
    if gap = .knownZeroVolume ∧ exit = true ∧ w.fundingKnown fillBar o.symbol = false then
      .missingActiveFunding
    else gap
  match gap with
  | .knownZeroVolume =>
    if exit then
      if exitBlockQualifies (w.halted fillBar) (w.quoteVolume fillBar o.symbol)
          (w.validMark fillBar o.symbol).isSome (w.fundingKnown fillBar o.symbol) then do
        let (admitted, clock) ← acc.exitClock.admit o.symbol prior o.decision
        let acc := { acc with exitClock := clock }
        if admitted then deferBlockedExit cfg w o fillBar deadline net acc
        else .ok { acc with valid := false }
      else .ok { acc with valid := false }
    else .ok acc
  | .missingActiveFunding => .ok (if exit then { acc with valid := false } else acc)
  | .causalTimingViolation | .zeroOrUnknownVolume => .ok { acc with valid := false }

def adverseAt (w : Window) (buy : Bool) (s : String) (b : ℤ) : Option ℚ := if buy then w.low b s else w.high b s

/-- `np.pad`: the padding of an order window that delivery cut short. -/
def padAdverse (buy : Bool) (n : ℕ) (adverse : List ℚ) : List (Option ℚ) :=
  adverse.map some ++ List.replicate n (if buy then none else some 0)

def padEdge (n : ℕ) (closes : List ℚ) : List ℚ := closes ++ List.replicate n (closes.getLastD 0)

/-- The loop over the fills of a schedule. -/
def runSchedule (step : Tranche → Acc → Except Exc (Bool × Acc)) : List Tranche → Acc → Except Exc Acc
  | [], acc => .ok acc
  | t :: rest, acc => do
    let (stop, acc) ← step t acc
    if stop then .ok acc else runSchedule step rest acc

/-- One scheduled fill at a bar: blocked there, or booked. -/
def scheduledFill (cfg : ReplayConfig) (w : Window) (o : Order) (entry : ℚ) (t : Tranche) (bar : ℤ)
    (acc : Acc) : Except Exc (Bool × Acc) :=
  match viabilityGap w o bar with
  | some gap => do
    let deadline := deadlineBar w (o.cappedLimit cfg.spec acc)
    let acc ← blockFill cfg w o gap bar deadline (entry + o.netUnits - acc.units o.symbol) acc
    .ok (true, acc)
  | none => do
    let acc ← bookFill bar o.symbol (o.netUnits * t.fraction) t.price t.feeBps
      (if t.maker then .passiveFill else .timeoutTaker) (w.mark bar o.symbol) o.equity acc
    .ok (false, acc)

/-- One tranche of the ladder. -/
def ladderFill (cfg : ReplayConfig) (w : Window) (o : Order) (entry : ℚ) (taker : Bool) (bars : List ℤ)
    (t : Tranche) (acc : Acc) : Except Exc (Bool × Acc) :=
  if t.rel = bars.length then
    if taker = false then .ok (false, acc)
    else if o.timeout cfg.spec ∉ w.grid ∨ w.close (o.timeout cfg.spec) o.symbol = none then .ok (false, acc)
    else scheduledFill cfg w o entry t (o.timeout cfg.spec) acc
  else scheduledFill cfg w o entry t (bars.getD t.rel 0) acc

/-- `_consume_fill_laddered`. -/
def fillLaddered (cfg : ReplayConfig) (w : Window) (o : Order) (acc : Acc) : Except Exc Acc :=
  let bars := o.bars w cfg.spec
  let capped := o.cappedBars w cfg.spec acc
  let taker := o.takerAllowed cfg.spec acc
  match capped.mapM (adverseAt w o.buy o.symbol) with
  | none => .ok acc
  | some adverse =>
    let closeBars := if taker then capped ++ (w.firstFrom (o.timeout cfg.spec)).toList else capped
    match closeBars.mapM (fun b => w.close b o.symbol) with
    | none => .ok acc
    | some closes =>
      if capped = [] then .ok acc
      else
        let padding := if taker then 0 else bars.length - capped.length
        let closes := if taker then closes else padEdge (padding + 1) closes
        runSchedule (ladderFill cfg w o (acc.units o.symbol) taker bars)
          (Microstructure.ladderSchedule o.decisionPrice o.side (padAdverse o.buy padding adverse) (closes.map some)
            cfg.spec.ladderTranches cfg.spec true) acc

/-- One fill of the peg chase; a fill at or after the delivery cut is cancelled. -/
def pegFill (cfg : ReplayConfig) (w : Window) (o : Order) (entry : ℚ) (truncated : Bool) (capped : ℕ)
    (bars : List ℤ) (t : Tranche) (acc : Acc) : Except Exc (Bool × Acc) :=
  if truncated = true ∧ capped ≤ t.rel then .ok (false, acc)
  else scheduledFill cfg w o entry t (bars.getD t.rel 0) acc

/-- `_consume_fill_peg_chase`. -/
def fillPegChase (cfg : ReplayConfig) (w : Window) (o : Order) (acc : Acc) : Except Exc Acc :=
  let bars := o.bars w cfg.spec
  let capped := o.cappedBars w cfg.spec acc
  let truncated := decide (capped.length ≠ bars.length)
  match capped.mapM (adverseAt w o.buy o.symbol) with
  | none => .ok acc
  | some adverse =>
    match capped.mapM (fun b => w.close b o.symbol) with
    | none => .ok acc
    | some closes =>
      if capped = [] then .ok acc
      else
        let padding := bars.length - capped.length
        let schedule := Microstructure.pegSchedule o.decisionPrice o.side (padAdverse o.buy padding adverse)
          ((padEdge padding closes).map some) cfg.spec
          (some (cfg.spec.takerFeeBps + takerCostBps cfg.spec acc o.symbol)) cfg.linspace
        runSchedule (pegFill cfg w o (acc.units o.symbol) truncated capped.length bars) schedule acc

structure Resolved where
  bar : ℤ
  price : ℚ
  feeBps : ℚ
  reason : FillReason

/-- `_consume_fill_strict_touch`: the first trade-through at the limit, else the close of the
timeout bar. -/
def resolveStrictTouch (cfg : ReplayConfig) (w : Window) (o : Order) (acc : Acc) : Option Resolved :=
  let capped := o.cappedBars w cfg.spec acc
  match capped.mapM (adverseAt w o.buy o.symbol) with
  | none => none
  | some adverse =>
    if capped = [] then none
    else
      match (adverse.map some).findIdx? (crossed o.buy (cfg.bound == .strictProxy) o.decisionPrice) with
      | some hit => some ⟨capped.getD hit 0, o.decisionPrice, cfg.spec.makerFeeBps, .passiveFill⟩
      | none =>
        if o.takerAllowed cfg.spec acc = false ∨ o.timeout cfg.spec ∉ w.grid then none
        else (w.close (o.timeout cfg.spec) o.symbol).map (fun close =>
          ⟨o.timeout cfg.spec, close, cfg.spec.takerFeeBps + takerCostBps cfg.spec acc o.symbol,
            .timeoutTaker⟩)

def resolveImmediateTaker (cfg : ReplayConfig) (w : Window) (o : Order) (acc : Acc) : Option Resolved :=
  (w.close o.submit o.symbol).map (fun close =>
    ⟨o.submit, close, cfg.spec.takerFeeBps + takerCostBps cfg.spec acc o.symbol, .timeoutTaker⟩)

/-- A resolved fill of the whole order: blocked at its bar, or booked. -/
def bookResolved (cfg : ReplayConfig) (w : Window) (o : Order) (r : Resolved) (acc : Acc) : Except Exc Acc :=
  match viabilityGap w o r.bar with
  | some gap => blockFill cfg w o gap r.bar (deadlineBar w (o.timeout cfg.spec)) o.netUnits acc
  | none => bookFill r.bar o.symbol o.netUnits r.price r.feeBps r.reason (w.mark r.bar o.symbol) o.equity acc

def fillOrder (cfg : ReplayConfig) (w : Window) (o : Order) (acc : Acc) : Except Exc Acc :=
  match cfg.bound with
  | .ladderedProxy => fillLaddered cfg w o acc
  | .pegChaseProxy => fillPegChase cfg w o acc
  | .immediateTaker =>
    match resolveImmediateTaker cfg w o acc with
    | none => .ok acc
    | some r => bookResolved cfg w o r acc
  | .strictProxy | .touchProxy =>
    match resolveStrictTouch cfg w o acc with
    | none => .ok acc
    | some r => bookResolved cfg w o r acc

def deliverySubmitCancelled (w : Window) (acc : Acc) (s : String) (submit : Option ℤ) : Bool :=
  (acc.lastTrade s).any (fun t => decide (t ≤ submit.getD w.last))

/-- `_consume_decision_price`: the mark of the decision bar, else of the last finite close before
the order, else the carried one, else that of the submit bar. -/
def decisionPrice (w : Window) (acc : Acc) (s : String) (onGrid : Bool) (decision : ℤ) (submit : Option ℤ)
    (signal : Option ℤ) : Option ℚ :=
  let before := fun b : ℤ =>
    match signal with
    | none => submit.all (fun t => decide (b < t))
    | some t => decide (b ≤ t - w.barNs)
  let closed := (w.grid.filter (fun b => before b && (w.close b s).isSome)).getLast?
  let carried := (acc.lastClose s).bind (fun c =>
    if signal.all (fun t => decide (c.1 + w.barNs ≤ t)) then c.2.filter (fun m => decide (0 < m)) else none)
  (if onGrid then w.validMark decision s else none)
    |>.orElse (fun _ => closed.bind (fun b => w.validMark b s))
    |>.orElse (fun _ => carried)
    |>.orElse (fun _ => if signal.isNone then submit.bind (fun b => w.validMark b s) else none)

/-- What a call of `_consume_single_fill` is given besides the symbol. -/
structure Intent where
  decision : ℤ
  signal : ℤ
  onGrid : Bool
  submit : Option ℤ
  equity : ℚ
  applyLifecycle : Bool

def seedPrice (s : String) (price : ℚ) (acc : Acc) : Acc :=
  if acc.lastPrices s = none then { acc with lastPrices := Function.update acc.lastPrices s (some price) } else acc

/-- The desired units of an intent under the lifecycle policy: `_apply_lifecycle_policy`. -/
def desiredUnits (acc : Acc) (i : Intent) (s : String) (weight price : ℚ) : ℚ :=
  let desired := weight * i.equity / price
  if i.applyLifecycle then
    match acc.admittedBySymbol s with
    | none => desired
    | some event => lifecycleDesiredUnits event i.signal (acc.units s) desired
  else desired

/-- `_consume_single_fill`. -/
def singleFill (cfg : ReplayConfig) (w : Window) (i : Intent) (s : String) (weight : ℚ) (acc : Acc) :
    Except Exc Acc :=
  if deliverySubmitCancelled w acc s i.submit then .ok acc
  else
    match decisionPrice w acc s (i.onGrid && !cfg.spec.submitAnchored) i.decision i.submit
        (if cfg.spec.submitAnchored then some i.signal else none) with
    | none => .ok acc
    | some price =>
      let acc := seedPrice s price acc
      let net := desiredUnits acc i s weight price - acc.units s
      if |net| < 1 / 10 ^ 12 then .ok acc
      else
        match i.submit with
        | none => .ok acc
        | some submit =>
          fillOrder cfg w ⟨s, i.decision, i.signal, submit, decide (0 < net), price, net, i.equity⟩ acc

/-! ## Settlements -/

/-- One event of `_admit_settlement_events`. -/
def admitEvent (cfg : ReplayConfig) (acc : Acc) (event : SettlementEvent) : Except Exc Acc :=
  if event.symbol ∉ cfg.columns then .error .dataIntegrityError
  else
    match acc.admitted.find? (fun e => e.eventId == event.eventId) with
    | some seen => if seen = event then .ok acc else .error .dataIntegrityError
    | none =>
      if acc.units event.symbol ≠ 0 ∧ acc.lastTime.any (fun t => decide (event.due ≤ t)) = true then
        .error .dataIntegrityError
      else .ok
        { acc with
          admitted := acc.admitted ++ [event]
          pending := acc.pending ++ [event]
          admittedBySymbol :=
            if (acc.admittedBySymbol event.symbol).all (fun e => decide (event.effectiveAt < e.effectiveAt)) then
              Function.update acc.admittedBySymbol event.symbol (some event)
            else acc.admittedBySymbol
          lastTrade :=
            if (acc.lastTrade event.symbol).all (fun t => decide (event.lastTrade < t)) then
              Function.update acc.lastTrade event.symbol (some event.lastTrade)
            else acc.lastTrade }

def settlesBefore (a b : SettlementEvent) : Prop := a.due < b.due ∨ a.due = b.due ∧ a.eventId ≤ b.eventId

instance : DecidableRel settlesBefore := fun a b => by
  unfold settlesBefore
  infer_instance

/-- `_admit_settlement_events`: each event once, across physical overlap. -/
def admitSettlementEvents (cfg : ReplayConfig) (w : Window) (acc : Acc) : Except Exc Acc := do
  let acc ← w.settlementEvents.foldlM (admitEvent cfg) acc
  .ok { acc with pending := acc.pending.insertionSort settlesBefore }

def Acc.override (bar : ℤ) (s : String) (price : ℚ) (acc : Acc) : Acc :=
  { acc with overrides := Function.update acc.overrides bar (Function.update (acc.overrides bar) s (some price)) }

/-- A held peer that falls due with an event is valued at its own settlement price. -/
def overridePeer (cfg : ReplayConfig) (w : Window) (event : SettlementEvent) (bar : ℤ) (acc : Acc)
    (peer : SettlementEvent) : Except Exc Acc :=
  if peer.due = event.due ∧ peer.symbol ∈ w.symbols ∧ acc.units peer.symbol ≠ 0 then do
    let price ← settlementFillPrice peer (acc.units peer.symbol) cfg.spec
    .ok (acc.override bar peer.symbol price)
  else .ok acc

/-- The settlement prices written over the delivery bar: the event and every peer due with it. -/
def overrideDelivery (cfg : ReplayConfig) (w : Window) (peers : List SettlementEvent) (event : SettlementEvent)
    (bar : ℤ) (price : ℚ) (acc : Acc) : Except Exc Acc :=
  peers.foldlM (overridePeer cfg w event bar) (acc.override bar event.symbol price)

/-- The track moves to the delivery bar, unless it stands there or past it. -/
def advanceToDelivery (w : Window) (bar : ℤ) (acc : Acc) : Except Exc Acc :=
  if acc.lastTime.all (fun t => decide (t < bar)) then advance w (acc.patchedMarks w) bar true true acc
  else .ok acc

/-- One pending event of `_settle_events_through`: kept, dropped without a position, or booked. -/
def settleEvent (cfg : ReplayConfig) (w : Window) (peers : List SettlementEvent) (through : ℤ)
    (state : Acc × List SettlementEvent) (event : SettlementEvent) : Except Exc (Acc × List SettlementEvent) :=
  let (acc, remaining) := state
  if min through w.last < event.due ∨ event.symbol ∉ w.symbols then .ok (acc, remaining ++ [event])
  else if acc.units event.symbol = 0 then .ok (acc, remaining)
  else if event.due < acc.ledgerStart.getD w.first then .error .dataIntegrityError
  else do
    let units := acc.units event.symbol
    let bar := (w.firstFrom event.due).getD w.last
    let price ← settlementFillPrice event units cfg.spec
    let acc ← overrideDelivery cfg w peers event bar price acc
    let acc ← advanceToDelivery w bar acc
    let acc ← bookFill bar event.symbol (-units) price event.feeBps .delistSettlement (some price)
      (equityAt w acc) acc
    .ok ({ acc.override bar event.symbol price with booked := acc.booked ++ [event] }, remaining)

def settleEventsThrough (cfg : ReplayConfig) (w : Window) (through : ℤ) (acc : Acc) : Except Exc Acc := do
  let (acc, remaining) ← acc.pending.foldlM (settleEvent cfg w acc.pending through) (acc, [])
  .ok { acc with pending := remaining }

/-! ## Drift trims and decisions -/

def currentWeight (acc : Acc) (equity : ℚ) (s : String) : ℚ :=
  (match acc.lastPrices s with
    | none => 0
    | some price => acc.units s * price) / equity

def driftedSymbols (cfg : ReplayConfig) (w : Window) (cap equity : ℚ) (acc : Acc) : List String :=
  w.symbols.filter (fun s => decide (qtyEps ≤ |acc.units s|) &&
    decide (cap * (1 + cfg.spec.oneWayTakerBps / 10000) < |currentWeight acc equity s|))

/-- The fills from the `n`-th on are trims. -/
def relabelTrims (n : ℕ) (acc : Acc) : Acc :=
  { acc with fills := acc.fills.take n ++ (acc.fills.drop n).map (fun f => { f with reason := .driftTrim }) }

/-- One symbol of `_consume_drift_trim_at`. -/
def trimSymbol (cfg : ReplayConfig) (w : Window) (i : Intent) (weight : String → ℚ) (acc : Acc) (s : String) :
    Except Exc Acc := do
  let n := acc.fills.length
  let acc ← singleFill cfg w i s (weight s) acc
  .ok (relabelTrims n acc)

/-- `_consume_drift_trim_at`. -/
def driftTrimAt (cfg : ReplayConfig) (w : Window) (cap : ℚ) (acc : Acc) (check : ℤ) : Except Exc Acc := do
  let acc ← settleEventsThrough cfg w check acc
  let acc ← advance w w.mark check true false acc
  let equity := equityAt w acc
  let weight := fun s => (if 0 < currentWeight acc equity s then 1 else -1) * cap
  let intent : Intent := ⟨check, check, true, w.firstFrom (check + 1), equity, false⟩
  (driftedSymbols cfg w cap equity acc).foldlM (trimSymbol cfg w intent weight) acc

/-- The due drift checks: bars at or after the multiples of the interval, past the last decision,
whose orders resolve in the window and before `until`. -/
def driftChecks (spec : ExecutionSpec) (w : Window) (anchor : ℤ) (acc : Acc) (stop : Option ℤ) : List ℤ :=
  let step : ℤ := spec.nameDriftTrimIntervalHours * 60 * minuteNs
  let floor := match acc.lastTime with
    | none => anchor
    | some t => max anchor t
  let k := (floor - anchor) / step + 1
  let count := ((w.last - anchor) / step - k + 1).toNat
  let checks := (List.range count).filterMap (fun n : ℕ => w.firstFrom (anchor + (k + n) * step))
  checks.takeWhile (fun check =>
    let resolve := check + w.barNs + spec.timeoutNs
    decide (resolve ≤ w.last) && stop.all (fun t => decide (resolve < t)))

def consumeDriftTrims (cfg : ReplayConfig) (w : Window) (stop : Option ℤ) (acc : Acc) : Except Exc Acc :=
  match cfg.spec.nameDriftTrimMaxWeight with
  | none => .ok acc
  | some cap =>
    match acc.trimAnchor.orElse (fun _ => w.decisions.head?.map Decision.label) with
    | none => .ok acc
    | some anchor =>
      let acc := { acc with trimAnchor := some anchor }
      (driftChecks cfg.spec w anchor acc stop).foldlM (driftTrimAt cfg w cap) acc

/-- `_forced_exit_nan_override`: a hold becomes an exit where the lifecycle demands one. -/
def forcedExitOverride (acc : Acc) (signal : ℤ) (row : String → Option ℚ) (s : String) : Option ℚ :=
  match row s with
  | some weight => some weight
  | none =>
    if acc.units s = 0 then none
    else
      match acc.admittedBySymbol s with
      | none => none
      | some event =>
        if event.announced ≤ signal ∧ event.effectiveAt ≤ signal + delistForcedExitLeadNs then some 0
        else none

/-- `ruin_guard_equity` with the last bar of the streamed ledger. -/
def ruinGuardEquity (acc : Acc) (equity : ℚ) : ℚ :=
  match acc.rows.getLast? with
  | none => equity
  | some row => min equity row.equity

def floorBreached (cfg : ReplayConfig) (acc : Acc) (equity : ℚ) : Bool :=
  cfg.minEquityFraction.any (fun x => decide (ruinGuardEquity acc equity ≤ x * cfg.initialEquity))

def activeSymbols (w : Window) (row : String → Option ℚ) (acc : Acc) : List String :=
  w.symbols.filter (fun s => (row s).any (fun weight => decide (weight ≠ 0) || decide (acc.units s ≠ 0)))

/-- `_consume_single_intent`. -/
def singleIntent (cfg : ReplayConfig) (w : Window) (acc : Acc) (d : Decision) : Except Exc Acc := do
  let onGrid := decide (d.label ∈ w.grid)
  let acc ← settleEventsThrough cfg w d.label acc
  let acc ← advance w w.mark d.label onGrid false acc
  let equity := equityAt w acc
  let breached := floorBreached cfg acc equity
  let acc :=
    if breached = true ∧ acc.equityFloorBreaches.getLast? ≠ some d.label then
      { acc with equityFloorBreaches := acc.equityFloorBreaches ++ [d.label] }
    else acc
  let row := forcedExitOverride acc d.signal (if breached then fun _ => some 0 else d.target)
  let intent : Intent := ⟨d.label, d.signal, onGrid, w.firstFrom d.signal, equity, true⟩
  (activeSymbols w row acc).foldlM (fun acc s => singleFill cfg w intent s ((row s).getD 0) acc) acc

/-- One decision of `consume`: the drift checks before it, then the decision. -/
def consumeDecision (cfg : ReplayConfig) (w : Window) (acc : Acc) (d : Decision) : Except Exc Acc := do
  let acc ← consumeDriftTrims cfg w (some d.label) acc
  singleIntent cfg w acc d

end CryptoPilot.Engine
