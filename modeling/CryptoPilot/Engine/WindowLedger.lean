/- # WindowLedger — the streamed ledger, the causal mirror and the replay.

At the end of a window the ledger rebuilds the inventory of each kept bar from the booked post-fill
levels, the mirror settles the same bars from the queued fill quantities, and the liquidity clock
observes the bars. -/
import CryptoPilot.Lib.Timeline
import CryptoPilot.Engine.Accumulator

namespace CryptoPilot.Engine

open CryptoPilot.Live (Exc)

/-! ## The ledger chunk of one window -/

/-- The bars the ledger keeps of a window: from `ledger_start_ns` on. -/
def keptBars (w : Window) (acc : Acc) : List ℤ :=
  w.grid.filter (fun b => acc.ledgerStart.all (fun t => decide (t ≤ b)))

/-- The level of the last fill of a symbol that the cut admits, by bar and then by booking, else the
carried level. -/
def lastLevel (fills : List Fill) (s : String) (start : ℚ) (cut : ℤ → Bool) : ℚ :=
  (((fills.filter (fun f => decide (f.symbol = s) && cut f.bar)).insertionSort
    (fun a b => a.bar ≤ b.bar)).getLast?.map Fill.postUnits).getD start

section Chunk

variable (w : Window) (acc : Acc) (fills : List Fill)

def chunkUnits (s : String) (b : ℤ) : ℚ := lastLevel fills s (acc.ledgerUnits s) (fun c => decide (c ≤ b))

def chunkBefore (s : String) (b : ℤ) : ℚ := lastLevel fills s (acc.ledgerUnits s) (fun c => decide (c < b))

def prevBar (b : ℤ) : Option ℤ := (w.grid.filter (fun c => decide (c < b))).getLast?

/-- The mark of a bar, forward-filled from the window or from the carried mark. -/
def filledMark (s : String) (b : ℤ) : Option ℚ :=
  match (w.grid.filter (fun c => decide (c ≤ b) && (acc.patchedMarks w c s).isSome)).getLast? with
  | some c => acc.patchedMarks w c s
  | none => acc.lastValidMark s

/-- The valuation of a bar: its mark, the forward fill while units are held, else zero. -/
def valuation (s : String) (b : ℤ) : Option ℚ :=
  match acc.patchedMarks w b s with
  | some m => some m
  | none => if chunkUnits acc fills s b ≠ 0 then filledMark w acc s b else some 0

def valued (b : ℤ) : Bool := w.symbols.all (fun s => (valuation w acc fills s b).isSome)

/-- The mark before a bar and the mark of the bar, when both are finite. -/
def jointMarks (s : String) (b : ℤ) : Option (ℚ × ℚ) :=
  (prevBar w b).bind (fun c => (acc.patchedMarks w c s).bind (fun m0 =>
    (acc.patchedMarks w b s).map (fun m => (m0, m))))

/-- The carried mark and the first mark of a window that starts at the ledger, if the first kept bar
may use it. -/
def boundaryMarks (s : String) : Option (ℚ × ℚ) :=
  match acc.ledgerStart, acc.lastValidMark s, acc.patchedMarks w w.first s with
  | some start, some prior, some current =>
    if start ≤ w.first ∧ qtyEps ≤ |chunkBefore acc fills s w.first| ∧ 0 < current ∧
        w.markAvail w.first ≤ w.first ∧ 0 < prior ∧ 0 ≤ acc.lastValidMarkAvail s ∧
        acc.lastValidMarkAvail s ≤ start - w.barNs then
      some (prior, current)
    else none
  | _, _, _ => none

def mtmMarks (s : String) (b : ℤ) : Option (ℚ × ℚ) :=
  if b = w.first then boundaryMarks w acc fills s else jointMarks w acc s b

def chunkMtm (s : String) (b : ℤ) : ℚ :=
  match mtmMarks w acc fills s b with
  | some (m0, m) => chunkBefore acc fills s b * (m - m0)
  | none => 0

def chunkFunding (s : String) (b : ℤ) : ℚ :=
  fundingTerm w (acc.patchedMarks w) s b (chunkBefore acc fills s b)

def markGap (s : String) (b : ℤ) : Bool :=
  decide (qtyEps ≤ |chunkBefore acc fills s b|) && (mtmMarks w acc fills s b).isNone

def fundingGap (s : String) (b : ℤ) : Bool :=
  decide (qtyEps ≤ |chunkBefore acc fills s b|) &&
    (!w.fundingKnown b s || (acc.patchedMarks w b s).isNone && decide (w.fundingRate b s ≠ 0))

/-- The cash flow of the fills of a bar: `FillFlowChunk.flow`. -/
def flowAt (b : ℤ) : ℚ := ((fills.filter (fun f => decide (f.bar = b))).map Fill.flow).sum

/-- The fees of a bar: `FillFlowChunk.fee_by_ts`. -/
def feeAt (b : ℤ) : ℚ := ((fills.filter (fun f => decide (f.bar = b))).map Fill.fee).sum

def fundingAt (b : ℤ) : ℚ := (w.symbols.map (fun s => chunkFunding w acc fills s b)).sum

def cashAfter (b : ℤ) : ℚ :=
  acc.ledgerCash + (((keptBars w acc).filter (fun c => decide (c ≤ b))).map
    (fun c => flowAt fills c - fundingAt w acc fills c)).sum

def cashPreFill (b : ℤ) : ℚ :=
  acc.ledgerCash + (((keptBars w acc).filter (fun c => decide (c < b))).map
    (fun c => flowAt fills c - fundingAt w acc fills c)).sum - fundingAt w acc fills b

def notionalAt (b : ℤ) : ℚ :=
  (w.symbols.map (fun s => chunkUnits acc fills s b * (valuation w acc fills s b).getD 0)).sum

def notionalBefore (b : ℤ) : ℚ :=
  (w.symbols.map (fun s => chunkBefore acc fills s b * (valuation w acc fills s b).getD 0)).sum

def chunkEquity (b : ℤ) : ℚ := cashAfter w acc fills b + notionalAt w acc fills b

/-- The kept bar that the array index of a fill points to. -/
def turnoverBar (b : ℤ) : Option ℤ :=
  let kept := keptBars w acc
  if b ∈ kept then some b
  else
    let back := (w.grid.filter (fun c => decide (b ≤ c) && decide (c ∉ kept))).length
    if back ≤ kept.length then kept[kept.length - back]? else none

def fillEquity (f : Fill) : Option ℚ :=
  (turnoverBar w acc f.bar).map (fun c => cashPreFill w acc fills c + notionalBefore w acc fills f.bar)

def turnoverAt (b : ℤ) : ℚ :=
  ((fills.filter (fun f => decide (turnoverBar w acc f.bar = some b))).map
    (fun f => |f.quantity * f.price| / (fillEquity w acc fills f).getD 1)).sum

def chunkRows : List LedgerRow :=
  (keptBars w acc).map (fun b =>
    { bar := b, equity := chunkEquity w acc fills b,
      mtm := (w.symbols.map (fun s => chunkMtm w acc fills s b)).sum,
      funding := fundingAt w acc fills b, fee := feeAt fills b, turnover := turnoverAt w acc fills b })

/-- The checks of `_consume_append_ledger`: a kept bar, and positive equity before every fill and at
every bar. -/
def chunkAccepted : Bool :=
  !(keptBars w acc).isEmpty &&
    fills.all (fun f => valued w acc fills f.bar && (fillEquity w acc fills f).any (fun x => decide (0 < x))) &&
    (keptBars w acc).all (fun b => valued w acc fills b && decide (0 < chunkEquity w acc fills b))

def chunkValid : Bool :=
  (keptBars w acc).all (fun b => w.symbols.all (fun s => !markGap w acc fills s b && !fundingGap w acc fills s b))

def lastMarked (s : String) : Option ℤ :=
  (w.grid.filter (fun b => (acc.patchedMarks w b s).isSome)).getLast?

end Chunk

/-- The ledger part of `_consume_append_ledger`. -/
def appendChunk (w : Window) (fills : List Fill) (acc : Acc) : Except Exc Acc :=
  if chunkAccepted w acc fills = false then .error .dataIntegrityError
  else .ok
    { acc with
      valid := acc.valid && chunkValid w acc fills
      ledgerUnits := fun s => if s ∈ w.symbols then chunkUnits acc fills s w.last else acc.ledgerUnits s
      lastValidMark := fun s => if s ∈ w.symbols then filledMark w acc s w.last else acc.lastValidMark s
      lastValidMarkAvail := fun s =>
        if s ∈ w.symbols then
          match lastMarked w acc s with
          | some b => w.markAvail b
          | none => if (acc.lastValidMark s).isSome then acc.lastValidMarkAvail s else -1
        else acc.lastValidMarkAvail s
      rows := acc.rows ++ chunkRows w acc fills
      fundingTotals := fun s =>
        if s ∈ w.symbols then
          acc.fundingTotals s + ((keptBars w acc).map (fun b => chunkFunding w acc fills s b)).sum
        else acc.fundingTotals s
      ledgerCash := cashAfter w acc fills w.last
      finalMark := fun s => if s ∈ w.symbols then acc.patchedMarks w w.last s else acc.finalMark s
      finalMarkAvail := fun s => if s ∈ w.symbols then w.markAvail w.last else acc.finalMarkAvail s }

/-! ## The causal mirror -/

section Mirror

variable (w : Window) (marks : ℤ → String → Option ℚ) (kept : List ℤ) (pending : List Fill)

/-- The inventory of the mirror before the fills of a bar: the backlog has joined it. -/
def mirrorUnits (state : CausalState) (s : String) (b : ℤ) : ℚ :=
  state.units s + ((pending.filter (fun f => decide (f.symbol = s) && decide (f.bar < b))).map Fill.quantity).sum

def mirrorGap (state : CausalState) (b : ℤ) : Bool :=
  w.symbols.any (fun s => decide (qtyEps ≤ |mirrorUnits pending state s b|) &&
    (!w.fundingKnown b s || (marks b s).isNone && decide (w.fundingRate b s ≠ 0)))

/-- The charge of a bar.  The rate of an unknown column is dropped on gap bars only. -/
def mirrorCharge (state : CausalState) (b : ℤ) : ℚ :=
  (w.symbols.map (fun s =>
    (if mirrorGap w marks pending state b = true ∧ w.fundingKnown b s = false then 0 else w.fundingRate b s) *
      mirrorUnits pending state s b * (marks b s).getD 0)).sum

/-- `CausalPortfolioState.settle_window`. -/
def settleWindow (state : CausalState) : Except Exc (CausalState × Bool) :=
  let start := kept.headD 0
  if kept = [] ∨ state.lastEvent.any (fun t => decide (start < t)) = true then .error .dataIntegrityError
  else if pending.any (fun f => decide (start ≤
    f.bar) && !(decide (f.bar ∈ kept) && decide (f.symbol ∈ w.symbols))) then
    .error .dataIntegrityError
  else
    let applied := pending.filter (fun f => decide (start ≤ f.bar))
    .ok
      ({ cash := state.cash - (kept.map (mirrorCharge w marks pending state)).sum + (applied.map Fill.flow).sum
         units := fun s => state.units s + ((pending.filter (fun f => decide (f.symbol = s))).map Fill.quantity).sum
         lastMarks := fun s =>
          if s ∈ w.symbols then
            match (kept.filter (fun b => (marks b s).isSome)).getLast? with
            | some b => marks b s
            | none => state.lastMarks s
          else state.lastMarks s
         lastEvent := some (kept.getLastD 0) },
        !kept.any (mirrorGap w marks pending state))

end Mirror

def settleMirrorWindow (w : Window) (kept : List ℤ) (acc : Acc) : Except Exc Acc := do
  let (mirror, complete) ← settleWindow w (acc.patchedMarks w) kept acc.mirrorPending acc.mirror
  .ok { acc with mirror := mirror, mirrorPending := [], valid := acc.valid && complete }

/-- The last finite close of a window, when it is later than the carried one. -/
def carryCloses (w : Window) (acc : Acc) (s : String) : Option (ℤ × Option ℚ) :=
  if s ∈ w.symbols then
    match (w.grid.filter (fun b => (w.close b s).isSome)).getLast? with
    | none => acc.lastClose s
    | some b =>
      if (acc.lastClose s).all (fun c => decide (c.1 < b)) then some (b, acc.patchedMarks w b s)
      else acc.lastClose s
  else acc.lastClose s

/-- `_consume_append_ledger`: the chunk, the mirror, and the carries into the next window. -/
def appendLedger (w : Window) (fillStart : ℕ) (acc : Acc) : Except Exc Acc := do
  let kept := keptBars w acc
  let acc ← appendChunk w (acc.fills.drop fillStart) acc
  let acc ← settleMirrorWindow w kept acc
  .ok
    { acc with
      lastClose := carryCloses w acc
      overrides := fun _ _ => none
      ledgerStart := some (w.last + w.barNs) }

/-! ## The liquidity clock -/

def validBar (high low : Option ℚ) : Option (ℚ × ℚ) :=
  match high, low with
  | some h, some l => if 0 < h ∧ 0 < l ∧ l ≤ h then some (h, l) else none
  | _, _ => none

/-- `_corwin_schultz_combine_half_spread_bps`, clipped to `SPREAD_ESTIMATE_CEILING_BPS`. -/
def combineHalfSpreadBps (pairSum : ℚ) (pairCount barCount : ℕ) : Option ℚ :=
  if 0 < pairCount ∧ 3 ≤ barCount then some (max 0 (min 100 (pairSum / pairCount / 2 * 10000))) else none

/-- The exponential update of an estimate; a degenerate one carries the prior value. -/
def mergeSpread (spec : ExecutionSpec) (old est : Option ℚ) : Option ℚ :=
  match old, est with
  | none, est => est
  | some old, none => some old
  | some old, some est => some (spec.spreadEwmaAlpha * est + (1 - spec.spreadEwmaAlpha) * old)

section Spread

variable (cfg : ReplayConfig) (w : Window) (s : String)

def spreadBars : List (Option (ℚ × ℚ)) := w.grid.map (fun b => validBar (w.high b s) (w.low b s))

def pairEstimates (bars : List (Option (ℚ × ℚ))) : List ℚ :=
  (bars.zip bars.tail).filterMap (fun p => p.1.bind (fun x => p.2.map (fun y => cfg.pairSpread x y)))

/-- `corwin_schultz_half_spread_bps` of one window. -/
def windowHalfSpreadBps : Option ℚ :=
  let pairs := pairEstimates cfg (spreadBars w s)
  combineHalfSpreadBps pairs.sum pairs.length ((spreadBars w s).filter Option.isSome).length

def adjacentCarry (spread : SpreadState) : Option (ℚ × ℚ) :=
  if spread.carryNs s + w.barNs = w.first then validBar (spread.carryHigh s) (spread.carryLow s) else none

end Spread

def finalizeSpreadPartition (cfg : ReplayConfig) (spread : SpreadState) : SpreadState :=
  if cfg.spec.corwinSchultz = true ∧ spread.pendingKey.isSome = true then
    { spread with
      halfSpreadBps := fun s => mergeSpread cfg.spec (spread.halfSpreadBps s)
        (combineHalfSpreadBps (spread.pairSums s) (spread.pairCounts s) (spread.barCounts s))
      pendingKey := none
      pairSums := fun _ => 0
      pairCounts := fun _ => 0
      barCounts := fun _ => 0 }
  else { spread with pendingKey := none }

/-- `_advance_spread_clock`: the partition before settles before this window is priced. -/
def advanceSpreadClock (cfg : ReplayConfig) (partition : Option (ℕ × ℕ)) (spread : SpreadState) : SpreadState :=
  if cfg.spec.corwinSchultz = true ∧ partition.isSome = true ∧ spread.pendingKey.isSome = true ∧
      spread.pendingKey ≠ partition then
    finalizeSpreadPartition cfg spread
  else spread

def observeSpreadPartition (cfg : ReplayConfig) (w : Window) (spread : SpreadState) : SpreadState :=
  if cfg.spec.corwinSchultz = false then spread
  else
    match w.logicalPartition with
    | none =>
      { spread with
        halfSpreadBps := fun s =>
          if s ∈ w.symbols then mergeSpread cfg.spec (spread.halfSpreadBps s) (windowHalfSpreadBps cfg w s)
          else spread.halfSpreadBps s }
    | some key =>
      let pairs := fun s => pairEstimates cfg (adjacentCarry w s spread :: spreadBars w s)
      { spread with
        pendingKey := some key
        pairSums := fun s => if s ∈ w.symbols then spread.pairSums s + (pairs s).sum else spread.pairSums s
        pairCounts := fun s => if s ∈ w.symbols then spread.pairCounts s + (pairs s).length else spread.pairCounts s
        barCounts := fun s =>
          if s ∈ w.symbols then spread.barCounts s + ((spreadBars w s).filter Option.isSome).length
          else spread.barCounts s
        carryHigh := fun s => if s ∈ w.symbols then w.high w.last s else spread.carryHigh s
        carryLow := fun s => if s ∈ w.symbols then w.low w.last s else spread.carryLow s
        carryNs := fun s => if s ∈ w.symbols then w.last else spread.carryNs s }

/-! ## Windows and replays -/

/-- `_consume_validate_window` with the checks of `stage_window_arrays`. -/
def acceptsWindow (cfg : ReplayConfig) (w : Window) (acc : Acc) : Bool :=
  decide (w.columns = cfg.columns) &&
    cfg.columns.all (fun s => decide (s ∈ w.symbols) || decide (|acc.units s| < qtyEps)) &&
    decide (2 ≤ w.grid.length) &&
    w.grid.all (fun b => w.symbols.all (fun s => (w.mark b s).all (fun m => decide (0 < m))))

/-- `consume` up to the ledger. -/
def consumeIntents (cfg : ReplayConfig) (w : Window) (acc : Acc) : Except Exc Acc := do
  let acc ← admitSettlementEvents cfg w acc
  let acc := { acc with spread := advanceSpreadClock cfg w.logicalPartition acc.spread }
  let acc ← w.decisions.foldlM (consumeDecision cfg w) acc
  let acc ← consumeDriftTrims cfg w none acc
  settleEventsThrough cfg w w.last acc

def consume (cfg : ReplayConfig) (acc : Acc) (w : Window) : Except Exc Acc :=
  if acceptsWindow cfg w acc = false then .error .dataIntegrityError
  else do
    let fillStart := acc.fills.length
    let acc ← consumeIntents cfg w { acc with gridEnd := w.last }
    let acc ← appendLedger w fillStart acc
    .ok { acc with spread := observeSpreadPartition cfg w acc.spread }

def consumeAll (cfg : ReplayConfig) (windows : List Window) : Except Exc Acc :=
  windows.foldlM (consume cfg) (Acc.init cfg)

def CausalState.equity (cfg : ReplayConfig) (state : CausalState) : ℚ :=
  state.cash + (cfg.columns.map (fun s => state.units s * (state.lastMarks s).getD 0)).sum

/-- `reconcile_causal_state`: the tripwire with `atol = rtol = 1e-12`. -/
def reconciles (cfg : ReplayConfig) (acc : Acc) : Bool :=
  match acc.rows.getLast? with
  | none => false
  | some row => decide (|acc.mirror.equity cfg - row.equity| ≤ 1 / 10 ^ 12 + 1 / 10 ^ 12 * |row.equity|)

/-- A terminal position that invalidates: a stale mark, or a delivery without a settlement. -/
def terminalUnresolved (acc : Acc) (s : String) : Bool :=
  decide (1 / 10 ^ 12 ≤ |acc.units s|) &&
    (!((acc.finalMark s).any (fun m => decide (0 < m)) &&
        decide (0 ≤ acc.finalMarkAvail s ∧ acc.finalMarkAvail s ≤ acc.gridEnd)) ||
      acc.admitted.any (fun e => decide (e.symbol = s ∧ e.lastTrade ≤ acc.gridEnd) &&
        !acc.booked.any (fun e' => decide (e'.eventId = e.eventId))))

structure ReplayResult where
  fills : List Fill
  rows : List LedgerRow
  fundingTotals : String → ℚ
  primaryValid : Bool
  equityFloorBreachedAt : List ℤ

def finalize (cfg : ReplayConfig) (acc : Acc) : Except Exc ReplayResult :=
  if reconciles cfg acc = false then .error .dataIntegrityError
  else .ok
    { fills := acc.fills, rows := acc.rows, fundingTotals := acc.fundingTotals
      primaryValid := acc.valid && !cfg.columns.any (terminalUnresolved acc)
      equityFloorBreachedAt := acc.equityFloorBreaches }

/-- `replay_execution_windows`. -/
def replay (cfg : ReplayConfig) (windows : List Window) : Except Exc ReplayResult :=
  if windows = [] then .error .dataIntegrityError
  else do
    let acc ← consumeAll cfg windows
    finalize cfg acc

end CryptoPilot.Engine
