/- # AccountLedger — replaying a unit book as one account.

At the close of each anchor bar the policy picks an exposure, orders are sized, filtered and filled,
and the quantities are held until the next anchor; every bar from the anchor on is tested for a
liquidation (`src/engine/account_ledger.py`).  A missing mark is replaced by a placeholder, which is
a parameter; the code's is 1. -/
import CryptoPilot.Lib.Rounding
import CryptoPilot.Strategy.Sizing

namespace CryptoPilot.Engine

open CryptoPilot.Lib CryptoPilot.Strategy

/-! ## One entry -/

structure MarkBar (n : ℕ) where
  label : ℤ
  close : Fin n → Option ℚ
  high : Fin n → Option ℚ
  low : Fin n → Option ℚ

/-- One entry: its aligned rows, the bar whose close it trades at, and the bars up to the next
anchor. -/
structure AccountEntry (n : ℕ) where
  weights : Fin n → ℚ
  fundingStep : Fin n → ℚ
  adv : Fin n → Option ℚ
  dailySigma : Fin n → Option ℚ
  moments : Option UnitMoments
  anchor : MarkBar n
  later : List (MarkBar n)

structure AccountRules (n : ℕ) where
  ladders : Fin n → VenueLadder
  steps : Fin n → Option ℚ
  mins : Fin n → Option ℚ
  policy : ExposurePolicy
  takerFeeRate : ℚ
  makerFeeRate : ℚ
  applyOrderFilters : Bool
  /-- The passive window in bars; none under taker execution. -/
  windowBars : Option ℕ
  root : ℚ → ℚ
  placeholder : ℚ

/-- `cash` and `quantities`. -/
structure Holding (n : ℕ) where
  cash : ℚ
  quantities : Fin n → ℚ

def lastClose {n : ℕ} (window : List (MarkBar n)) (i : Fin n) : Option ℚ :=
  (window.filterMap fun bar => bar.close i).getLast?

/-- One symbol of `_maker_fill_outcome`: its fill price and whether it filled passively. -/
def passiveFill {n : ℕ} (window : List (MarkBar n)) (anchorClose : Option ℚ) (price delta : ℚ)
    (i : Fin n) : ℚ × Bool :=
  if delta = 0 then (price, false)
  else match anchorClose with
    | none => ((lastClose window i).getD price, false)
    | some level =>
      if window.any fun bar => if 0 < delta then (bar.low i).any (· < level) else (bar.high i).any (level < ·) then
        (price, true)
      else ((lastClose window i).getD price, false)

namespace AccountRules

variable {n : ℕ} (c : AccountRules n) (h : Holding n) (e : AccountEntry n) (i : Fin n)

/-- `np.nan_to_num(close[anchor], nan=1.0)`. -/
def price : ℚ := (e.anchor.close i).getD c.placeholder

def held : ℚ := h.quantities i * c.price e i

/-- `daily_funding`. -/
def funding : ℚ := c.held h e i * e.fundingStep i

def charge : ℚ := ∑ i, c.funding h e i

def equity : ℚ := h.cash + ∑ i, c.held h e i - c.charge h e

def exposure : ℚ :=
  chooseExposure e.weights (c.equity h e) c.ladders c.policy c.root (c.held h e) e.adv e.dailySigma e.moments

def target : ℚ := c.exposure h e * c.equity h e * e.weights i

def marginBreach : Bool :=
  c.policy.initialMarginCap * c.equity h e <
    ∑ i, (maintenanceAndInitialMargin (fun i => |c.target h e i|) c.ladders).2 i

def intendedDelta : ℚ := |c.target h e i - c.held h e i|

/-- `skip`: an order under the minimum notional that does not close the position. -/
def skip : Bool :=
  c.applyOrderFilters && !(c.target h e i == 0 && h.quantities i != 0) &&
    (c.mins i).any fun m => 0 < m && 0 < c.intendedDelta h e i && c.intendedDelta h e i < m

def delta : ℚ :=
  if c.applyOrderFilters then
    (if c.skip h e i then h.quantities i
      else roundTo .down (((c.steps i).filter fun s => 0 < s).getD 1)
        (c.target h e i / c.price e i)) - h.quantities i
  else c.target h e i / c.price e i - h.quantities i

def sent : ℚ := |c.delta h e i| * c.price e i

/-- `fill_price` and `maker_fill`; an empty window leaves the anchor price. -/
def fill : ℚ × Bool :=
  match c.windowBars with
  | none => (c.price e i, false)
  | some bars =>
    let window := e.later.take bars
    if window = [] then (c.price e i, false)
    else passiveFill window (e.anchor.close i) (c.price e i) (c.delta h e i) i

def fee : ℚ :=
  ∑ i, |c.delta h e i| * (c.fill h e i).1 * if (c.fill h e i).2 then c.makerFeeRate else c.takerFeeRate

def impact : ℚ := ∑ i, orderImpact c.root c.policy.impactY (c.sent h e i) (e.adv i) (e.dailySigma i)

def after : Holding n where
  cash := h.cash - c.charge h e - (∑ i, c.delta h e i * (c.fill h e i).1 + c.fee h e + c.impact h e)
  quantities := fun i => h.quantities i + c.delta h e i

/-- `daily_equity`: post-trade equity at the anchor. -/
def postEquity : ℚ := (c.after h e).cash + ∑ i, (c.after h e).quantities i * c.price e i

def adverse (bar : MarkBar n) : ℚ := ((if 0 < h.quantities i then bar.low else bar.high) i).getD c.placeholder

/-- The adverse equity of a bar is below the required maintenance margin. -/
def liquidates (bar : MarkBar n) : Bool :=
  h.cash + ∑ i, h.quantities i * c.adverse h i bar <
    ∑ i, (c.ladders i).maintenance |h.quantities i * c.adverse h i bar|

/-- `running_peak` and `max_drawdown` after a bar. -/
def drawdown (acc : ℚ × ℚ) (bar : MarkBar n) : ℚ × ℚ :=
  let equity := h.cash + ∑ i, h.quantities i * (bar.close i).getD c.placeholder
  let peak := max acc.1 equity
  (peak, max acc.2 (max (if 0 < peak then 1 - equity / peak else 0) 0))

end AccountRules

structure EntryReport (n : ℕ) where
  postEquity : ℚ
  exposure : ℚ
  skippedOrders : ℕ
  skippedNotional : ℚ
  intendedNotional : ℚ
  marginBreach : Bool
  fee : ℚ
  impact : ℚ
  charge : ℚ
  makerSent : ℚ
  totalSent : ℚ
  funding : Fin n → ℚ

def AccountRules.entryReport {n : ℕ} (c : AccountRules n) (h : Holding n) (e : AccountEntry n) : EntryReport n where
  postEquity := c.postEquity h e
  exposure := c.exposure h e
  skippedOrders := ((List.finRange n).filter (c.skip h e)).length
  skippedNotional := ∑ i, if c.skip h e i then c.intendedDelta h e i else 0
  intendedNotional := ∑ i, c.intendedDelta h e i
  marginBreach := c.marginBreach h e
  fee := c.fee h e
  impact := c.impact h e
  charge := c.charge h e
  makerSent := ∑ i, if (c.fill h e i).2 then c.sent h e i else 0
  totalSent := ∑ i, c.sent h e i
  funding := c.funding h e

def AccountEntry.segment {n : ℕ} (e : AccountEntry n) : List (MarkBar n) := e.anchor :: e.later

/-! ## The replay -/

/-- The entries that were reached, each with the account it found, and how the replay ended. -/
structure Replay (n : ℕ) where
  entered : List (Holding n × AccountEntry n)
  liquidatedAt : Option ℤ
  maxDrawdown : ℚ

def replayEntries {n : ℕ} (c : AccountRules n) : Holding n → ℚ × ℚ → List (AccountEntry n) → Replay n
  | _, dd, [] => ⟨[], none, dd.2⟩
  | h, dd, e :: rest =>
    match e.segment.find? (c.liquidates (c.after h e)) with
    | some bar => ⟨[(h, e)], some bar.label, 1⟩
    | none =>
      let later := replayEntries c (c.after h e) (e.segment.foldl (c.drawdown (c.after h e)) dd) rest
      { later with entered := (h, e) :: later.entered }

structure AccountLedgerResult (n : ℕ) where
  capital : ℚ
  dailyEquity : List ℚ
  dailyExposure : List ℚ
  liquidatedAt : Option ℤ
  skippedOrders : ℕ
  untradedFraction : ℚ
  initialMarginBreaches : ℕ
  feePaid : ℚ
  impactPaid : ℚ
  fundingPaid : ℚ
  fallbackLadderSymbols : List String
  missingFilterSymbols : List String
  intradayMaxDrawdown : ℚ
  makerFillFraction : ℚ
  fundingBySymbolDaily : List (Fin n → ℚ)

/-- One row of `unit_weights` and of the frames aligned with it. -/
structure AccountRow (n : ℕ) where
  weights : Fin n → ℚ
  fundingCum : Fin n → ℚ
  adv : Fin n → Option ℚ
  dailySigma : Fin n → Option ℚ

/-- The bars of the panels cut at the anchors. -/
def segmentsOf {α : Type} (panel : List α) : List ℕ → List (List α)
  | [] => []
  | [anchor] => [panel.drop anchor]
  | anchor :: stop :: rest => (panel.drop anchor).take (stop - anchor) :: segmentsOf panel (stop :: rest)

/-- `execution` with its two arguments. -/
inductive AccountExecution where
  | taker
  | maker (makerFeeBps : Option ℚ) (passiveWindowBars : Option ℤ)

/-- The arguments of `replay_account`, aligned; a `unit_equity` is `none` where it is not finite. -/
structure ReplayInput (n : ℕ) where
  symbols : Fin n → String
  rows : List (AccountRow n)
  panel : List (MarkBar n)
  labels_nodup : (panel.map MarkBar.label).Nodup
  rules : VenueRuleSnapshot
  policy : ExposurePolicy
  anchorTimes : List ℤ
  capital : ℚ
  takerFeeBps : ℚ
  applyOrderFilters : Bool
  unitEquity : Option (List (Option ℚ))
  execution : AccountExecution

namespace ReplayInput

variable {n : ℕ} (x : ReplayInput n)

def accepted : Bool :=
  0 < x.capital && x.rows ≠ [] && x.anchorTimes.length == x.rows.length &&
    (match x.execution with
      | .taker => true
      | .maker fee bars => fee.any (fun f => 0 ≤ f && f ≤ x.takerFeeBps) && bars.any (1 ≤ ·)) &&
    match x.policy.kind with
    | .fixed => true
    | .growth => x.unitEquity.any fun values => values.length == x.rows.length && values.all (·.any (0 < ·))

/-- `anchor_pos`, if every anchor is a bar of the panels and they increase. -/
def anchorPos : Option (List ℕ) :=
  (x.anchorTimes.mapM fun t => x.panel.findIdx? fun bar => bar.label == t).filter fun pos => pos.Pairwise (· < ·)

/-- The posterior moments of an entry: from the unit returns realized strictly before it. -/
def momentsAt (root : ℚ → ℚ) (day : ℕ) : Except VenueError (Option UnitMoments) :=
  match x.policy.kind with
  | .fixed => .ok none
  | .growth =>
    let values := (x.unitEquity.getD []).reduceOption
    let returns := (List.zipWith (fun a b => b / a - 1) values values.tail).take (day - 1)
    bayesianUnitMoments root (day - 1) returns.sum (returns.map fun r => r * r).sum x.policy.priorDays
      x.policy.minMomentDays

def entryAt (root : ℚ → ℚ) (segment : List (MarkBar n)) (day : ℕ) : Except VenueError (AccountEntry n) :=
  match x.rows[day]?, x.rows[day - 1]?, segment with
  | some row, some previous, anchor :: later => (x.momentsAt root day).map fun moments =>
    { weights := row.weights, fundingStep := fun i => row.fundingCum i - previous.fundingCum i, adv := row.adv,
      dailySigma := row.dailySigma, moments := moments, anchor := anchor, later := later }
  | _, _, _ => .error .dataIntegrityError

def accountRules (root : ℚ → ℚ) (placeholder : ℚ) (ladders : Fin n → VenueLadder) : AccountRules n where
  ladders := ladders
  steps := fun i => (x.rules.get? (x.symbols i)).bind VenueSymbolRules.stepSize
  mins := fun i => (x.rules.get? (x.symbols i)).bind VenueSymbolRules.minNotional
  policy := x.policy
  takerFeeRate := x.takerFeeBps / 10000
  makerFeeRate := match x.execution with
    | .taker => 0
    | .maker fee _ => fee.getD 0 / 10000
  applyOrderFilters := x.applyOrderFilters
  windowBars := match x.execution with
    | .taker => none
    | .maker _ bars => some (bars.getD 0).toNat
  root := root
  placeholder := placeholder

def missingFilters : List String :=
  sortBy id (((List.finRange n).filter fun i =>
    ((x.rules.get? (x.symbols i)).bind VenueSymbolRules.stepSize).isNone ||
    ((x.rules.get? (x.symbols i)).bind VenueSymbolRules.minNotional).isNone).map x.symbols)

def start : Holding n := ⟨x.capital, fun _ => 0⟩

/-- The result from the entries reached; after a liquidation the account is worth nothing. -/
def report (c : AccountRules n) (fallback : List String) (r : Replay n) : AccountLedgerResult n :=
  let entered := r.entered.map fun d => c.entryReport d.1 d.2
  let alive := if r.liquidatedAt.isSome then entered.dropLast else entered
  let total := fun f : EntryReport n → ℚ => (entered.map f).sum
  let ratio := fun a b : ℚ => if 0 < b then a / b else 0
  { capital := x.capital
    dailyEquity := alive.map EntryReport.postEquity ++ List.replicate (x.rows.length - alive.length) 0
    dailyExposure := alive.map EntryReport.exposure ++ List.replicate (x.rows.length - alive.length) 0
    liquidatedAt := r.liquidatedAt
    skippedOrders := (entered.map EntryReport.skippedOrders).sum
    untradedFraction := ratio (total EntryReport.skippedNotional) (total EntryReport.intendedNotional)
    initialMarginBreaches := (entered.filter EntryReport.marginBreach).length
    feePaid := total EntryReport.fee
    impactPaid := total EntryReport.impact
    fundingPaid := total EntryReport.charge
    fallbackLadderSymbols := fallback
    missingFilterSymbols := x.missingFilters
    intradayMaxDrawdown := r.maxDrawdown
    makerFillFraction := ratio (total EntryReport.makerSent) (total EntryReport.totalSent)
    fundingBySymbolDaily := entered.map EntryReport.funding ++
      List.replicate (x.rows.length - entered.length) fun _ => 0 }

/-- What is computed before the loop: the ladders, the symbols on the fallback ladder, and the
entries. -/
def prepare (root : ℚ → ℚ) : Except VenueError ((Fin n → VenueLadder) × List String × List (AccountEntry n)) :=
  if x.accepted then
    match x.anchorPos with
    | none => .error .dataIntegrityError
    | some pos => do
      let (ladders, fallback) ← buildVenueLadders x.symbols x.rules
      let entries ← (segmentsOf x.panel pos).zipIdx.mapM fun segment => x.entryAt root segment.1 segment.2
      pure (ladders, fallback, entries)
  else .error .dataIntegrityError

/-- `replay_account`, with the placeholder for a missing mark. -/
def replayAccount (root : ℚ → ℚ) (placeholder : ℚ) : Except VenueError (AccountLedgerResult n) :=
  (x.prepare root).map fun (ladders, fallback, entries) =>
    let c := x.accountRules root placeholder ladders
    x.report c fallback (replayEntries c x.start (x.capital, 0) entries)

end ReplayInput

end CryptoPilot.Engine
