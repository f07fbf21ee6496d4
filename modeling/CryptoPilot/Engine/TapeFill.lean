/- # TapeFill — one resting order against a tape of trades.

`simulate_resting_fill` computes the fills of a resting order with arrays: the opposing volume at
the limit is summed, the queue ahead taken off, and the sums are cut at the quantity; the first
print through the limit completes the order. `eventLoop` walks the prints one by one. -/
import CryptoPilot.Lib.KeyRuns
import CryptoPilot.Lib.Timeline
import Mathlib.Algebra.Order.Field.Rat
import Mathlib.Data.Prod.Lex

namespace CryptoPilot.Engine

open CryptoPilot.Lib

/-- `DataIntegrityError`. -/
inductive TapeError where
  | dataIntegrityError
  deriving DecidableEq, Repr

/-! ## The tape -/

/-- A row of an aggTrades slice; a cell that is not an `int64`, or not finite, is `none`. -/
structure SliceRow where
  transactTimeMs : Option ℤ
  aggTradeId : Option ℤ
  price : Option ℚ
  quantity : Option ℚ
  isBuyerMaker : Bool

structure Trade where
  timeMs : ℤ
  tradeId : ℤ
  price : ℚ
  qty : ℚ
  buyerMaker : Bool
  deriving DecidableEq

/-- `TapeTrades`: the trades of one symbol by (time, trade id), all inside the coverage. -/
structure TapeTrades where
  trades : List Trade
  coverageStart : ℤ
  coverageEnd : ℤ
  sorted : trades.Pairwise fun a b => toLex (a.timeMs, a.tradeId) ≤ toLex (b.timeMs, b.tradeId)
  qty_pos : ∀ t ∈ trades, 0 < t.qty
  covered : ∀ t ∈ trades, coverageStart ≤ t.timeMs ∧ t.timeMs < coverageEnd

def SliceRow.trade (row : SliceRow) : Option Trade :=
  match row.transactTimeMs, row.aggTradeId, row.price, row.quantity with
  | some timeMs, some tradeId, some price, some qty =>
    some { timeMs := timeMs, tradeId := tradeId, price := price, qty := qty, buyerMaker := row.isBuyerMaker }
  | _, _, _, _ => none

/-- `np.lexsort((trade_id, time_ms))`. -/
def lexsort (trades : List Trade) : List Trade := sortBy (fun t => toLex (t.timeMs, t.tradeId)) trades

def TapeTrades.fromSliceFrame (frame : List SliceRow) (start stop : ℤ) : Except TapeError TapeTrades :=
  if stop ≤ start then .error .dataIntegrityError
  else match frame.mapM SliceRow.trade with
    | none => .error .dataIntegrityError
    | some trades =>
      if hvalid : ∀ t ∈ trades, 0 < t.price ∧ 0 < t.qty ∧ start ≤ t.timeMs ∧ t.timeMs < stop then
        .ok {
          trades := lexsort trades
          coverageStart := start
          coverageEnd := stop
          sorted := pairwise_sortBy _ _
          qty_pos := fun t ht => (hvalid t (mem_sortBy.mp ht)).2.1
          covered := fun t ht => (hvalid t (mem_sortBy.mp ht)).2.2 }
      else .error .dataIntegrityError

/-- A tape is the rows of its frame, each a trade at a price, in the order of the sort. -/
theorem TapeTrades.fromSliceFrame_spec {frame : List SliceRow} {start stop : ℤ} {tape : TapeTrades}
    (h : TapeTrades.fromSliceFrame frame start stop = .ok tape) :
    ∃ trades, frame.mapM SliceRow.trade = some trades ∧ tape.trades.Perm trades ∧ tape.coverageStart = start ∧
      tape.coverageEnd = stop ∧ ∀ t ∈ tape.trades, 0 < t.price := by
  rw [fromSliceFrame] at h
  split_ifs at h
  split at h
  · cases h
  · next trades htrades =>
    split_ifs at h with hvalid
    cases h
    exact ⟨trades, htrades, perm_sortBy _ _, rfl, rfl, fun t ht => (hvalid t (mem_sortBy.mp ht)).1⟩

/-! ## Orders -/

inductive OrderSide where
  | buy
  | sell
  deriving DecidableEq, Repr

structure RestingOrder where
  side : OrderSide
  limitPrice : ℚ
  quantity : ℚ
  activeFromMs : ℤ
  activeUntilMs : ℤ
  queueAheadQty : Option ℚ
  limitPrice_pos : 0 < limitPrice
  quantity_pos : 0 < quantity
  active : activeFromMs < activeUntilMs
  queue_nonneg : ∀ q ∈ queueAheadQty, 0 ≤ q

inductive UnknownQueue where
  | throughOnly
  | frontOfQueue
  deriving DecidableEq, Repr

structure TapeFillSpec where
  queueAheadFraction : ℚ := 1
  unknownQueue : UnknownQueue := .throughOnly
  qtyRtol : ℚ := 1 / 10 ^ 12
  fraction_nonneg : 0 ≤ queueAheadFraction
  fraction_le : queueAheadFraction ≤ 1
  rtol_pos : 0 < qtyRtol

structure TapeFillResult where
  filledQty : ℚ
  fills : List (ℤ × ℚ)
  firstFillMs : Option ℤ
  completedMs : Option ℤ
  throughMs : Option ℤ
  deriving DecidableEq

def TapeFillResult.empty : TapeFillResult where
  filledQty := 0
  fills := []
  firstFillMs := none
  completedMs := none
  throughMs := none

def RestingOrder.isThrough (order : RestingOrder) (t : Trade) : Bool :=
  match order.side with
  | .buy => decide (t.price < order.limitPrice)
  | .sell => decide (order.limitPrice < t.price)

def RestingOrder.isEligible (order : RestingOrder) (t : Trade) : Bool :=
  match order.side with
  | .buy => decide (t.price = order.limitPrice) && t.buyerMaker
  | .sell => decide (t.price = order.limitPrice) && !t.buyerMaker

/-! ## With arrays -/

/-- `np.searchsorted(time_ms, v, side="left")`. -/
def searchsorted (trades : List Trade) (v : ℤ) : ℕ := trades.countP fun t => decide (t.timeMs < v)

/-- `np.cumsum`, onto a sum so far. -/
def cumsum (sum : ℚ) : List ℚ → List ℚ
  | [] => []
  | x :: rest => (sum + x) :: cumsum (sum + x) rest

/-- `np.clip(cum - ahead, 0.0, quantity)`. -/
def clipFill (ahead quantity cum : ℚ) : ℚ := min (max (cum - ahead) 0) quantity

def matured (rtol quantity target : ℚ) : Bool := decide (0 < target ∧ quantity - target ≤ rtol * quantity)

/-- The increments of the prints up to completion, after a fill of `prev`, and whether they complete
the order. -/
def increments (quantity prev : ℚ) (target : List ℚ) (firstThrough done : Option ℕ) : List ℚ × Bool :=
  let diffs := List.zipWith (· - ·) target (prev :: target)
  match firstThrough, done with
  | some ft, none => ((diffs.take (ft + 1)).set ft (quantity - (prev :: target).getD ft 0), true)
  | some ft, some m =>
    if ft < m then ((diffs.take (ft + 1)).set ft (quantity - (prev :: target).getD ft 0), true)
    else (diffs.take (m + 1), true)
  | none, some m => (diffs.take (m + 1), true)
  | none, none => (diffs, false)

section Simulate

variable (order : RestingOrder) (spec : TapeFillSpec)

/-- The volume ahead of the order, `none` where only a print through the limit tells. -/
def RestingOrder.ahead : Option ℚ :=
  match order.queueAheadQty, spec.unknownQueue with
  | none, .throughOnly => none
  | none, .frontOfQueue => some 0
  | some q, _ => some (q * spec.queueAheadFraction)

/-- `np.where(eligible, wqty, 0.0)`. -/
def RestingOrder.volume (t : Trade) : ℚ := if order.isEligible t then t.qty else 0

/-- The sums of a window onto a sum so far, without the queue and cut at the quantity. -/
def targets (ahead cum : ℚ) (window : List Trade) : List ℚ :=
  (cumsum cum (window.map order.volume)).map (clipFill ahead order.quantity)

def fillWindow (window : List Trade) : TapeFillResult :=
  let throughMs := (window.find? order.isThrough).map Trade.timeMs
  match order.ahead spec with
  | none =>
    match throughMs with
    | none => TapeFillResult.empty
    | some t =>
      { filledQty := order.quantity, fills := [(t, order.quantity)], firstFillMs := some t, completedMs := some t,
        throughMs := some t }
  | some ahead =>
    let target := targets order ahead 0 window
    let (incs, completed) := increments order.quantity 0 target (window.findIdx? order.isThrough)
      (target.findIdx? (matured spec.qtyRtol order.quantity))
    let grouped := sumRuns ((window.map Trade.timeMs).zip incs)
    let kept := positives grouped
    if completed then
      let fills := addToLast (order.quantity - (kept.map Prod.snd).sum) kept
      { filledQty := order.quantity, fills := fills, firstFillMs := fills.head?.map Prod.fst,
        completedMs := fills.getLast?.map Prod.fst, throughMs := throughMs }
    else
      { filledQty := (kept.map Prod.snd).sum, fills := kept, firstFillMs := kept.head?.map Prod.fst,
        completedMs := none, throughMs := throughMs }

def simulateRestingFill (tape : TapeTrades) : Except TapeError TapeFillResult :=
  if order.activeFromMs < tape.coverageStart ∨ tape.coverageEnd <
    order.activeUntilMs then .error .dataIntegrityError
  else
    let lo := searchsorted tape.trades order.activeFromMs
    let hi := searchsorted tape.trades order.activeUntilMs
    if hi ≤ lo then .ok TapeFillResult.empty
    else .ok (fillWindow order spec ((tape.trades.take hi).drop lo))

end Simulate

/-! ## Print by print -/

section Loop

variable (order : RestingOrder)

/-- The walk over the prints: what each fills after `filled`, behind a queue (`none` where only a
print through the limit fills), and when the order is complete. -/
def walk (rtol : ℚ) (queue : Option ℚ) (filled : ℚ) : List Trade → List (ℤ × ℚ) × Option ℤ
  | [] => ([], none)
  | t :: rest =>
    if order.isThrough t then ([(t.timeMs, order.quantity - filled)], some t.timeMs)
    else match order.isEligible t, queue with
      | true, some ahead =>
        let consumed := min ahead t.qty
        let fill := min (t.qty - consumed) (order.quantity - filled)
        if matured rtol order.quantity (filled + fill) then
          ([(t.timeMs, order.quantity - filled)], some t.timeMs)
        else
          let later := walk rtol (some (ahead - consumed)) (filled + fill) rest
          ((t.timeMs, fill) :: later.1, later.2)
      | _, _ => ((t.timeMs, 0) :: (walk rtol queue filled rest).1, (walk rtol queue filled rest).2)

def loopWindow (spec : TapeFillSpec) (window : List Trade) : TapeFillResult :=
  let walked := walk order spec.qtyRtol (order.ahead spec) 0 window
  let executions := positives walked.1
  { filledQty := (executions.map Prod.snd).sum
    fills := sumRuns executions
    firstFillMs := executions.head?.map Prod.fst
    completedMs := walked.2
    throughMs := (window.find? order.isThrough).map Trade.timeMs }

def RestingOrder.window (tape : TapeTrades) : List Trade :=
  tape.trades.filter fun t => decide (order.activeFromMs ≤ t.timeMs ∧ t.timeMs < order.activeUntilMs)

def eventLoop (spec : TapeFillSpec) (tape : TapeTrades) :
    TapeFillResult := loopWindow order spec (order.window tape)

end Loop

end CryptoPilot.Engine
