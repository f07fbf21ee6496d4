/- # TaxBasis — the signed-position moving-average cost basis.

Same-direction fills re-average the entry, opposite-direction fills realize only the closed portion
at the current average, a fill larger than the position flips it, and a delivery settlement closes
what is held. Arithmetic is exact; the one declared rounding point is re-averaging, half-even to
`averageEntryQuantum`. -/
import Mathlib.Data.Prod.Lex
import Mathlib.Data.String.Basic
import CryptoPilot.Lib.Timeline
import CryptoPilot.Live.TaxSchema

namespace CryptoPilot.Live

open CryptoPilot.Lib

def averageEntryQuantum : ℚ := 1 / 10 ^ 18

/-- `AverageCostPosition`: signed size, average entry and the time of the fill that opened it. -/
structure AverageCostPosition where
  quantity : ℚ
  avgEntry : ℚ
  openedAt : Option ℚ
  deriving DecidableEq

def flatPosition : AverageCostPosition := ⟨0, 0, none⟩

inductive ClosedDirection where
  | long
  | short
  deriving DecidableEq, Repr

/-- `FillRealization`: the effect of one fill or delivery settlement. -/
structure FillRealization where
  recordId : String
  symbol : String
  eventTime : ℚ
  closedQuantity : ℚ
  closedDirection : Option ClosedDirection
  entryNotionalClosed : ℚ
  exitNotionalClosed : ℚ
  realizedPnl : ℚ
  openedQuantity : ℚ
  positionBefore : AverageCostPosition
  positionAfter : AverageCostPosition
  deriving DecidableEq

/-- `_reaveraged_entry`: the quotient in units of the quantum, rounded half-even. -/
def reaveragedEntry (totalCost totalQuantity : ℚ) : Except Exc ℚ :=
  let ratio := totalCost / totalQuantity / averageEntryQuantum
  let units := ⌊ratio⌋
  let remainder := ratio - units
  let units := if remainder * 2 > 1 ∨ remainder * 2 = 1 ∧ units % 2 ≠ 0 then units + 1 else units
  let average := units * averageEntryQuantum
  if average ≤ 0 then .error .dataIntegrityError else .ok average

/-- `signed`: the quantity of a fill with the sign of its side. -/
def TaxRecord.signedQuantity (r : TaxRecord) : ℚ :=
  if r.side = "BUY" then r.quantity else -r.quantity

def TaxRecord.IsDelivery (r : TaxRecord) : Prop :=
  r.kind = "REALIZED_PNL" ∧ r.incomeType = deliverySettlementIncomeType

instance (r : TaxRecord) : Decidable r.IsDelivery := by
  unfold TaxRecord.IsDelivery
  infer_instance

def averageAfter (position : AverageCostPosition) (r : TaxRecord) : Except Exc ℚ :=
  let held := |position.quantity|
  let totalCost := held * position.avgEntry + r.quantity * r.price
  let totalHeld := held + r.quantity
  if position.quantity = 0 then .ok r.price else reaveragedEntry totalCost totalHeld

def openingFill (position : AverageCostPosition) (r : TaxRecord) : Except Exc FillRealization := do
  let avgAfter ← averageAfter position r
  let openedAt := if position.quantity = 0 then some r.eventTime else position.openedAt
  pure
    { recordId := r.recordId, symbol := r.symbol, eventTime := r.eventTime, closedQuantity := 0,
      closedDirection := none, entryNotionalClosed := 0, exitNotionalClosed := 0, realizedPnl := 0,
      openedQuantity := r.quantity, positionBefore := position,
      positionAfter := ⟨position.quantity + r.signedQuantity, avgAfter, openedAt⟩ }

/-- The effect of a fill against the position: it closes, and beyond the position it flips. -/
def closingFill (position : AverageCostPosition) (r : TaxRecord) : FillRealization :=
  let held := |position.quantity|
  let closed := if held < r.quantity then held else r.quantity
  let opened := r.quantity - closed
  let direction := if 0 < position.quantity then ClosedDirection.long else .short
  let entryClosed := position.avgEntry * closed
  let exitClosed := r.price * closed
  let realized := if direction = .long then exitClosed - entryClosed else entryClosed - exitClosed
  let afterQty := position.quantity + r.signedQuantity
  let after :=
    if closed = held then
      if opened = 0 then flatPosition else ⟨afterQty, r.price, some r.eventTime⟩
    else ⟨afterQty, position.avgEntry, position.openedAt⟩
  { recordId := r.recordId, symbol := r.symbol, eventTime := r.eventTime, closedQuantity := closed,
    closedDirection := some direction, entryNotionalClosed := entryClosed,
    exitNotionalClosed := exitClosed, realizedPnl := realized, openedQuantity := opened,
    positionBefore := position, positionAfter := after }

/-- `apply_fill`: one TRADE record applied to a moving-average position. -/
def applyTaxFill (position : AverageCostPosition) (r : TaxRecord) : Except Exc FillRealization :=
  if r.kind ≠ "TRADE" then .error .valueError
  else do
    validateTaxRecord r
    if position.quantity = 0 ∨ (0 < position.quantity ↔ 0 < r.signedQuantity) then
      openingFill position r
    else
      .ok (closingFill position r)

/-- The effect of a delivery settlement. -/
def settlementClose (position : AverageCostPosition) (r : TaxRecord) : FillRealization :=
  let direction := if 0 < position.quantity then ClosedDirection.long else .short
  let closed := |position.quantity|
  let entryClosed := position.avgEntry * closed
  let exitClosed :=
    if direction = .long then entryClosed + r.realizedPnl else entryClosed - r.realizedPnl
  { recordId := r.recordId, symbol := r.symbol, eventTime := r.eventTime, closedQuantity := closed,
    closedDirection := some direction, entryNotionalClosed := entryClosed,
    exitNotionalClosed := exitClosed, realizedPnl := r.realizedPnl, openedQuantity := 0,
    positionBefore := position, positionAfter := flatPosition }

/-- `apply_settlement_close`: the whole position closed at a venue delivery settlement. -/
def applySettlementClose (position : AverageCostPosition) (r : TaxRecord) : Except Exc FillRealization :=
  if ¬ r.IsDelivery then .error .valueError
  else do
    validateTaxRecord r
    if position.quantity = 0 then .error .dataIntegrityError
    else .ok (settlementClose position r)

/-- One round of the loop of `fold_symbol`, by the kind of the record. -/
def foldStep (position : AverageCostPosition) (r : TaxRecord) : Except Exc FillRealization :=
  if r.kind = "TRADE" then applyTaxFill position r
  else if r.IsDelivery then applySettlementClose position r
  else .error .valueError

/-- The loop of `fold_symbol` over the ordered records. -/
def foldSteps (position : AverageCostPosition) (seen : List String) :
    List TaxRecord → Except Exc (List FillRealization)
  | [] => .ok []
  | r :: rest =>
    if r.recordId ∈ seen then .error .dataIntegrityError
    else do
      let step ← foldStep position r
      let out ← foldSteps step.positionAfter (r.recordId :: seen) rest
      pure (step :: out)

/-- `tax_event_sort_key`: time, then venue id, then record id. -/
def TaxRecord.sortKey (r : TaxRecord) : ℚ ×ₗ ℤ ×ₗ String :=
  toLex (r.eventTime, toLex (r.venueId, r.recordId))

/-- `fold_symbol`: the records of one symbol, in the order of their keys. -/
def foldSymbol (records : List TaxRecord) (initial : AverageCostPosition) : Except Exc (List FillRealization) :=
  let ordered := sortBy TaxRecord.sortKey records
  if (ordered.map TaxRecord.symbol).dedup.length > 1 then .error .valueError
  else foldSteps initial [] ordered

/-! ## One step -/

theorem validateTaxRecord_eq_ok {r : TaxRecord} {u : Unit} : validateTaxRecord r = .ok u ↔ r.Valid := by
  rw [validateTaxRecord]
  split_ifs with h
  · simp [h]
  · simp [h]

end CryptoPilot.Live
