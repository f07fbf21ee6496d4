/- # TaxRecords — simulated tax evidence, and the cash it implies.

Three producers write simulated records: fills (`simulated_tax_records`), funding settlements
(`funding_tax_records`) and delisting settlements (`delisting_settlement_tax_records`).  Their ids
are deterministic, so that writing the same fact twice is recognised. -/
import Mathlib.Algebra.Order.Ring.Abs
import CryptoPilot.Lib.Text
import CryptoPilot.Live.Funding
import CryptoPilot.Live.TaxSchema

namespace CryptoPilot.Live

open CryptoPilot.Lib

/-! ## Fill events -/

/-- `FillEvent`: one row of the per-fill ledger. -/
structure FillEvent where
  decisionTime : ℚ
  timestamp : ℚ
  symbol : String
  quantityDelta : ℚ
  fillPrice : ℚ
  feeBps : ℚ
  reason : String
  preTradeEquity : ℚ
  liquidity : String
  mode : String
  runId : String
  legIndex : ℤ
  clientOrderId : String
  decisionMark : Option ℚ
  sizingAnchor : String
  fillId : Option String
  deriving DecidableEq

def Journal.attempt (j : Journal) (seq : ℤ) : Option JournalAttempt :=
  j.attempts.reverse.find? fun a => decide (a.attemptSeq = seq)

def journalFillId (fillSeq : ℤ) : String := "journal:" ++ toString fillSeq

/-- One event of `_fill_events_from_journal`: a fill in the context of its attempt, or of
`fallback`. -/
def fillEventOf (j : Journal) (fallback : AttemptContext) (f : JournalFill) : FillEvent :=
  let ctx := ((f.attemptSeq.bind j.attempt).map JournalAttempt.toAttemptContext).getD fallback
  { decisionTime := ctx.decisionTime, timestamp := f.filledAt, symbol := f.symbol,
    quantityDelta := f.signedQty, fillPrice := f.price, feeBps := f.feeBps, reason := f.reason,
    preTradeEquity := ctx.preTradeEquity, liquidity := f.liquidity, mode := ctx.mode,
    runId := ctx.runId, legIndex := f.legIndex, clientOrderId := f.clientOrderId.getD "",
    decisionMark := ctx.decisionMarks.lookup f.symbol, sizingAnchor := ctx.sizingAnchor,
    fillId := some (journalFillId f.fillSeq) }

/-- The fills that are evidence: an operator resync corrects the books and is no trade. -/
def JournalFill.evidenced (f : JournalFill) : Bool := !decide (f.kind = .operatorResync)

def fillEventsFromJournal (j : Journal) (fills : List JournalFill) (fallback : AttemptContext) : List FillEvent :=
  (fills.filter JournalFill.evidenced).map (fillEventOf j fallback)

/-! ## Simulated trade records -/

/-- The sequence number in a `journal:<fill_seq>` identity. -/
def journalSeq (fillId : String) : Option ℕ :=
  let digits := fillId.toList.drop 8
  if fillId.toList.take 8 = "journal:".toList ∧ digits ≠ [] ∧ digits.all Char.isDigit then
    some (Nat.ofDigitChars 10 digits 0)
  else none

def simulatedTradeRecord (ev : FillEvent) (fillId : String) (seq : ℕ) (mode : String) : TaxRecord :=
  let quantity := |ev.quantityDelta|
  let quoteQty := quantity * ev.fillPrice
  { recordId := "simulated:TRADE:" ++ fillId, kind := "TRADE", eventTime := ev.timestamp,
    symbol := ev.symbol, side := if 0 < ev.quantityDelta then "BUY" else "SELL",
    quantity := quantity, price := ev.fillPrice, quoteQty := quoteQty,
    fee := quoteQty * ev.feeBps / 10000, feeAsset := "USDT", realizedPnl := 0, incomeAsset := "USDT",
    isMaker := decide (ev.liquidity = "maker"), venueId := seq, source := "simulated", mode := mode }

/-- One turn of the loop of `simulated_tax_records`. -/
def simulatedTaxRecord (mode : String) (ev : FillEvent) : Except Exc (Option TaxRecord) :=
  match ev.fillId with
  | none => .error .dataIntegrityError
  | some fillId =>
    match journalSeq fillId with
    | none => .error .dataIntegrityError
    | some seq =>
      if ev.quantityDelta = 0 then .ok none
      else if ev.fillPrice ≤ 0 then .error .dataIntegrityError
      else if ev.feeBps < 0 then .error .dataIntegrityError
      else .ok (some (simulatedTradeRecord ev fillId seq mode))

def simulatedTaxRecords (events : List FillEvent) (mode : String) : Except Exc (List TaxRecord) := do
  let records ← events.mapM (simulatedTaxRecord mode)
  .ok ((records.filterMap id).insertionSort fun a b => a.eventTime ≤ b.eventTime)

def simulatedTradeId (fillSeq : ℤ) : String := "simulated:TRADE:" ++ journalFillId fillSeq

theorem simulatedTradeId_injective : Function.Injective simulatedTradeId := by
  intro m n h
  have hform : ∀ k : ℤ, simulatedTradeId k = "simulated:TRADE:journal" ++ ":" ++ toString k := by
    intro k
    apply String.toList_inj.mp
    simp only [simulatedTradeId, journalFillId, String.toList_append]; rfl
  rw [hform, hform] at h; exact (colon_numeral_inj h).2

theorem journalFillId_injective : Function.Injective journalFillId := by
  intro m n h; exact simulatedTradeId_injective (congrArg ("simulated:TRADE:" ++ ·) h)

variable {fallback : AttemptContext} {mode : String}

/-- **The record of a journal fill**: none for quantity zero; else one with the fill's identity and
instant, unless its price or fee is refused. -/
theorem simulatedTaxRecord_fillEventOf {j : Journal} {f : JournalFill} {r : Option TaxRecord}
    (h : simulatedTaxRecord mode (fillEventOf j fallback f) = .ok r) :
    (f.signedQty = 0 ∧ r = none) ∨
    (f.signedQty ≠ 0 ∧ 0 < f.price ∧ ∃ seq, r = some (simulatedTradeRecord (fillEventOf j fallback f)
      (journalFillId f.fillSeq) seq mode)) := by
  have hid : (fillEventOf j fallback f).fillId = some (journalFillId f.fillSeq) := rfl
  unfold simulatedTaxRecord at h
  rw [hid] at h
  simp only at h
  split at h
  · cases h
  · next seq hseq =>
    split_ifs at h with hqty hprice hfee
    · exact Or.inl ⟨hqty, (Except.ok.inj h).symm⟩
    · exact Or.inr ⟨hqty, not_le.mp hprice, seq, (Except.ok.inj h).symm⟩

/-! ## Funding and settlement records -/

/-- `int(epoch.timestamp() * 1000)`. -/
def epochMs (t : ℚ) : ℤ := if 0 ≤ t then ⌊t * 1000⌋ else ⌈t * 1000⌉

def fundingRecordId (runId symbol : String) (epoch : ℚ) : String :=
  "simulated:FUNDING_FEE:" ++ runId ++ ":" ++ symbol ++ ":" ++ toString (epochMs epoch)

/-- One turn of `funding_tax_records`. -/
def fundingTaxRecord (runId mode : String) (ev : FundingEvent) : TaxRecord where
  recordId := fundingRecordId runId ev.symbol ev.epoch
  kind := "FUNDING_FEE"
  eventTime := ev.epoch
  symbol := ev.symbol
  side := ""
  quantity := ev.quantity
  price := ev.price
  quoteQty := ev.quantity * ev.price
  fee := 0
  feeAsset := "USDT"
  realizedPnl := ev.amount
  incomeAsset := "USDT"
  isMaker := false
  venueId := 0
  source := "simulated"
  mode := mode

def fundingTaxRecords (events : List FundingEvent) (runId mode : String) : List TaxRecord :=
  events.map (fundingTaxRecord runId mode)

/-- One turn of `delisting_settlement_tax_records`. -/
def delistingSettlementTaxRecord (mode : String) (s : DelistingSettlement) : Option TaxRecord :=
  s.price.map fun price =>
    { recordId := "simulated:DELISTING_SETTLEMENT:" ++ s.symbol ++ ":"
        ++ toString ⌊s.deliveryTime * 1000⌋,
      kind := "TRADE", eventTime := s.deliveryTime, symbol := s.symbol,
      side := if 0 < s.quantity then "SELL" else "BUY", quantity := |s.quantity|, price := price,
      quoteQty := |s.quantity * price|, fee := s.fee, feeAsset := "USDT", realizedPnl := 0,
      incomeAsset := "USDT", isMaker := false, venueId := 0, source := "delisting_settlement",
      mode := mode }

def delistingSettlementTaxRecords (settlements : List DelistingSettlement) (mode : String) : List TaxRecord :=
  settlements.filterMap (delistingSettlementTaxRecord mode)

/-! ## Reconciliation -/

def tradeFlow (r : TaxRecord) : Except Exc ℚ :=
  if r.kind ≠ "TRADE" then .error .valueError
  else if r.side = "BUY" then .ok (-r.quoteQty - r.fee)
  else if r.side = "SELL" then .ok (r.quoteQty - r.fee)
  else if r.side = "" ∧ r.quoteQty = 0 then .ok (-r.fee)
  else .error .valueError

def fundingFlow (r : TaxRecord) : Except Exc ℚ :=
  if r.kind ≠ "FUNDING_FEE" then .error .valueError else .ok r.realizedPnl

structure CashReconciliation where
  expectedDelta : ℚ
  actualDelta : ℚ
  difference : ℚ
  withinTolerance : Bool
  deriving DecidableEq

def reconcileCycleCash (cashBefore cashAfter : ℚ) (tradeRecords fundingRecords : List TaxRecord)
    (tolerance : ℚ) : Except Exc CashReconciliation := do
  let funding ← fundingRecords.mapM fundingFlow
  let trades ← tradeRecords.mapM tradeFlow
  let expected := funding.sum + trades.sum
  let actual := cashAfter - cashBefore
  let difference := actual - expected
  .ok ⟨expected, actual, difference, decide (|difference| ≤ tolerance)⟩

/-- **A simulated trade record implies the cash its fill moved.** -/
theorem tradeFlow_simulated {j : Journal} {f : JournalFill} {seq : ℕ} (hqty : f.signedQty ≠ 0)
    (hprice : 0 < f.price) (hkind : f.evidenced) :
    tradeFlow (simulatedTradeRecord (fillEventOf j fallback f) (journalFillId f.fillSeq) seq mode)
      = .ok f.cashMove := by
  have hkind' : f.kind ≠ .operatorResync := by simpa [JournalFill.evidenced] using hkind
  have habs : |f.quantity * f.price| = |f.signedQty| * f.price := by
    rw [abs_mul, abs_of_pos hprice, JournalFill.signedQty]
    split
    · rfl
    · rw [abs_neg]
  have hcash : f.cashMove = -f.signedQty * f.price - |f.signedQty| * f.price * f.feeBps / 10000 := by
    rw [JournalFill.cashMove, if_neg hkind', fillCashDelta, habs]; rfl
  have hside : ∀ side, (if 0 < f.signedQty then "BUY" else "SELL") = side →
      (simulatedTradeRecord (fillEventOf j fallback f) (journalFillId f.fillSeq) seq mode).side
        = side := fun _ h => h
  have hquote : (simulatedTradeRecord (fillEventOf j fallback f) (journalFillId f.fillSeq) seq
      mode).quoteQty = |f.signedQty| * f.price := rfl
  have hfee : (simulatedTradeRecord (fillEventOf j fallback f) (journalFillId f.fillSeq) seq
      mode).fee = |f.signedQty| * f.price * f.feeBps / 10000 := rfl
  have htrade : (simulatedTradeRecord (fillEventOf j fallback f) (journalFillId f.fillSeq) seq
      mode).kind = "TRADE" := rfl
  rcases lt_or_gt_of_ne hqty with hneg | hpos
  · rw [tradeFlow, htrade, hside "SELL" (if_neg (not_lt.mpr hneg.le)), hquote, hfee, hcash,
      abs_of_neg hneg]
    simp only [ne_eq, not_true_eq_false, String.reduceEq, if_false, if_true]
  · rw [tradeFlow, htrade, hside "BUY" (if_pos hpos), hquote, hfee, hcash, abs_of_pos hpos]
    simp only [ne_eq, not_true_eq_false, if_false, if_true, neg_mul]

/-- **A settlement record implies the cash the settlement moved.** -/
theorem tradeFlow_settlement {s : DelistingSettlement} {r : TaxRecord}
    (h : delistingSettlementTaxRecord mode s = some r) (hprice : 0 < r.price) (hqty : s.quantity ≠ 0) :
    tradeFlow r = .ok s.cashMove := by
  obtain ⟨price, hp, rfl⟩ := Option.map_eq_some_iff.mp h
  simp only [tradeFlow, DelistingSettlement.cashMove, hp, ne_eq, not_true_eq_false, if_false]
  rcases lt_or_gt_of_ne hqty with hneg | hpos
  · rw [if_neg (not_lt.mpr hneg.le), abs_mul, abs_of_pos hprice, abs_of_neg hneg]
    simp only [if_true, Except.ok.injEq]; ring
  · rw [if_pos hpos, abs_mul, abs_of_pos hprice, abs_of_pos hpos]
    simp only [String.reduceEq, if_false, if_true]

theorem mapM_fundingFlow (events : List FundingEvent) (runId mode : String) :
    (fundingTaxRecords events runId mode).mapM fundingFlow = .ok (events.map FundingEvent.amount) := by
  induction events with
  | nil => rfl
  | cons ev rest ih =>
    rw [fundingTaxRecords, List.map_cons, List.mapM_cons]
    rw [fundingTaxRecords] at ih
    rw [ih]; rfl

end CryptoPilot.Live
