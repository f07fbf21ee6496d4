/- # TaxSchema — the tax-ledger record and the rules every persisted record satisfies.

The ledger is a factual record: a TRADE is a fill, every other kind is a cash flow.
`TaxRecord.Valid` is the conjunction of the rules of `validate_tax_record`, which is called before
any shard is written and on every row that is read back; a record that breaks one raises
`DataIntegrityError`. -/
import CryptoPilot.Live.Account

namespace CryptoPilot.Live

open CryptoPilot.Lib List

structure TaxRecord where
  recordId : String
  kind : String
  eventTime : ℚ
  symbol : String
  side : String
  quantity : ℚ
  price : ℚ
  quoteQty : ℚ
  fee : ℚ
  feeAsset : String
  realizedPnl : ℚ
  incomeAsset : String
  isMaker : Bool
  venueId : ℤ
  source : String
  mode : String
  incomeType : String := ""
  positionSide : String := ""
  deriving DecidableEq

def taxRecordKinds : List String :=
  ["TRADE", "REALIZED_PNL", "FUNDING_FEE", "COMMISSION", "TRANSFER", "UNCLASSIFIED"]

def tradeSides : List String := ["BUY", "SELL"]

def oneWayPositionSide : String := "BOTH"

/-- `DELIVERY_SETTLEMENT_INCOME_TYPE`, in the venue's spelling. -/
def deliverySettlementIncomeType : String := "DELIVERED_SETTELMENT"

def taxSourceModes : String → List String
  | "venue" => [ExecutionMode.liveTestnet.value, ExecutionMode.liveMainnet.value]
  | "simulated" => [ExecutionMode.paper.value, ExecutionMode.shadow.value]
  | "delisting_settlement" => [ExecutionMode.paper.value, ExecutionMode.shadow.value]
  | _ => []

def symbolRequiredVenueKinds : List String := ["REALIZED_PNL", "FUNDING_FEE", "COMMISSION"]

/-- `_validate_trade`. -/
def TaxRecord.ValidTrade (r : TaxRecord) : Prop :=
  r.symbol ≠ "" ∧ r.side ∈ tradeSides ∧ 0 < r.quantity ∧ 0 < r.price ∧ 0 ≤ r.quoteQty ∧
    r.incomeAsset ≠ "" ∧ (r.fee ≠ 0 → r.feeAsset ≠ "") ∧ r.incomeType = "" ∧
    (r.source = "venue" → r.positionSide = oneWayPositionSide) ∧
    (r.source = "simulated" ∨ r.source = "delisting_settlement" →
      r.positionSide = "" ∧ r.realizedPnl = 0)

/-- `_validate_income`. -/
def TaxRecord.ValidIncome (r : TaxRecord) : Prop :=
  r.side = "" ∧ r.positionSide = "" ∧ r.incomeAsset ≠ "" ∧
    (r.source = "venue" → r.incomeType ≠ "") ∧
    (r.source = "venue" ∧ r.kind ∈ symbolRequiredVenueKinds → r.symbol ≠ "") ∧
    (r.kind = "FUNDING_FEE" → r.symbol ≠ "")

/-- The rules of `validate_tax_record`. -/
def TaxRecord.Valid (r : TaxRecord) : Prop :=
  r.recordId ≠ "" ∧ r.kind ∈ taxRecordKinds ∧ r.mode ∈ taxSourceModes r.source ∧
    if r.kind = "TRADE" then r.ValidTrade else r.ValidIncome

instance (r : TaxRecord) : Decidable r.ValidTrade := by
  unfold TaxRecord.ValidTrade
  infer_instance

instance (r : TaxRecord) : Decidable r.ValidIncome := by
  unfold TaxRecord.ValidIncome
  infer_instance

instance (r : TaxRecord) : Decidable r.Valid := by
  unfold TaxRecord.Valid
  infer_instance

def validateTaxRecord (r : TaxRecord) : Except Exc Unit :=
  if r.Valid then .ok () else .error .dataIntegrityError

/-- The month shard of a record: `tax_ledger_<YYYYMM>.jsonl`. -/
def TaxRecord.shard (r : TaxRecord) : ℤ := monthKey r.eventTime

def TaxRecord.key (r : TaxRecord) : ℤ × String := (r.shard, r.recordId)

/-! ## Appending at the level of rows -/

/-- The records of a batch that are not in the ledger yet: `_partition_fresh_tax_records`, in batch
order. -/
def freshTaxRecords (ledger : List TaxRecord) : List TaxRecord → List TaxRecord
  | [] => []
  | r :: rest =>
    if r.key ∈ ledger.map TaxRecord.key then freshTaxRecords ledger rest
    else r :: freshTaxRecords (ledger ++ [r]) rest

/-- The rows an append writes, in the order in which it writes them: shard by shard. -/
def rowsToAppend (ledger batch : List TaxRecord) : List TaxRecord :=
  (freshTaxRecords ledger batch).insertionSort (fun a b => a.shard ≤ b.shard)

def KeysDistinct (ledger : List TaxRecord) : Prop := (ledger.map TaxRecord.key).Nodup

variable {batch : List TaxRecord}

theorem mem_of_mem_freshTaxRecords :
    ∀ {ledger : List TaxRecord} {r : TaxRecord}, r ∈ freshTaxRecords ledger batch → r ∈ batch := by
  induction batch with
  | nil =>
    intro ledger r h; cases h
  | cons s rest ih =>
    intro ledger r h
    rw [freshTaxRecords] at h
    split_ifs at h with hold
    · exact mem_cons_of_mem s (ih h)
    · rcases mem_cons.mp h with rfl | h
      · exact mem_cons_self
      · exact mem_cons_of_mem s (ih h)

variable {ledger batch : List TaxRecord}

theorem mem_of_mem_rowsToAppend {r : TaxRecord} (h : r ∈ rowsToAppend ledger batch) :
    r ∈ batch := by
  rw [rowsToAppend, mem_insertionSort] at h; exact mem_of_mem_freshTaxRecords h

/-- **Fresh records keep keys distinct.** -/
theorem keysDistinct_fresh :
    ∀ {ledger : List TaxRecord}, KeysDistinct ledger →
      KeysDistinct (ledger ++ freshTaxRecords ledger batch) := by
  induction batch with
  | nil =>
    intro ledger h; rwa [freshTaxRecords, append_nil]
  | cons r rest ih =>
    intro ledger h
    rw [freshTaxRecords]
    split_ifs with hold
    · exact ih h
    · have hnext : KeysDistinct (ledger ++ [r]) := by
        rw [KeysDistinct, map_append, map_singleton, nodup_append]
        refine ⟨h, nodup_singleton _, ?_⟩
        rintro x hx y hy rfl
        rw [mem_singleton] at hy; exact hold (hy ▸ hx)
      have := ih hnext; rwa [append_assoc] at this

/-- **Whatever prefix of an append reaches the disk, keys stay distinct.** -/
theorem keysDistinct_append (h : KeysDistinct ledger) (k : ℕ) :
    KeysDistinct (ledger ++ (rowsToAppend ledger batch).take k) := by
  have hperm : (ledger ++ rowsToAppend ledger batch).Perm
      (ledger ++ freshTaxRecords ledger batch) :=
    (perm_insertionSort _ _).append_left ledger
  have hall : KeysDistinct (ledger ++ rowsToAppend ledger batch) :=
    (hperm.map TaxRecord.key).nodup_iff.mpr (keysDistinct_fresh h)
  have hsub : (ledger ++ (rowsToAppend ledger batch).take k).Sublist
      (ledger ++ rowsToAppend ledger batch) := (take_sublist _ _).append_left ledger
  exact hall.sublist (hsub.map TaxRecord.key)

/-- **A completed append leaves every record of the batch in the ledger.** -/
theorem key_mem_append :
    ∀ {ledger : List TaxRecord} {r : TaxRecord}, r ∈ batch →
      r.key ∈ (ledger ++ rowsToAppend ledger batch).map TaxRecord.key := by
  have hfresh : ∀ {batch ledger : List TaxRecord} {r : TaxRecord}, r ∈ batch →
      r.key ∈ (ledger ++ freshTaxRecords ledger batch).map TaxRecord.key := by
    intro batch
    induction batch with
    | nil =>
      intro ledger r h; cases h
    | cons s rest ih =>
      intro ledger r h
      rw [freshTaxRecords]
      split_ifs with hold
      · rcases mem_cons.mp h with rfl | h
        · rw [map_append]; exact mem_append_left _ hold
        · exact ih h
      · rcases mem_cons.mp h with rfl | h
        · simp
        · have := @ih (ledger ++ [s]) r h; rwa [append_assoc] at this
  intro ledger r h
  have hperm : (ledger ++ rowsToAppend ledger batch).Perm
      (ledger ++ freshTaxRecords ledger batch) :=
    (perm_insertionSort _ _).append_left ledger
  exact (hperm.map TaxRecord.key).mem_iff.mpr (hfresh h)

end CryptoPilot.Live
