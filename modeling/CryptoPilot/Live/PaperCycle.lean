/- # PaperCycle — funding and delisting settlements, posted before a simulated cycle trades.

`settlePaper` is `_settle_paper_funding_and_delistings`: accrue funding (tax rows first, then the
ledger), settle delisted positions that have a settlement price (tax rows first, then the ledger),
and stop the cycle when a delisted position is left or funding lags too far. -/
import CryptoPilot.Live.Bookkeeping

namespace CryptoPilot.Live

open CryptoPilot.Lib List Option
open CryptoPilot.Lib.Proc (Along)

/-! ## What a cycle reads -/

/-- The inputs of one settlement: the listing, the series on disk, and the settlement prices that
flat bars prove. -/
structure Market where
  listing : List ListingEntry
  funding : Dict Series
  closes : Dict Series
  settlementPrices : Dict ℚ
  now : ℚ

/-- `_load_paper_funding` and `_load_paper_trade_closes`: the series of the symbols that have a
file. -/
def loadSeries (files : Dict Series) (symbols : List String) : Dict Series :=
  Dict.ofPairs (symbols.filterMap fun s => (files.lookup s).map fun series => (s, series))

def LedgerState.heldPositions (s : LedgerState) : Dict ℚ := Dict.dropDefault s.positions 0

/-- `_delisted_held_symbols`: the held symbols past delivery, with the instants. -/
def delistedHeldSymbols (positions : Dict ℚ) (listing : List ListingEntry) (now : ℚ) : Dict ℚ :=
  Dict.ofPairs (positions.keys.filterMap fun s =>
    if positions.get s 0 = 0 then none
    else match listingOf listing s with
      | none => none
      | some e => if e.isDelisted now then e.deliveryTime.map fun delivery => (s, delivery) else none)

/-- `if records: append_tax_records(records, …)`. -/
def appendAny (records : List TaxRecord) : BookM Unit :=
  if records = [] then pure () else appendTaxRecords records

/-! ## Accrual into the ledger -/

/-- The instant from which a ledger without a history is taken to hold its positions. -/
def LedgerState.bootstrapAt (s : LedgerState) (now : ℚ) : ℚ := s.fundingAccruedThrough.getD now

def LedgerState.needsBootstrap (s : LedgerState) : Bool :=
  s.positionHistory.isEmpty && !s.heldPositions.entries.isEmpty

def LedgerState.accrualHistory (s : LedgerState) (now : ℚ) : List PositionSnapshot :=
  if s.needsBootstrap then appendPositionSnapshot [] (s.bootstrapAt now) s.heldPositions ∅
  else s.positionHistory

def LedgerState.accrualSymbols (s : LedgerState) : List String :=
  (s.heldPositions.keys ++ s.fundingWatermarks.keys).dedup.insertionSort (fun a b => a ≤ b)

def accrualInput (s : LedgerState) (market : Market) (closedAt : Dict ℚ) : AccrualInput where
  history := s.accrualHistory market.now
  watermarks := s.fundingWatermarks
  funding := loadSeries market.funding s.accrualSymbols
  closes := loadSeries market.closes s.accrualSymbols
  now := market.now
  closedAt := closedAt

def accruedLedger (s : LedgerState) (now : ℚ) (accrual : FundingAccrual) : LedgerState :=
  { s with
    cashUsdt := s.cashUsdt.map (· + accrual.cashDelta),
    fundingAccruedThrough := some now,
    fundingAccrualStartedAt :=
      if s.needsBootstrap then s.fundingAccrualStartedAt.or (some (s.bootstrapAt now))
      else s.fundingAccrualStartedAt,
    fundingWatermarks := accrual.watermarks,
    positionHistory := s.accrualHistory now }

def accrueLedgerFunding (st : LiveSettings) (s : LedgerState) (market : Market) (closedAt : Dict ℚ)
    (runId : String) : BookM (LedgerState × FundingAccrual × List TaxRecord) := do
  let accrual ← Proc.ofExcept (accrueFundingByWatermark (accrualInput s market closedAt))
  if accrual.cashDelta ≠ 0 ∧ s.cashUsdt = none then Proc.throw .dataIntegrityError
  else do
    let records := fundingTaxRecords accrual.events runId st.mode.value
    appendAny records
    saveLedger (accruedLedger s market.now accrual)
    pure (accruedLedger s market.now accrual, accrual, records)

/-! ## Settlement of delisted positions -/

def provenSettlements (delisted prices : Dict ℚ) : Dict SettlementEvidence :=
  Dict.ofPairs (delisted.entries.filterMap fun e =>
    (prices.lookup e.1).map fun price => (e.1, ⟨e.2, price⟩))

/-- Post the bookings, if any: the tax rows, the ledger, then the audit lines and the alerts. -/
def postSettlements (settled : LedgerState) (booked : List DelistingSettlement)
    (records : List TaxRecord) : BookM Unit :=
  if booked = [] then pure ()
  else do
    appendAny records
    saveLedger settled
    touch

def settleDelisted (st : LiveSettings) (s : LedgerState) (market : Market) (delisted : Dict ℚ) :
    BookM (LedgerState × List TaxRecord) := do
  let (settled, booked) ← Proc.ofExcept (bookDelistingSettlements s st.mode market.listing ∅
    (provenSettlements delisted market.settlementPrices) st.delistingSettlementFeeBps market.now)
  let records := delistingSettlementTaxRecords booked st.mode.value
  postSettlements settled booked records
  -- a delisted position without a settlement price stops the cycle
  if delisted.keys.any fun symbol => !decide (settled.held symbol = 0) then do
    touch
    Proc.throw .dataIntegrityError
  else pure (settled, records)

/-- `if delisted: …`. -/
def settleAny (st : LiveSettings) (s : LedgerState) (market : Market) (delisted : Dict ℚ) :
    BookM (LedgerState × List TaxRecord) :=
  if delisted.entries.isEmpty then pure (s, []) else settleDelisted st s market delisted

structure PaperSettlement where
  ledgerState : LedgerState
  cashBefore : Option ℚ
  fundingRecords : List TaxRecord
  settlementRecords : List TaxRecord

/-- `settings.record_run_id or run_id`. -/
def LiveSettings.runIdFor (st : LiveSettings) (runId : String) : String :=
  if st.recordRunId = "" then runId else st.recordRunId

/-- `_settle_paper_funding_and_delistings`. -/
def settlePaper (st : LiveSettings) (base : LedgerState) (market : Market) (runId : String) :
    BookM PaperSettlement := do
  if heldSymbolsAbsentFromExchange base.positions market.listing ≠ [] then do
    touch
    Proc.throw .dataIntegrityError
  else do
    let delisted := delistedHeldSymbols base.positions market.listing market.now
    let (accrued, accrual, fundingRecords) ←
      accrueLedgerFunding st base market delisted (st.runIdFor runId)
    let (settled, settlementRecords) ← settleAny st accrued market delisted
    let _ ← Proc.ofExcept (enforceFundingLag accrual)
    pure { ledgerState := settled, cashBefore := base.cashUsdt, fundingRecords := fundingRecords,
           settlementRecords := settlementRecords }

/-! ## What a settlement writes -/

section Settling

variable (st : LiveSettings) (base : LedgerState) (market : Market) (runId : String)

def delistedOf : Dict ℚ := delistedHeldSymbols base.positions market.listing market.now

def Accrues (accrual : FundingAccrual) : Prop :=
  accrueFundingByWatermark (accrualInput base market (delistedOf base market)) = .ok accrual ∧
    (accrual.cashDelta = 0 ∨ base.cashUsdt ≠ none)

def fundingRecordsOf (accrual : FundingAccrual) : List TaxRecord :=
  fundingTaxRecords accrual.events (st.runIdFor runId) st.mode.value

def BooksDelisted (accrual : FundingAccrual) (settled : LedgerState) (booked : List DelistingSettlement) : Prop :=
  bookDelistingSettlements (accruedLedger base market.now accrual) st.mode market.listing ∅
    (provenSettlements (delistedOf base market) market.settlementPrices)
    st.delistingSettlementFeeBps market.now = .ok (settled, booked)

/-- **What a single write of a settlement can be.** -/
inductive SettleWrite : Disk → Disk → Prop
  /-- an operation that leaves no trace -/
  | io {d : Disk} (script : List IoStep) : SettleWrite d { d with script := script }
  | funding {d : Disk} {accrual : FundingAccrual} (h : Accrues base market accrual) (k : ℕ) :
      SettleWrite d { d with
        taxRows := d.taxRows ++
          (rowsToAppend d.taxRows (fundingRecordsOf st runId accrual)).take k }
  | accrue {d : Disk} {accrual : FundingAccrual} (h : Accrues base market accrual)
      (recorded : ∀ r ∈ fundingRecordsOf st runId accrual, r.key ∈ d.taxRows.map TaxRecord.key) :
      SettleWrite d { d with ledger := (accruedLedger base market.now accrual).saved }
  | settlement {d : Disk} {accrual : FundingAccrual} {settled : LedgerState}
      {booked : List DelistingSettlement} (h : Accrues base market accrual)
      (books : BooksDelisted st base market accrual settled booked) (k : ℕ) :
      SettleWrite d { d with
        taxRows := d.taxRows ++ (rowsToAppend d.taxRows
          (delistingSettlementTaxRecords booked st.mode.value)).take k }
  | settle {d : Disk} {accrual : FundingAccrual} {settled : LedgerState}
      {booked : List DelistingSettlement} (h : Accrues base market accrual)
      (books : BooksDelisted st base market accrual settled booked) :
      SettleWrite d { d with ledger := settled.saved }

abbrev SettleWrites : Disk → Disk → Prop := Relation.ReflTransGen (SettleWrite st base market runId)

/-- What a settlement returns: the accrued state, with the delisted positions booked. -/
structure Settles (p : PaperSettlement) : Prop where
  cashBefore : p.cashBefore = base.cashUsdt
  state : ∃ accrual, Accrues base market accrual ∧
    p.fundingRecords = fundingRecordsOf st runId accrual ∧
    ((p.ledgerState = accruedLedger base market.now accrual ∧ p.settlementRecords = []) ∨
      ∃ booked, BooksDelisted st base market accrual p.ledgerState booked ∧
        p.settlementRecords = delistingSettlementTaxRecords booked st.mode.value ∧
        ∀ r ∈ p.settlementRecords, r.Valid)

end Settling

section Settling

variable {st : LiveSettings} {base : LedgerState} {market : Market} {runId : String} {d d' : Disk}

theorem SettleWrite.frame (h : SettleWrite st base market runId d d') :
    d'.journal = d.journal ∧ d'.fillRows = d.fillRows ∧ d.taxRows <+: d'.taxRows ∧
      d'.reconciliations = d.reconciliations := by
  cases h with
  | funding h k | settlement h books k => exact ⟨rfl, rfl, prefix_append _ _, rfl⟩
  | _ => exact ⟨rfl, rfl, prefix_refl _, rfl⟩

theorem SettleWrites.frame (h : SettleWrites st base market runId d d') :
    d'.journal = d.journal ∧ d'.fillRows = d.fillRows ∧ d.taxRows <+: d'.taxRows ∧
      d'.reconciliations = d.reconciliations := by
  induction h with
  | refl => exact ⟨rfl, rfl, prefix_refl _, rfl⟩
  | tail _ hw ih =>
    obtain ⟨hj, hf, ht, hr⟩ := hw.frame
    exact ⟨hj.trans ih.1, hf.trans ih.2.1, ih.2.2.1.trans ht, hr.trans ih.2.2.2⟩

instance : DiskOrder (SettleWrites st base market runId) where
  refl _ := .refl
  trans _ _ _ := .trans
  io _ script := .single (.io script)
  fillRows h := (SettleWrites.frame h).2.1 ▸ prefix_refl _
  taxRows h := (SettleWrites.frame h).2.2.1

theorem appendAny_along {R : Disk → Disk → Prop} [DiskOrder R] {records : List TaxRecord}
    (htax : ∀ script k, (∀ r ∈ records, r.Valid) → R { d with script := script } { d with
      script := script, taxRows := d.taxRows ++ (rowsToAppend d.taxRows records).take k }) :
    Along R (appendAny records) d fun _ d' => (∀ r ∈ records, r.Valid) ∧
      ∀ r ∈ records, r.key ∈ d'.taxRows.map TaxRecord.key := by
  refine Along.branch (fun hnil => Along.ret ?_) fun _ => ?_
  · rw [hnil]; exact ⟨forall_mem_nil _, forall_mem_nil _⟩
  · refine Along.mono (appendTaxRecords_along htax) fun _ d' _ h => ?_
    obtain ⟨hvalid, script, rfl⟩ := h; exact ⟨hvalid, fun r hr => key_mem_append hr⟩

theorem accrueLedgerFunding_along :
    Along (SettleWrites st base market runId)
      (accrueLedgerFunding st base market (delistedOf base market) (st.runIdFor runId)) d
      fun r _ => Accrues base market r.2.1 ∧ r.1 = accruedLedger base market.now r.2.1 ∧
        r.2.2 = fundingRecordsOf st runId r.2.1 := by
  refine Along.fallible fun accrual haccrual => ?_
  refine Along.branch (fun _ => Along.raise) fun hcash => ?_
  have haccrues : Accrues base market accrual := by
    refine ⟨haccrual, ?_⟩
    by_cases h0 : accrual.cashDelta = 0
    · exact Or.inl h0
    · exact Or.inr fun hnone => hcash ⟨h0, hnone⟩
  refine Along.bind (appendAny_along fun script k _ => .single (.funding haccrues k))
    fun _ d' _ hd' => ?_
  have hrecorded := hd'.2
  refine Along.bind (saveLedger_along fun script => .single (.accrue haccrues hrecorded))
    fun _ _ _ _ => ?_
  exact Along.ret ⟨haccrues, rfl, rfl⟩

theorem settleDelisted_along {accrual : FundingAccrual} (h : Accrues base market accrual) :
    Along (SettleWrites st base market runId)
      (settleDelisted st (accruedLedger base market.now accrual) market (delistedOf base market)) d
      fun r _ => ∃ booked, BooksDelisted st base market accrual r.1 booked ∧
        r.2 = delistingSettlementTaxRecords booked st.mode.value ∧ ∀ rec ∈ r.2, rec.Valid := by
  refine Along.fallible fun r hr => ?_
  obtain ⟨settled, booked⟩ := r
  have hbooks : BooksDelisted st base market accrual settled booked := hr
  have hposted : Along (SettleWrites st base market runId)
      (postSettlements settled booked (delistingSettlementTaxRecords booked st.mode.value)) d
      fun _ _ => ∀ rec ∈ delistingSettlementTaxRecords booked st.mode.value, rec.Valid := by
    refine Along.branch (fun hnil => Along.ret ?_) fun _ => ?_
    · rw [hnil]; exact forall_mem_nil _
    · refine Along.bind (appendAny_along fun script k _ => .single (.settlement h hbooks k))
        fun _ d' _ hd' => ?_
      refine Along.bind (saveLedger_along fun script => .single (.settle h hbooks)) fun _ _ _ _ => ?_
      exact Along.mono touch_along fun _ _ _ _ => hd'.1
  refine Along.bind hposted fun _ d' _ hvalid => ?_
  refine Along.branch (fun _ => ?_) fun _ => Along.ret ⟨booked, hbooks, rfl, hvalid⟩
  exact Along.bind touch_along fun _ _ _ _ => Along.raise

/-- **A settlement is its writes.** -/
theorem settlePaper_along : Along (SettleWrites st base market runId)
    (settlePaper st base market runId) d fun p _ => Settles st base market runId p := by
  refine Along.branch (fun _ => Along.bind touch_along fun _ _ _ _ => Along.raise) fun _ => ?_
  refine Along.bind accrueLedgerFunding_along fun r d' _ hr => ?_
  obtain ⟨accrued, accrual, fundingRecords⟩ := r
  obtain ⟨haccrues, haccrued, hrecords⟩ := hr
  simp only at haccrues haccrued hrecords
  subst haccrued hrecords
  have hsettled : Along (SettleWrites st base market runId)
      (settleAny st (accruedLedger base market.now accrual) market (delistedOf base market)) d'
      fun r _ => (r.1 = accruedLedger base market.now accrual ∧ r.2 = []) ∨
        ∃ booked, BooksDelisted st base market accrual r.1 booked ∧
          r.2 = delistingSettlementTaxRecords booked st.mode.value ∧ ∀ rec ∈ r.2, rec.Valid := by
    refine Along.branch (fun _ => Along.ret (Or.inl ⟨rfl, rfl⟩)) fun _ => ?_
    exact Along.mono (settleDelisted_along haccrues) fun _ _ _ h => Or.inr h
  refine Along.bind hsettled fun r d'' _ hr => ?_
  obtain ⟨settled, settlementRecords⟩ := r
  refine Along.fallible fun _ _ => Along.ret ⟨rfl, accrual, haccrues, rfl, hr⟩

end Settling

/-! ## The cash that a settlement moved -/

/-- **The records explain the cash**: from the balance before (or the present one, if none is given)
the funding and settlement records lead to it. -/
def Explained (state : LedgerState) (before : Option ℚ) (funding settlement : List TaxRecord) : Prop :=
  ∃ fundingFlows tradeFlows, funding.mapM fundingFlow = .ok fundingFlows ∧
    settlement.mapM tradeFlow = .ok tradeFlows ∧
    ∀ cash, state.cashUsdt = some cash → before.getD cash + fundingFlows.sum + tradeFlows.sum = cash

theorem Explained.plain (s : LedgerState) : Explained s none [] [] :=
  ⟨[], [], rfl, rfl, fun cash _ => by simp⟩

theorem accrueFundingByWatermark_cashDelta {a : AccrualInput} {accrual : FundingAccrual}
    (h : accrueFundingByWatermark a = .ok accrual) :
    accrual.cashDelta = (accrual.events.map FundingEvent.amount).sum := by
  obtain ⟨turns, rfl, -⟩ := accrueFundingByWatermark_eq_ok h; rfl

theorem mapM_settlementFlow {mode : String} : ∀ {booked : List DelistingSettlement},
    (∀ b ∈ booked, b.quantity ≠ 0) →
    (∀ r ∈ delistingSettlementTaxRecords booked mode, r.Valid) →
    ∃ flows, (delistingSettlementTaxRecords booked mode).mapM tradeFlow = .ok flows ∧
      flows.sum = (booked.map DelistingSettlement.cashMove).sum := by
  intro booked
  induction booked with
  | nil =>
    intro _ _; exact ⟨[], rfl, rfl⟩
  | cons b rest ih =>
    intro hqty hvalid
    have hrest : ∀ r ∈ delistingSettlementTaxRecords rest mode,
        r ∈ delistingSettlementTaxRecords (b :: rest) mode := by
      intro r hr
      obtain ⟨b', hb', hr'⟩ := mem_filterMap.mp hr
      exact mem_filterMap.mpr ⟨b', mem_cons_of_mem b hb', hr'⟩
    obtain ⟨flows, hflows, hsum⟩ := ih (fun b' hb' => hqty b' (mem_cons_of_mem b hb'))
      fun r hr => hvalid r (hrest r hr)
    cases hrec : delistingSettlementTaxRecord mode b with
    | none =>
      have hprice : b.price = none := map_eq_none_iff.mp hrec
      refine ⟨flows, ?_, ?_⟩
      · rw [delistingSettlementTaxRecords, filterMap_cons_none hrec]; exact hflows
      · have hmove : b.cashMove = 0 := by rw [DelistingSettlement.cashMove, hprice]
        rw [map_cons, sum_cons, hmove, zero_add, hsum]
    | some r =>
      have hmem : r ∈ delistingSettlementTaxRecords (b :: rest) mode := mem_filterMap.mpr ⟨b, mem_cons_self, hrec⟩
      have hkind : r.kind = "TRADE" := by
        obtain ⟨price, -, rfl⟩ := map_eq_some_iff.mp hrec; rfl
      have hprice : 0 < r.price := by
        have htrade := (hvalid r hmem).2.2.2
        rw [if_pos hkind] at htrade; exact htrade.2.2.2.1
      have hflow := tradeFlow_settlement hrec hprice (hqty b mem_cons_self)
      refine ⟨b.cashMove :: flows, ?_, by simp [hsum]⟩
      rw [delistingSettlementTaxRecords, filterMap_cons_some hrec, mapM_cons, hflow]
      rw [delistingSettlementTaxRecords] at hflows
      rw [hflows]; rfl

/-- **What a settlement returns is explained by its records.** -/
theorem Settles.explained {st : LiveSettings} {base : LedgerState} {market : Market} {runId : String}
    {p : PaperSettlement} (h : Settles st base market runId p) :
    Explained p.ledgerState p.cashBefore p.fundingRecords p.settlementRecords := by
  obtain ⟨accrual, haccrues, hfunding, hstate⟩ := h.state
  have hdelta := accrueFundingByWatermark_cashDelta haccrues.1
  have hflows : p.fundingRecords.mapM fundingFlow = .ok (accrual.events.map FundingEvent.amount) := by
    rw [hfunding]; exact mapM_fundingFlow _ _ _
  rw [h.cashBefore]
  rcases hstate with ⟨hledger, hnone⟩ | ⟨booked, hbooks, hrecords, hvalid⟩
  · refine ⟨_, [], hflows, by rw [hnone]; rfl, fun cash hcash => ?_⟩
    rw [hledger] at hcash
    obtain ⟨before, hbefore, rfl⟩ := map_eq_some_iff.mp hcash
    rw [hbefore, hdelta]; simp
  · have hb := bookDelistingSettlements_eq_ok hbooks
    rw [hrecords] at hvalid
    obtain ⟨flows, htrades, hsum⟩ := mapM_settlementFlow (fun b hb' => (hb.quantity b hb').2) hvalid
    refine ⟨_, flows, hflows, by rw [hrecords]; exact htrades, fun cash hcash => ?_⟩
    rw [hb.cash] at hcash
    obtain ⟨accrued, haccrued, rfl⟩ := map_eq_some_iff.mp hcash
    obtain ⟨before, hbefore, rfl⟩ := map_eq_some_iff.mp haccrued
    rw [hbefore, getD_some, hdelta, hsum]

end CryptoPilot.Live
