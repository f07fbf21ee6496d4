/- # Account — venue positions against ledger positions, and delisted contracts.

`findPositionBreaches` compares the two position maps symbol by symbol; it never corrects anything.
A delisted symbol that the venue has settled (flat, SETTLING or CLOSE, delivery passed) is exempt:
its settlement is booked separately, by `bookDelistingSettlements`. -/
import Mathlib.Data.List.Dedup
import CryptoPilot.Lib.Calendar
import CryptoPilot.Live.Ledger

namespace CryptoPilot.Live

open CryptoPilot.Lib List

/-! ## Modes and listings -/

inductive ExecutionMode where
  | shadow
  | paper
  | liveTestnet
  | liveMainnet
  deriving DecidableEq, Repr

def ExecutionMode.value : ExecutionMode → String
  | .shadow => "shadow"
  | .paper => "paper"
  | .liveTestnet => "live_testnet"
  | .liveMainnet => "live_mainnet"

/-- `suppresses_mutations`: orders of these modes never reach the venue. -/
def ExecutionMode.suppressesMutations : ExecutionMode → Bool
  | .shadow | .paper => true
  | .liveTestnet | .liveMainnet => false

/-- One `symbols` entry of exchangeInfo; `deliveryDate` is in milliseconds. -/
structure ListingEntry where
  symbol : String
  status : String
  deliveryDate : Option ℤ
  deriving DecidableEq

/-- `DELISTED_STATUSES` and `DELISTED_SYMBOL_STATUSES`. -/
def delistedStatuses : List String := ["SETTLING", "CLOSE"]

/-- The last entry of a symbol, as the dict over the entries holds it. -/
def listingOf (listing : List ListingEntry) (symbol : String) : Option ListingEntry :=
  listing.reverse.find? fun e => decide (e.symbol = symbol)

def ListingEntry.deliveryTime (e : ListingEntry) : Option ℚ := e.deliveryDate.map fun ms => (ms : ℚ) / 1000

def ListingEntry.isDelisted (e : ListingEntry) (now : ℚ) : Bool :=
  delistedStatuses.contains e.status && match e.deliveryTime with
    | some delivery => decide (delivery ≤ now)
    | none => false

def sortedKeys (d : Dict ℚ) : List String := d.keys.insertionSort (fun a b => a ≤ b)

def heldSymbolsAbsentFromExchange (positions : Dict ℚ) (listing : List ListingEntry) : List String :=
  (sortedKeys positions).filter fun s =>
    decide (positions.get s 0 ≠ 0) && (listingOf listing s).isNone

/-- `settled_delisting_symbols`: held by the ledger, flat on the venue, delisted and delivered. -/
def settledDelistingSymbols (listing : List ListingEntry) (venuePositions ledgerPositions : Dict ℚ)
    (now : ℚ) : List String :=
  (sortedKeys ledgerPositions).filter fun s =>
    decide (ledgerPositions.get s 0 ≠ 0) && decide (venuePositions.get s 0 = 0) &&
      match listingOf listing s with
      | none => false
      | some e => delistedStatuses.contains e.status && match e.deliveryDate with
          | none => false
          | some ms => !decide (⌊now * 1000⌋ < ms)

/-! ## Breaches -/

def reconcileQtyToleranceFraction : ℚ := 1 / 1000

def deviationEpsilon : ℚ := 1 / 10 ^ 12

structure PositionBreach where
  symbol : String
  venueQty : ℚ
  ledgerQty : ℚ
  deriving DecidableEq

/-- `PositionBreach.gap`: the quantity the ledger is missing. -/
def PositionBreach.gap (b : PositionBreach) : ℚ := b.venueQty - b.ledgerQty

def deviation (venueQty ledgerQty : ℚ) : ℚ := |venueQty - ledgerQty| / max |ledgerQty| deviationEpsilon

def comparedSymbols (venuePositions ledgerPositions : Dict ℚ) : List String :=
  (ledgerPositions.keys ++ venuePositions.keys.filter fun s =>
    decide (venuePositions.get s 0 ≠ 0)).dedup.insertionSort (fun a b => a ≤ b)

def findPositionBreaches (venuePositions ledgerPositions : Dict ℚ) (tolerance : ℚ)
    (settled : List String) : Except Exc (List PositionBreach) :=
  if tolerance < 0 then .error .valueError
  else .ok <| (comparedSymbols venuePositions ledgerPositions).filterMap fun s =>
    let ledgerQty := ledgerPositions.get s 0
    let venueQty := venuePositions.get s 0
    if settled.contains s ∧ venueQty = 0 then none
    else if tolerance < deviation venueQty ledgerQty then some ⟨s, venueQty, ledgerQty⟩
    else none

/-- `reconcile_or_halt`: raises on the first breach (a `LiveTradingError`, of which the handlers ask
no more than that it is an exception). -/
def reconcileOrHalt (venuePositions ledgerPositions : Dict ℚ) (tolerance : ℚ) (settled : List String) :
    Except Exc Unit := do
  match ← findPositionBreaches venuePositions ledgerPositions tolerance settled with
  | [] => .ok ()
  | _ :: _ => .error .other

/-! ## Delisting settlements -/

structure SettlementEvidence where
  deliveryTime : ℚ
  price : ℚ
  deriving DecidableEq

/-- `DelistingSettlement`.  A live settlement has no price: the venue books the cash. -/
structure DelistingSettlement where
  symbol : String
  quantity : ℚ
  price : Option ℚ
  fee : ℚ
  deliveryTime : ℚ
  evidenceSource : String
  deriving DecidableEq

/-- The held positions past delivery with a settlement price, in symbol order. -/
def settlementCandidates (state : LedgerState) (listing : List ListingEntry)
    (evidence : Dict SettlementEvidence) (now : ℚ) : List (String × ℚ × SettlementEvidence) :=
  (sortedKeys state.positions).filterMap fun s =>
    if state.held s = 0 then none
    else match listingOf listing s with
      | none => none
      | some e => if e.isDelisted now then (evidence.lookup s).map fun proven => (s, state.held s, proven)
          else none

def settleCandidate (feeBps : ℚ) (c : String × ℚ × SettlementEvidence) : DelistingSettlement where
  symbol := c.1
  quantity := c.2.1
  price := some c.2.2.price
  fee := |c.2.1 * c.2.2.price| * feeBps / 10000
  deliveryTime := c.2.2.deliveryTime
  evidenceSource := "flat_1h_klines"

/-- The cash a settlement moves: it closes the position at its price, minus the fee. -/
def DelistingSettlement.cashMove (s : DelistingSettlement) : ℚ :=
  match s.price with
  | some price => s.quantity * price - s.fee
  | none => 0

def flatten (positions : Dict ℚ) (symbols : List String) : Dict ℚ :=
  symbols.foldl (fun d s => d.insert s 0) positions

/-- The state with the symbols of its bookings flat, and its history extended. -/
def bookedState (state : LedgerState) (now : ℚ) (cash : Option ℚ)
    (booked : List DelistingSettlement) : LedgerState :=
  let positions := flatten state.positions (booked.map DelistingSettlement.symbol)
  { state with
    positions := positions, cashUsdt := cash,
    positionHistory := appendPositionSnapshot state.positionHistory now positions
      state.fundingWatermarks }

/-- The paper branch: a held quantity past delivery is settled at a proven price for cash. -/
def bookPaperSettlements (state : LedgerState) (listing : List ListingEntry)
    (evidence : Dict SettlementEvidence) (feeBps now : ℚ) : Except Exc (LedgerState × List DelistingSettlement) :=
  match settlementCandidates state listing evidence now with
  | [] => .ok (state, [])
  | first :: rest =>
    match state.cashUsdt with
    | none => .error .dataIntegrityError
    | some cash =>
      let booked := (first :: rest).map (settleCandidate feeBps)
      .ok (bookedState state now (some (cash + (booked.map DelistingSettlement.cashMove).sum)) booked,
        booked)

/-- The live settlement: the venue's flat position is the proof, and the venue books the cash. -/
def liveSettlement (state : LedgerState) (listing : List ListingEntry) (now : ℚ) (symbol : String) :
    DelistingSettlement where
  symbol := symbol
  quantity := state.held symbol
  price := none
  fee := 0
  deliveryTime := ((listingOf listing symbol).bind ListingEntry.deliveryTime).getD now
  evidenceSource := "venue_flat_position"

def bookLiveSettlements (state : LedgerState) (listing : List ListingEntry) (venuePositions : Dict ℚ)
    (now : ℚ) : LedgerState × List DelistingSettlement :=
  match settledDelistingSymbols listing venuePositions state.positions now with
  | [] => (state, [])
  | first :: rest =>
    let booked := (first :: rest).map (liveSettlement state listing now)
    (bookedState state now state.cashUsdt booked, booked)

def bookDelistingSettlements (state : LedgerState) (mode : ExecutionMode) (listing : List ListingEntry)
    (venuePositions : Dict ℚ) (evidence : Dict SettlementEvidence) (feeBps now : ℚ) :
    Except Exc (LedgerState × List DelistingSettlement) :=
  if feeBps < 0 then .error .dataIntegrityError
  else match mode with
  | .shadow => .ok (state, [])
  | .paper => bookPaperSettlements state listing evidence feeBps now
  | .liveTestnet | .liveMainnet => .ok (bookLiveSettlements state listing venuePositions now)

/-! ## What a comparison finds -/

/-- The two quantities of a symbol agree within the reconcile tolerance. -/
def Agrees (venuePositions ledgerPositions : Dict ℚ) (symbol : String) : Prop :=
  deviation (venuePositions.get symbol 0) (ledgerPositions.get symbol 0)
    ≤ reconcileQtyToleranceFraction

theorem deviation_self (x : ℚ) : deviation x x = 0 := by
  simp [deviation]

theorem mem_comparedSymbols_of_held {venuePositions ledgerPositions : Dict ℚ} {s : String}
    (h : venuePositions.get s 0 ≠ ledgerPositions.get s 0) : s ∈ comparedSymbols venuePositions
    ledgerPositions := by
  have hkey : ∀ d : Dict ℚ, d.get s 0 ≠ 0 → s ∈ d.keys := by
    intro d hd
    by_contra hnot
    have hnone : AList.lookup s d = none := AList.lookup_eq_none.mpr fun hmem =>
      hnot (AList.mem_keys.mp hmem)
    rw [Dict.get, hnone] at hd; exact hd rfl
  rw [comparedSymbols, mem_insertionSort, mem_dedup, mem_append, mem_filter]
  by_cases hl : ledgerPositions.get s 0 = 0
  · have hv : venuePositions.get s 0 ≠ 0 := by
      rw [hl] at h; exact h
    exact Or.inr ⟨hkey _ hv, decide_eq_true hv⟩
  · exact Or.inl (hkey _ hl)

/-! ## What a booking does -/

/-- The outcome of `book_delisting_settlements`. -/
structure SettlementBooked (s : LedgerState) (now : ℚ) (s' : LedgerState) (booked : List DelistingSettlement) :
    Prop where
  cash : s'.cashUsdt = s.cashUsdt.map (· + (booked.map DelistingSettlement.cashMove).sum)
  quantity : ∀ b ∈ booked, b.quantity = s.held b.symbol ∧ b.quantity ≠ 0
  held : ∀ symbol, s'.held symbol
    = if symbol ∈ booked.map DelistingSettlement.symbol then 0 else s.held symbol
  history : s'.positionHistory = s.positionHistory ∧ booked = [] ∨
    s'.positionHistory
      = appendPositionSnapshot s.positionHistory now s'.positions s.fundingWatermarks
  applied : s'.journalAppliedFillSeq = s.journalAppliedFillSeq
  recorded : s'.journalRecordedFillSeq = s.journalRecordedFillSeq
  watermarks : s'.fundingWatermarks = s.fundingWatermarks

theorem SettlementBooked.nothing (s : LedgerState) (now : ℚ) : SettlementBooked s now s [] where
  cash := by cases s.cashUsdt <;> simp
  quantity := nofun
  held symbol := by simp
  history := Or.inl ⟨rfl, rfl⟩
  applied := rfl
  recorded := rfl
  watermarks := rfl

theorem get_flatten (positions : Dict ℚ) (symbol : String) (symbols : List String) :
    (flatten positions symbols).get symbol 0
      = if symbol ∈ symbols then 0 else positions.get symbol 0 := by
  induction symbols generalizing positions with
  | nil => simp [flatten]
  | cons s rest ih =>
    have hstep : flatten positions (s :: rest) = flatten (positions.insert s 0) rest := rfl
    rw [hstep, ih, Dict.get_insert]
    by_cases hrest : symbol ∈ rest
    · simp [hrest]
    · by_cases hs : symbol = s <;> simp [hrest, hs]

variable {listing : List ListingEntry} {evidence : Dict SettlementEvidence} {booked : List DelistingSettlement}

theorem mem_settlementCandidates {s : LedgerState} {now : ℚ} {c : String × ℚ × SettlementEvidence}
    (h : c ∈ settlementCandidates s listing evidence now) :
    c.2.1 = s.held c.1 ∧ s.held c.1 ≠ 0 ∧ evidence.lookup c.1 = some c.2.2 ∧
      ∃ e, listingOf listing c.1 = some e ∧ e.isDelisted now := by
  obtain ⟨symbol, -, hc⟩ := mem_filterMap.mp h
  split_ifs at hc with hflat
  cases he : listingOf listing symbol with
  | none => simp [he] at hc
  | some e =>
    simp only [he] at hc
    split_ifs at hc with hdel
    obtain ⟨proven, hproven, rfl⟩ := Option.map_eq_some_iff.mp hc
    exact ⟨rfl, hflat, hproven, e, he, hdel⟩

theorem settlementBooked_bookedState {s : LedgerState} {now : ℚ} {cash : Option ℚ}
    (hcash : cash = s.cashUsdt.map (· + (booked.map DelistingSettlement.cashMove).sum))
    (hqty : ∀ b ∈ booked, b.quantity = s.held b.symbol ∧ b.quantity ≠ 0) :
    SettlementBooked s now (bookedState s now cash booked) booked where
  cash := hcash
  quantity := hqty
  held symbol := get_flatten s.positions symbol _
  history := Or.inr rfl
  applied := rfl
  recorded := rfl
  watermarks := rfl

theorem settlementBooked_bookPaper {s s' : LedgerState} {feeBps now : ℚ}
    (h : bookPaperSettlements s listing evidence feeBps now = .ok (s', booked)) :
    SettlementBooked s now s' booked := by
  unfold bookPaperSettlements at h
  cases hcand : settlementCandidates s listing evidence now with
  | nil =>
    rw [hcand] at h; cases h; exact SettlementBooked.nothing s now
  | cons first rest =>
    rw [hcand] at h
    cases hcash : s.cashUsdt with
    | none =>
      rw [hcash] at h; cases h
    | some cash =>
      rw [hcash] at h
      cases h
      refine settlementBooked_bookedState (by rw [hcash]; rfl) fun b hb => ?_
      obtain ⟨c, hc, rfl⟩ := mem_map.mp hb
      rw [← hcand] at hc
      obtain ⟨hqty, hne, -⟩ := mem_settlementCandidates hc; exact ⟨hqty, hqty.trans_ne hne⟩

theorem settlementBooked_bookLive (s : LedgerState) (listing : List ListingEntry)
    (venuePositions : Dict ℚ) (now : ℚ) :
    SettlementBooked s now (bookLiveSettlements s listing venuePositions now).1
      (bookLiveSettlements s listing venuePositions now).2 := by
  unfold bookLiveSettlements
  cases hsymbols : settledDelistingSymbols listing venuePositions s.positions now with
  | nil => exact SettlementBooked.nothing s now
  | cons first rest =>
    refine settlementBooked_bookedState ?_ fun b hb => ?_
    · -- a live settlement has no price, so it moves no cash
      have hzero : (((first :: rest).map (liveSettlement s listing now)).map
          DelistingSettlement.cashMove).sum = 0 := by
        refine sum_eq_zero fun x hx => ?_
        rw [map_map] at hx
        obtain ⟨symbol, -, rfl⟩ := mem_map.mp hx; rfl
      rw [hzero]
      cases s.cashUsdt <;> simp
    · obtain ⟨symbol, hsymbol, rfl⟩ := mem_map.mp hb
      rw [← hsymbols, settledDelistingSymbols, mem_filter] at hsymbol
      have hheld := hsymbol.2
      simp only [Bool.and_eq_true, decide_eq_true_eq] at hheld; exact ⟨rfl, hheld.1.1⟩

/-- **What `book_delisting_settlements` can do.** -/
theorem bookDelistingSettlements_eq_ok {s s' : LedgerState} {mode : ExecutionMode} {venuePositions : Dict ℚ}
    {feeBps now : ℚ} (h : bookDelistingSettlements s mode listing venuePositions evidence feeBps now
      = .ok (s', booked)) : SettlementBooked s now s' booked := by
  unfold bookDelistingSettlements at h
  split_ifs at h with hfee
  cases mode with
  | shadow =>
    cases h; exact SettlementBooked.nothing s now
  | paper => exact settlementBooked_bookPaper h
  | liveTestnet | liveMainnet =>
    have hlive := settlementBooked_bookLive s listing venuePositions now
    rw [Except.ok.inj h] at hlive; exact hlive

end CryptoPilot.Live
