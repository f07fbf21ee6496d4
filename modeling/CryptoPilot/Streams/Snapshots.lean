/- # Snapshots — REST snapshots and their hourly partitions.

A response to an all-symbol endpoint is parsed row by row: a row that violates the row contract is
left out and counted, and the response fails as a whole when too many are
(`src/market_data/streams/snapshots.py`).  The rows go to a partition per UTC hour of the grid,
where the row with the earliest receipt of each (symbol, grid) stays. -/
import CryptoPilot.Capture.Journal
import CryptoPilot.Lib.Earliest
import CryptoPilot.Lib.TextLines
import Mathlib.Data.Prod.Lex
import Mathlib.Data.String.Basic

namespace CryptoPilot.Streams

open CryptoPilot.Lib CryptoPilot.Capture List

inductive CycleError where
  | journal (e : JournalError)
  /-- `OverflowError` of `float` on an integer. -/
  | floatOverflow
  /-- A column of milliseconds beyond 63 bits: what pandas makes of it (it wraps, widens or raises)
  is left out. -/
  | intOverflow
  /-- `recv_ns` is beyond the range of a timestamp. -/
  | outOfBounds
  /-- `mark_ok timestamps must be non-decreasing`. -/
  | notMonotone
  deriving DecidableEq, Repr

/-- What is taken from Python, `json`, `hashlib` and pandas. -/
structure Runtime extends Codec where
  /-- `float(text)`; `none` is `ValueError`. -/
  parseFloat : String → Option FloatVal
  /-- `str(value)` of a value that is no text. -/
  str : Json → String
  /-- `_grid_ns`: UTC nanoseconds of `pd.Timestamp(grid)`, `none` when undecodable, missing or
  naive. -/
  gridNs : String → Option ℤ
  /-- `json.dumps(order, …)` with sorted keys; `none` is `TypeError` or `ValueError`. -/
  dumpsOrder : Record → Option String
  /-- `hashlib.sha256(text.encode("utf-8")).hexdigest()`. -/
  sha256 : String → String

/-! # Texts and numbers -/

/-- `text.strip()`. -/
def strip (text : String) : String :=
  String.ofList (((text.toList.dropWhile isSpace).reverse.dropWhile isSpace).reverse)

/-- `isinstance(value, str) and value.strip() == ""`. -/
def isBlank : Json → Bool
  | .str s => strip s = ""
  | _ => false

inductive Field where
  | bidPrice | bidQty | askPrice | askQty | time
  | markPrice | nextFundingTime | indexPrice | estimatedSettlePrice | lastFundingRate | interestRate
  deriving DecidableEq, Repr

def Field.key : Field → String
  | .bidPrice => "bidPrice"
  | .bidQty => "bidQty"
  | .askPrice => "askPrice"
  | .askQty => "askQty"
  | .time => "time"
  | .markPrice => "markPrice"
  | .nextFundingTime => "nextFundingTime"
  | .indexPrice => "indexPrice"
  | .estimatedSettlePrice => "estimatedSettlePrice"
  | .lastFundingRate => "lastFundingRate"
  | .interestRate => "interestRate"

inductive Reason where
  | malformedRow
  | missingSymbol
  | missing (field : Field)
  | nonNumeric (field : Field)
  | negativePrice
  | negativeQty
  | nonPositiveMarkPrice
  | invalidTime
  | invalidNextFundingTime
  | duplicateSymbol
  deriving DecidableEq, Repr

inductive RowError where
  | rejected (reason : Reason)
  | raised (e : CycleError)
  deriving DecidableEq, Repr

variable (R : Runtime)

/-- `float(value)`; `none` is `TypeError` or `ValueError`. -/
def toFloat : Json → Except CycleError (Option FloatVal)
  | .str s => .ok (R.parseFloat s)
  | .bool b => .ok (some (.fin (if b then 1 else 0)))
  | .float x => .ok (some x)
  | .int n =>
    match binary64.round n with
    | .fin q => .ok (some (.fin q))
    | _ => .error .floatOverflow
  | _ => .ok none

def strictFloat (value : Json) : Except CycleError (Option ℚ) :=
  if value = .null ∨ isBlank value then .ok none
  else
    match toFloat R value with
    | .error e => .error e
    | .ok (some (.fin q)) => .ok (some q)
    | .ok _ => .ok none

/-- `int(x)`: towards zero. -/
def truncate (q : ℚ) : ℤ := if 0 ≤ q then ⌊q⌋ else ⌈q⌉

def strictMs (value : Json) : Except CycleError (Option ℤ) :=
  (strictFloat R value).map (fun q => q.map truncate)

/-! # Rows -/

inductive Quote where
  | book (bidPx bidQty askPx askQty : FloatVal)
  | premium (markPrice indexPrice estimatedSettlePrice lastFundingRate interestRate : FloatVal)
      (nextFundingTimeMs : Option ℤ)
  deriving DecidableEq, Repr

/-- A row of a frame; a null `fetched_at_ms` is `⊤`, it ranks last. -/
structure Row where
  capturedAt : ℤ
  symbol : String
  exchangeTimeMs : ℤ
  fetchedAtMs : WithTop ℤ
  quote : Quote
  deriving DecidableEq

def rowSymbol (row : Record) : Option String :=
  match Record.get row "symbol" with
  | none | some .null => none
  | some value =>
    let text := strip (match value with
      | .str s => s
      | other => R.str other)
    if text = "" then none else some text

def required (row : Record) (field : Field) : Except RowError ℚ :=
  match strictFloat R ((Record.get row field.key).getD .null) with
  | .error e => .error (.raised e)
  | .ok none => .error (.rejected (.nonNumeric field))
  | .ok (some q) => .ok q

/-- A positive (or, for `nextFundingTime`, nonnegative) time. -/
def requiredMs (row : Record) (field : Field) (least : ℤ) (reason : Reason) : Except RowError ℤ :=
  match strictMs R ((Record.get row field.key).getD .null) with
  | .error e => .error (.raised e)
  | .ok none => .error (.rejected reason)
  | .ok (some ms) => if ms < least then .error (.rejected reason) else .ok ms

/-- `_book_row_reject` between the symbol and the check for a duplicate. -/
def bookRow (row : Record) : Except RowError (ℤ × Quote) := do
  match [Field.bidPrice, .bidQty, .askPrice, .askQty, .time].find? (fun f => (Record.get row f.key).isNone) with
  | some field => throw (.rejected (.missing field))
  | none =>
    let bidPx ← required R row .bidPrice
    let bidQty ← required R row .bidQty
    let askPx ← required R row .askPrice
    let askQty ← required R row .askQty
    if bidPx < 0 ∨ askPx < 0 then throw (.rejected .negativePrice)
    if bidQty < 0 ∨ askQty < 0 then throw (.rejected .negativeQty)
    let exchangeMs ← requiredMs R row .time 1 .invalidTime
    let stored (px : ℚ) : FloatVal := if px = 0 then .nan else .fin px
    return (exchangeMs, .book (stored bidPx) (.fin bidQty) (stored askPx) (.fin askQty))

def isAbsent (row : Record) (field : Field) : Bool :=
  match Record.get row field.key with
  | none | some .null => true
  | some value => isBlank value

def optional (row : Record) (field : Field) : Except RowError FloatVal :=
  if isAbsent row field then .ok .nan else (required R row field).map .fin

def positiveOrNan : FloatVal → FloatVal
  | .fin q => if q ≤ 0 then .nan else .fin q
  | x => x

/-- `_premium_row_reject` between the symbol and the check for a duplicate. -/
def premiumRow (row : Record) : Except RowError (ℤ × Quote) := do
  if isAbsent row .markPrice then throw (.rejected (.missing .markPrice))
  let markPrice ← required R row .markPrice
  if markPrice ≤ 0 then throw (.rejected .nonPositiveMarkPrice)
  if isAbsent row .time then throw (.rejected (.missing .time))
  let exchangeMs ← requiredMs R row .time 1 .invalidTime
  if isAbsent row .nextFundingTime then throw (.rejected (.missing .nextFundingTime))
  let nextMs ← requiredMs R row .nextFundingTime 0 .invalidNextFundingTime
  let indexPrice ← optional R row .indexPrice
  let estimated ← optional R row .estimatedSettlePrice
  let funding ← optional R row .lastFundingRate
  let interest ← optional R row .interestRate
  -- no funding is scheduled: the estimates are placeholders
  let scheduled (x : FloatVal) : FloatVal := if nextMs = 0 then .nan else x
  return (exchangeMs, .premium (.fin markPrice) (positiveOrNan indexPrice) (positiveOrNan estimated)
    (scheduled funding) (scheduled interest) (if nextMs = 0 then none else some nextMs))

/-- The row check of a dataset. -/
def rowOf (stream : Stream) (accepted : List String) (item : Json) : Except RowError (String × ℤ × Quote) :=
  match item with
  | .obj row =>
    match rowSymbol R row with
    | none => .error (.rejected .missingSymbol)
    | some symbol =>
      match if stream = .bookTicker then bookRow R row else premiumRow R row with
      | .error e => .error e
      | .ok x => if symbol ∈ accepted then .error (.rejected .duplicateSymbol) else .ok (symbol, x)
  | _ => .error (.rejected .malformedRow)

/-! # The frame of a response -/

structure Tally where
  rows : List Row
  rejected : ℕ

def tally (stream : Stream) (capturedAt fetchedAtMs : ℤ) : List Json → Tally → Except CycleError Tally
  | [], t => .ok t
  | item :: rest, t =>
    match rowOf R stream (t.rows.map Row.symbol) item with
    | .error (.raised e) => .error e
    | .error (.rejected _) => tally stream capturedAt fetchedAtMs rest { t with rejected := t.rejected + 1 }
    | .ok (symbol, exchangeMs, quote) =>
      tally stream capturedAt fetchedAtMs rest
        { t with rows := t.rows ++ [⟨capturedAt, symbol, exchangeMs, fetchedAtMs, quote⟩] }

/-- The quantities as `float32`. -/
def Quote.narrow : Quote → Quote
  | .book bidPx bidQty askPx askQty => .book bidPx (binary32.cast bidQty) askPx (binary32.cast askQty)
  | q => q

/-- `_enforce_snapshot_dtypes` on a row. -/
def Row.enforceDtypes (r : Row) : Row := { r with quote := r.quote.narrow }

def Row.fits (r : Row) : Bool :=
  r.exchangeTimeMs < 2 ^ 63 &&
    match r.quote with
    | .premium _ _ _ _ _ (some ms) => ms < 2 ^ 63
    | _ => true

/-- `parse_book_ticker_payload` and `parse_premium_index_payload`, both with `_finalize_snapshot`;
`none` is `DataIntegrityError`. -/
def parsePayload (maxRejectedFraction : ℚ) (stream : Stream) (payload : Json) (gridNs recvNs : ℤ) :
    Except CycleError (Option (List Row)) :=
  match payload with
  | .arr items =>
    if items = [] ∨ recvNs < gridNs then .ok none
    else
      match tally R stream gridNs (recvNs / 10 ^ 6) items ⟨[], 0⟩ with
      | .error e => .error e
      | .ok t =>
        if t.rows = [] ∨ maxRejectedFraction < binary64.nearest (t.rejected / items.length) then .ok none
        else if t.rows.all Row.fits then .ok (some (t.rows.map Row.enforceDtypes))
        else .error .intOverflow
  | _ => .ok none

/-! # Hourly partitions -/

def Row.key (r : Row) : String × ℤ := (r.symbol, r.capturedAt)

def Row.hour (r : Row) : ℤ := r.capturedAt / (3600 * 10 ^ 9)

/-- The rows of each hour, the hours in order: `groupby(hours)`. -/
def hourGroups {α : Type} (hour : α → ℤ) (rows : List α) : List (ℤ × List α) :=
  (sortBy id (rows.map hour).dedup).map (fun h => (h, rows.filter (fun r => hour r = h)))

/-- `_earliest_receipt_merge` and what `write_hourly_partition` does to its result. -/
def mergePartition (existing chunk : List Row) : List Row :=
  let combined := (existing ++ chunk.map Row.enforceDtypes).map Row.enforceDtypes
  let kept := keepFirst Row.key (sortBy Row.fetchedAtMs combined)
  (sortBy (fun r : Row => toLex (r.symbol, r.capturedAt)) kept).map Row.enforceDtypes

/-! # What a parsed response and a merged partition hold -/

section Lemmas

variable {R}

@[simp] theorem Quote.narrow_narrow (q : Quote) : q.narrow.narrow = q.narrow := by
  cases q <;> simp [Quote.narrow]

@[simp] theorem Row.enforceDtypes_enforceDtypes (r : Row) : r.enforceDtypes.enforceDtypes = r.enforceDtypes := by
  simp [Row.enforceDtypes]

structure Response (gridNs recvNs : ℤ) (rows : List Row) : Prop where
  nonempty : rows ≠ []
  grid : ∀ r ∈ rows, r.capturedAt = gridNs
  receipt : ∀ r ∈ rows, r.fetchedAtMs = ((recvNs / 10 ^ 6 : ℤ) : WithTop ℤ)
  symbols : (rows.map Row.symbol).Nodup
  dtypes : ∀ r ∈ rows, r.enforceDtypes = r

variable {stream : Stream} {gridNs recvNs : ℤ} {rows : List Row}

theorem not_mem_of_rowOf {accepted : List String} {item : Json} {symbol : String} {x : ℤ × Quote}
    (h : rowOf R stream accepted item = .ok (symbol, x)) : symbol ∉ accepted := by
  unfold rowOf at h
  split at h
  · split at h
    · cases h
    · split at h
      · cases h
      · split at h
        · cases h
        · next hfresh =>
          cases h; exact hfresh
  · cases h

theorem tally_response :
    ∀ {items : List Json} {t t' : Tally}, tally R stream gridNs (recvNs / 10 ^ 6) items t = .ok t' →
      (∀ r ∈ t.rows, r.capturedAt = gridNs ∧ r.fetchedAtMs = ((recvNs / 10 ^ 6 : ℤ) : WithTop ℤ)) →
      (t.rows.map Row.symbol).Nodup →
      (∀ r ∈ t'.rows, r.capturedAt = gridNs ∧ r.fetchedAtMs = ((recvNs / 10 ^ 6 : ℤ) : WithTop ℤ)) ∧
        (t'.rows.map Row.symbol).Nodup
  | [], t, t', h, hrows, hnodup => by
    cases h; exact ⟨hrows, hnodup⟩
  | item :: rest, t, t', h, hrows, hnodup => by
    rw [tally] at h
    split at h
    · cases h
    · exact tally_response h hrows hnodup
    · next symbol exchangeMs quote hrow =>
      apply tally_response h
      · intro r hr
        rcases mem_append.mp hr with hr | hr
        · exact hrows r hr
        · rw [mem_singleton.mp hr]; exact ⟨rfl, rfl⟩
      · rw [map_append, nodup_append]
        refine ⟨hnodup, nodup_singleton _, ?_⟩
        intro a ha b hb hab
        rw [map_singleton, mem_singleton] at hb
        rw [hab, hb] at ha; exact not_mem_of_rowOf hrow ha

/-- **A parsed response** has one grid, one receipt and one row per symbol, in the types of the
partition. -/
theorem parsePayload_response {fraction : ℚ} {payload : Json}
    (h : parsePayload R fraction stream payload gridNs recvNs = .ok (some rows)) : Response gridNs recvNs rows := by
  unfold parsePayload at h
  split at h
  · split at h
    · cases h
    · split at h
      · cases h
      · next t ht =>
        split at h
        · cases h
        · next hkept =>
          split at h
          · cases h
            obtain ⟨hrows, hnodup⟩ := tally_response ht (fun r hr => nomatch hr) nodup_nil
            refine ⟨?_, ?_, ?_, ?_, ?_⟩
            · rw [ne_eq, map_eq_nil_iff]; exact fun hnil => hkept (Or.inl hnil)
            · intro r hr
              obtain ⟨r', hr', rfl⟩ := mem_map.mp hr; exact (hrows r' hr').1
            · intro r hr
              obtain ⟨r', hr', rfl⟩ := mem_map.mp hr; exact (hrows r' hr').2
            · rw [map_map]; exact hnodup
            · intro r hr
              obtain ⟨r', -, rfl⟩ := mem_map.mp hr; exact r'.enforceDtypes_enforceDtypes
          · cases h
  · cases h

theorem Response.eq_of_symbol (h : Response gridNs recvNs rows) {r r' : Row}
    (hr : r ∈ rows) (hr' : r' ∈ rows) (hsymbol : r.symbol = r'.symbol) : r = r' :=
  inj_on_of_nodup_map h.symbols hr hr' hsymbol

theorem map_enforceDtypes (h : ∀ r ∈ rows, r.enforceDtypes = r) : rows.map Row.enforceDtypes = rows :=
  (map_congr_left h).trans (map_id rows)

theorem mem_hourGroups {α : Type} {hour : α → ℤ} {rows : List α} {g : ℤ × List α} :
    g ∈ hourGroups hour rows ↔ (∃ r ∈ rows, hour r = g.1) ∧ g.2 = rows.filter (fun r => hour r = g.1) := by
  obtain ⟨h, chunk⟩ := g
  simp only [hourGroups, mem_map, mem_sortBy, mem_dedup, Prod.mk.injEq]
  constructor
  · rintro ⟨h', ⟨r, hr, rfl⟩, rfl, rfl⟩; exact ⟨⟨r, hr, rfl⟩, rfl⟩
  · rintro ⟨⟨r, hr, hh⟩, hchunk⟩; exact ⟨h, ⟨r, hr, hh⟩, rfl, hchunk.symm⟩

theorem mem_mergePartition {existing chunk : List Row} (hexisting : ∀ r ∈ existing, r.enforceDtypes = r)
    (hchunk : ∀ r ∈ chunk, r.enforceDtypes = r) {r : Row} :
    r ∈ mergePartition existing chunk ↔ r ∈ mergeEarliest Row.key Row.fetchedAtMs existing chunk := by
  have hcombined : (existing ++ chunk.map Row.enforceDtypes).map Row.enforceDtypes = existing ++ chunk := by
    rw [map_enforceDtypes hchunk]
    apply map_enforceDtypes
    intro r hr
    rcases mem_append.mp hr with hr | hr
    · exact hexisting r hr
    · exact hchunk r hr
  have hsorted : ∀ r ∈ sortBy (fun r : Row => toLex (r.symbol, r.capturedAt))
      (mergeEarliest Row.key Row.fetchedAtMs existing chunk), r.enforceDtypes = r := by
    intro r hr
    rcases mem_of_mem_mergeEarliest (mem_sortBy.mp hr) with hr | hr
    · exact hexisting r hr
    · exact hchunk r hr
  show r ∈ List.map _ (sortBy _ (keepFirst Row.key (sortBy Row.fetchedAtMs _))) ↔ _
  rw [hcombined]
  change r ∈ List.map _ (sortBy _ (mergeEarliest Row.key Row.fetchedAtMs existing chunk)) ↔ _
  rw [map_enforceDtypes hsorted, mem_sortBy]

end Lemmas

end CryptoPilot.Streams
