/- # Liquidations — forced orders and their hourly partitions.

A `forceOrder` frame is an event when every field of its order satisfies the contract
(`src/market_data/streams/liquidations.py`).  Events go to a partition per UTC hour of the event,
where the copy with the earliest receipt of each (symbol, event time, price, quantity, filled
quantity) stays, the quantities compared as `float32`.  A survivor without the text of its order
takes that of the next duplicate. -/
import CryptoPilot.Streams.Snapshots

namespace CryptoPilot.Streams

open CryptoPilot.Lib CryptoPilot.Capture

inductive Side where
  | buy
  | sell
  deriving DecidableEq, Repr

structure Order where
  symbol : String
  eventTimeMs : ℤ
  side : Side
  orderType : String
  timeInForce : String
  origQty : FloatVal
  price : FloatVal
  avgPrice : FloatVal
  status : String
  lastFilledQty : FloatVal
  filledAccumQty : FloatVal
  rawOrderJson : Option String
  deriving DecidableEq

/-- `LiquidationEvent`, and a row of a partition. -/
structure LiquidationEvent extends Order where
  ingestedAt : ℤ
  deriving DecidableEq

variable (R : Runtime)

/-! # Parsing -/

def parseNum (value : Json) : Option ℚ :=
  match value with
  | .bool _ => none
  | _ =>
    match toFloat R value with
    | .ok (some (.fin q)) => some q
    | _ => none

def plainText : Json → Option String
  | .str s => if s = "" ∨ strip s ≠ s then none else some s
  | _ => none

/-- `S`. -/
def sideOf : String → Option Side
  | "BUY" => some .buy
  | "SELL" => some .sell
  | _ => none

/-- `T`: an integer or a text of ASCII digits. -/
def timeOf : Json → Option ℤ
  | .int n => some n
  | .str s => if s ≠ "" ∧ s.toList.all Char.isDigit then some (Nat.ofDigitChars 10 s.toList 0) else none
  | _ => none

def orderKeys : List String := ["s", "S", "o", "f", "q", "p", "ap", "X", "l", "z", "T"]

/-- The checks of `parse_liquidation` on the order. -/
def parseOrder (o : Record) : Option Order := do
  let value (key : String) : Json := (Record.get o key).getD .null
  guard (orderKeys.all (fun key => value key ≠ .null))
  let symbol ← plainText (value "s")
  let sideText ← plainText (value "S")
  let orderType ← plainText (value "o")
  let timeInForce ← plainText (value "f")
  let status ← plainText (value "X")
  let side ← sideOf sideText
  let q ← parseNum R (value "q")
  let p ← parseNum R (value "p")
  let ap ← parseNum R (value "ap")
  let l ← parseNum R (value "l")
  let z ← parseNum R (value "z")
  guard (0 < q ∧ 0 < p ∧ 0 ≤ ap ∧ 0 ≤ l ∧ 0 ≤ z)
  let t ← timeOf (value "T")
  -- a timestamp holds the nanoseconds in 64 bits
  guard (0 < t ∧ t * 10 ^ 6 < 2 ^ 63)
  return ⟨symbol, t, side, orderType, timeInForce, .fin q, .fin p, .fin ap, status, .fin l, .fin z,
    R.dumpsOrder o⟩

def parseLiquidation (msg : Record) (ingestedAt : ℤ) : Option LiquidationEvent :=
  match Record.get msg "o" with
  | some (.obj o) => (parseOrder R o).map (fun order => ⟨order, ingestedAt⟩)
  | _ => none

def parseWsFrame (text : String) (recvNs : ℤ) : Option LiquidationEvent :=
  match R.loads text with
  | some (.obj msg) => parseLiquidation R msg recvNs
  | _ => none

/-! # Hourly partitions -/

namespace LiquidationEvent

/-- `_apply_compact_dtypes` on a row. -/
def compact (e : LiquidationEvent) : LiquidationEvent :=
  { e with
    origQty := binary32.cast e.origQty
    lastFilledQty := binary32.cast e.lastFilledQty
    filledAccumQty := binary32.cast e.filledAccumQty }

/-- `dedup_subset`. -/
def key (e : LiquidationEvent) : String × ℤ × FloatVal × FloatVal × FloatVal :=
  (e.symbol, e.eventTimeMs, e.price, e.origQty, e.filledAccumQty)

def hour (e : LiquidationEvent) : ℤ := e.eventTimeMs / 3600000

/-- The survivor with the first text of an order among its duplicates, when it has none. -/
def patchRaw (combined : List LiquidationEvent) (e : LiquidationEvent) : LiquidationEvent :=
  match e.rawOrderJson with
  | some _ => e
  | none =>
    { e with
      rawOrderJson :=
        (combined.find? (fun d => d.key = e.key ∧ d.rawOrderJson.isSome)).bind (fun d => d.rawOrderJson) }

end LiquidationEvent

open LiquidationEvent (compact key hour patchRaw)

/-- `_earliest_ingest_merge`. -/
def mergeEvents (existing chunk : List LiquidationEvent) : List LiquidationEvent :=
  let combined := sortBy LiquidationEvent.ingestedAt ((existing ++ chunk.map compact).map compact)
  sortBy (fun e : LiquidationEvent => e.eventTimeMs) ((keepFirst key combined).map (patchRaw combined))

/-! # What a merged partition holds -/

section Lemmas

variable {R}

@[simp] theorem LiquidationEvent.compact_compact (e : LiquidationEvent) : e.compact.compact = e.compact := by
  simp [LiquidationEvent.compact]

/-- A row as it lies on disk: its quantities are `float32` and it has the text of its order. -/
def LiquidationEvent.Stored (e : LiquidationEvent) : Prop := e.compact = e ∧ e.rawOrderJson.isSome

variable {e : LiquidationEvent}

theorem LiquidationEvent.Stored.patchRaw_eq (h : e.Stored) (combined : List LiquidationEvent) :
    patchRaw combined e = e := by
  obtain ⟨text, htext⟩ := Option.isSome_iff_exists.mp h.2; simp [patchRaw, htext]

theorem map_compact {rows : List LiquidationEvent} (h : ∀ e ∈ rows, e.Stored) : rows.map compact = rows :=
  (List.map_congr_left (fun e he => (h e he).1)).trans (List.map_id rows)

theorem mem_mergeEvents {existing chunk : List LiquidationEvent} (hexisting : ∀ e ∈ existing, e.Stored)
    (hchunk : ∀ e ∈ chunk, e.Stored) :
    e ∈ mergeEvents existing chunk ↔ e ∈ mergeEarliest key LiquidationEvent.ingestedAt existing chunk := by
  have hall : ∀ e ∈ existing ++ chunk, e.Stored := by
    intro e he
    rcases List.mem_append.mp he with he | he
    · exact hexisting e he
    · exact hchunk e he
  have hkept : ∀ e ∈ mergeEarliest key LiquidationEvent.ingestedAt existing chunk, e.Stored :=
    fun e he => hall e (mem_sortBy.mp (mem_of_mem_keepFirst he))
  have hpatched : ∀ combined, (mergeEarliest key LiquidationEvent.ingestedAt existing chunk).map
    (patchRaw combined) =
      mergeEarliest key LiquidationEvent.ingestedAt existing chunk := by
    intro combined
    exact (List.map_congr_left (fun e he => (hkept e he).patchRaw_eq combined)).trans (List.map_id _)
  unfold mergeEvents
  rw [map_compact hchunk, map_compact hall, mem_sortBy]
  exact iff_of_eq (congrArg (e ∈ ·) (hpatched _))

theorem parseWsFrame_recv {text : String} {recvNs : ℤ} (h : parseWsFrame R text recvNs = some e)
    (recvNs' : ℤ) : e.ingestedAt = recvNs ∧ parseWsFrame R text recvNs' = some ⟨e.toOrder, recvNs'⟩ := by
  unfold parseWsFrame at h ⊢
  split at h
  · unfold parseLiquidation at h ⊢
    split at h
    · obtain ⟨order, horder, rfl⟩ := Option.map_eq_some_iff.mp h
      refine ⟨rfl, ?_⟩; simp only [horder, Option.map_some]
    · cases h
  · cases h

end Lemmas

end CryptoPilot.Streams
