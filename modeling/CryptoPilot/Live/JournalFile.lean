/- # JournalFile — the bytes of the order journal.

One JSON object a line.  `_ensure_loaded` folds the lines into a `Journal`; a last line that is no
JSON and has no newline is a torn tail, remembered by its offset and cut off before the next append.
It can raise with nothing done, or behind any part of the line: an error while writing leaves a
front of it, an error of `fsync` the whole. -/
import CryptoPilot.Lib.JsonLex
import CryptoPilot.Lib.TextLines
import CryptoPilot.Live.OrderJournal

namespace CryptoPilot.Live

open CryptoPilot.Lib
open CryptoPilot.Lib.JsonText (dumps loads Numeral)

/-! ## Lines -/

/-- What Python and pandas make of numbers, instants and texts: `str(Decimal)` and `_parse_decimal`,
`_iso` and `_parse_ts`, the text of a float, and `int`, `str`, `float` and `bool` of a decoded
value. -/
structure JournalTexts where
  decimalText : ℚ → String
  parseDecimal : Json → Option ℚ
  parseDecimal_text : ∀ q, parseDecimal (.str (decimalText q)) = some q
  iso : ℚ → String
  parseTs : Json → Option ℚ
  parseTs_iso : ∀ t, parseTs (.str (iso t)) = some t
  floatText : FloatVal → List Char
  readFloat : List Char → FloatVal
  numeral_floatText : ∀ q, Numeral (floatText (.fin q))
  readFloat_floatText : ∀ q, readFloat (floatText (.fin q)) = .fin q
  int : Json → Option ℤ
  int_int : ∀ n, int (.int n) = some n
  str : Json → String
  str_str : ∀ s, str (.str s) = s
  float : Json → Option ℚ
  float_float : ∀ q, float (.float (.fin q)) = some q
  bool : Json → Bool
  bool_bool : ∀ b, bool (.bool b) = b

/-- `str(kind)`. -/
def FillKind.text : FillKind → String
  | .execution => "execution"
  | .orphanSettlement => "orphan_settlement"
  | .recovered => "recovered"
  | .venueForceClose => "venue_force_close"
  | .operatorResync => "operator_resync"

/-- A kind of `_FILL_KINDS`. -/
def readKind (text : String) : Option FillKind :=
  [FillKind.execution, .orphanSettlement, .recovered, .venueForceClose, .operatorResync].find? fun k =>
    decide (k.text = text)

section File

variable (P : JournalTexts)

def nullable {α : Type} (text : α → Json) : Option α → Json
  | none => .null
  | some a => text a

def Record.payload : Record → Json
  | .schema => .obj [("event", .str "schema"), ("version", .int 2)]
  | .submit s =>
    .obj [("attempt_seq", nullable .int s.attemptSeq), ("client_order_id", .str s.clientOrderId),
      ("event", .str "submit"), ("leg_index", nullable .int s.legIndex),
      ("quantity", nullable (fun q => .str (P.decimalText q)) s.quantity),
      ("recorded_at", nullable (fun t => .str (P.iso t)) s.recordedAt),
      ("reduce_only", nullable .bool s.reduceOnly), ("side", nullable .str s.side),
      ("submit_seq", .int s.submitSeq), ("symbol", .str s.symbol)]
  | .observed orderId qty =>
    .obj [("client_order_id", .str orderId), ("event", .str "observed"),
      ("executed_qty", .str (P.decimalText qty))]
  | .attempt a =>
    .obj [("attempt_seq", .int a.attemptSeq),
      ("decision_marks", .obj (a.decisionMarks.map fun m => (m.1, .str (P.decimalText m.2)))),
      ("decision_time", .str (P.iso a.decisionTime)), ("event", .str "attempt"), ("mode", .str a.mode),
      ("pre_trade_equity", .str (P.decimalText a.preTradeEquity)), ("run_id", .str a.runId),
      ("sizing_anchor", .str a.sizingAnchor), ("started_at", .str (P.iso a.startedAt))]
  | .fill f =>
    .obj [("attempt_seq", nullable .int f.attemptSeq), ("client_order_id", nullable .str f.clientOrderId),
      ("cumulative_executed_qty", nullable (fun q => .str (P.decimalText q)) f.cumulativeExecutedQty),
      ("event", .str "fill"), ("fee_bps", .float (.fin f.feeBps)), ("fill_seq", .int f.fillSeq),
      ("filled_at", .str (P.iso f.filledAt)), ("kind", .str f.kind.text), ("leg_index", .int f.legIndex),
      ("liquidity", .str f.liquidity), ("price", .str (P.decimalText f.price)),
      ("quantity", .str (P.decimalText f.quantity)), ("reason", .str f.reason), ("side", .str f.side),
      ("simulated", .bool f.simulated), ("symbol", .str f.symbol)]
  | .terminal t =>
    .obj [("client_order_id", .str t.clientOrderId), ("event", .str "terminal"),
      ("recorded_at", .str (P.iso t.recordedAt)), ("status", .str t.status)]

/-- `json.dumps(record, sort_keys=True)`. -/
def Record.json (r : Record) : List Char := dumps P.floatText (r.payload P)

def Record.line (r : Record) : List Char := r.json P ++ [newline]

/-! ## Loading -/

def present : Option Json → Option Json
  | some .null => none
  | value => value

/-- `record.get(key)`. -/
def getValue (fields : Lib.Record) (key : String) : Option Json := present (Lib.Record.get fields key)

def optional {α : Type} (read : Json → Option α) : Option Json → Option (Option α)
  | none => some none
  | some v => (read v).map some

/-- `record.get("recorded_at", record.get("ts"))`. -/
def recordedRaw (fields : Lib.Record) : Option Json :=
  present ((Lib.Record.get fields "recorded_at").or (Lib.Record.get fields "ts"))

/-- A `submit` line. -/
def readSubmit (fields : Lib.Record) : Option JournalSubmit := do
  let submitSeq ← (← Lib.Record.get fields "submit_seq") |> P.int
  let quantity ← optional P.parseDecimal (getValue fields "quantity")
  let recordedAt ← optional P.parseTs (recordedRaw fields)
  let clientOrderId ← Lib.Record.get fields "client_order_id"
  let symbol ← Lib.Record.get fields "symbol"
  let attemptSeq ← optional P.int (getValue fields "attempt_seq")
  let legIndex ← optional P.int (getValue fields "leg_index")
  some
    { clientOrderId := P.str clientOrderId, symbol := P.str symbol, submitSeq := submitSeq, attemptSeq := attemptSeq
      side := (getValue fields "side").map P.str, quantity := quantity
      reduceOnly := (getValue fields "reduce_only").map P.bool, legIndex := legIndex, recordedAt := recordedAt }

/-- `{str(sym): _parse_decimal(val) for sym, val in marks_raw.items()}`; missing marks are none. -/
def readMarks : Option Json → Option (List (String × ℚ))
  | none => some []
  | some (.obj marks) => marks.mapM fun m => (P.parseDecimal m.2).map fun q => (m.1, q)
  | some _ => none

/-- An `attempt` line. -/
def readAttempt (fields : Lib.Record) : Option JournalAttempt := do
  let attemptSeq ← (← Lib.Record.get fields "attempt_seq") |> P.int
  let marks ← readMarks P (Lib.Record.get fields "decision_marks")
  let decisionTime ← (← Lib.Record.get fields "decision_time") |> P.parseTs
  let runId ← Lib.Record.get fields "run_id"
  let mode ← Lib.Record.get fields "mode"
  let preTradeEquity ← (← Lib.Record.get fields "pre_trade_equity") |> P.parseDecimal
  let sizingAnchor ← Lib.Record.get fields "sizing_anchor"
  let startedAt ← (← Lib.Record.get fields "started_at") |> P.parseTs
  some
    { decisionTime := decisionTime, runId := P.str runId, mode := P.str mode, preTradeEquity := preTradeEquity
      sizingAnchor := P.str sizingAnchor, decisionMarks := marks, startedAt := startedAt, attemptSeq := attemptSeq }

/-- A `fill` line. -/
def readFill (fields : Lib.Record) : Option JournalFill := do
  let fillSeq ← (← Lib.Record.get fields "fill_seq") |> P.int
  let cumulative ← optional P.parseDecimal (getValue fields "cumulative_executed_qty")
  let kind ← readKind (P.str (← Lib.Record.get fields "kind"))
  let attemptSeq ← optional P.int (getValue fields "attempt_seq")
  let symbol ← Lib.Record.get fields "symbol"
  let side ← Lib.Record.get fields "side"
  let quantity ← (← Lib.Record.get fields "quantity") |> P.parseDecimal
  let price ← (← Lib.Record.get fields "price") |> P.parseDecimal
  let feeBps ← (← Lib.Record.get fields "fee_bps") |> P.float
  let liquidity ← Lib.Record.get fields "liquidity"
  let reason ← Lib.Record.get fields "reason"
  let filledAt ← (← Lib.Record.get fields "filled_at") |> P.parseTs
  let legIndex ← (← Lib.Record.get fields "leg_index") |> P.int
  let simulated ← Lib.Record.get fields "simulated"
  some
    { kind := kind, attemptSeq := attemptSeq, symbol := P.str symbol, side := P.str side, quantity := quantity
      price := price, feeBps := feeBps, liquidity := P.str liquidity, reason := P.str reason, filledAt := filledAt
      clientOrderId := (getValue fields "client_order_id").map P.str, legIndex := legIndex
      cumulativeExecutedQty := cumulative, simulated := P.bool simulated, fillSeq := fillSeq }

/-- `_apply_record` up to its update: the record of a line. -/
def readRecord (now : ℚ) : Json → Option Record
  | .obj fields =>
    match Lib.Record.get fields "event" with
    | some (.str "schema") => some .schema
    | some (.str "submit") => (readSubmit P fields).map .submit
    | some (.str "observed") => do
      let orderId ← Lib.Record.get fields "client_order_id"
      let qty ← (← Lib.Record.get fields "executed_qty") |> P.parseDecimal
      some (.observed (P.str orderId) qty)
    | some (.str "attempt") => (readAttempt P fields).map .attempt
    | some (.str "fill") => (readFill P fields).map .fill
    | some (.str "terminal") => do
      let orderId ← Lib.Record.get fields "client_order_id"
      let recordedAt ← optional P.parseTs (recordedRaw fields)
      let status ← Lib.Record.get fields "status"
      some (.terminal
        { clientOrderId := P.str orderId, status := P.str status, recordedAt := recordedAt.getD now })
    | _ => none
  | _ => none

/-- The lines of the file, `size` being its length: the records, and the offset of a torn tail. -/
def readLines (now : ℚ) (size : ℕ) (ends : Bool) : List (List Char) → Except Exc (List Record × Option ℕ)
  | [] => .ok ([], none)
  | line :: rest =>
    if line.all isSpace then readLines now size ends rest
    else
      match loads P.readFloat line with
      | none => if rest = [] ∧ ¬ ends then .ok ([], some (size - line.length)) else .error .dataIntegrityError
      | some v =>
        match readRecord P now v with
        | none => .error .dataIntegrityError
        | some r => (readLines now size ends rest).map fun read => (r :: read.1, read.2)

/-- `_ensure_loaded`: the records of the file, and the offset of its torn tail. -/
def readJournal (now : ℚ) (text : List Char) : Except Exc (List Record × Option ℕ) :=
  let raw := universalNewlines text
  readLines P now raw.length (raw.getLast? == some newline) (splitLines [] raw)

/-! ## Appending -/

structure JournalFile where
  text : List Char
  journal : Journal
  tornOffset : Option ℕ

def openJournal (now : ℚ) (text : List Char) : Except Exc JournalFile :=
  (readJournal P now text).map fun read => ⟨text, Journal.load read.1, read.2⟩

/-- How an append ends: it returns, raises before it writes, or raises behind the first `persisted`
bytes of its line, all of them when `fsync` fails. -/
inductive AppendOutcome where
  | returned
  | raisedEarly
  | raised (persisted : ℕ)
  deriving DecidableEq, Repr

def JournalFile.repaired (s : JournalFile) : List Char :=
  match s.tornOffset with
  | some offset => s.text.take offset
  | none => s.text

/-- `_append`: the file, not yet what memory makes of the record. -/
def JournalFile.append (s : JournalFile) (r : Record) : AppendOutcome → JournalFile × Except Exc Unit
  | .returned => ({ s with text := s.repaired ++ r.line P, tornOffset := none }, .ok ())
  | .raisedEarly => (s, .error .other)
  | .raised persisted =>
    ({ s with text := s.repaired ++ (r.line P).take persisted, tornOffset := none }, .error .other)

def JournalFile.record (s : JournalFile) (r : Record) (o : AppendOutcome) : JournalFile × Except Exc Unit :=
  match s.append P r o with
  | (s, .ok _) => ({ s with journal := s.journal.apply r }, .ok ())
  | (s, .error e) => (s, .error e)

/-- The recording operations, with the instants they read. -/
inductive JournalCall where
  | beginAttempt (context : AttemptContext) (distinct : (context.decisionMarks.map Prod.fst).Nodup)
  | recordSubmit (clientOrderId symbol : String) (submitSeq attemptSeq : ℤ) (side : String) (quantity : ℚ)
      (reduceOnly : Bool) (legIndex : ℤ) (now : ℚ)
  | recordFill (draft : FillDraft)
  | recordTerminal (clientOrderId status : String) (now : ℚ)

def JournalCall.newRecord (j : Journal) : JournalCall → Except Exc Record
  | .beginAttempt context _ => .ok (.attempt (j.newAttempt context))
  | .recordSubmit clientOrderId symbol submitSeq attemptSeq side quantity reduceOnly legIndex now =>
    (j.newSubmit clientOrderId symbol submitSeq attemptSeq side quantity reduceOnly legIndex).map fun submit =>
      .submit (submit now)
  | .recordFill draft => (j.newFill draft).map .fill
  | .recordTerminal clientOrderId status now => .ok (.terminal ⟨clientOrderId, status, now⟩)

def JournalFile.ensureV2Schema (s : JournalFile) (o : AppendOutcome) : JournalFile × Except Exc Unit :=
  if s.journal.hasSchema then (s, .ok ()) else s.record P .schema o

/-- A recording operation; `schema` and `own` are the ends of its appends. -/
def JournalFile.call (s : JournalFile) (c : JournalCall) (schema own : AppendOutcome) :
    JournalFile × Except Exc Unit :=
  match c.newRecord s.journal with
  | .error e => (s, .error e)
  | .ok r =>
    match s.ensureV2Schema P schema with
    | (s, .error e) => (s, .error e)
    | (s, .ok _) => s.record P r own

end File

end CryptoPilot.Live
