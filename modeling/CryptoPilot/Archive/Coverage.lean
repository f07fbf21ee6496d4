/- # Coverage — the coverage log of an archive root.

`_coverage/<dataset>.jsonl` has one JSON object a line.  `append_coverage` writes a line with one
`os.write` and does not look at how much of it was written; `load_coverage` parses every line of the
file and keeps the last row of each symbol and day. -/
import Mathlib.Data.List.AList
import CryptoPilot.Lib.JsonLex
import CryptoPilot.Lib.TextLines

namespace CryptoPilot.Archive

open CryptoPilot.Lib
open CryptoPilot.Lib.JsonText (dumps loads)
open CryptoPilot.Lib.JsonLex (ObjectText Piece)

/-! ## Rows -/

inductive CoverageStatus where
  | ok
  | absent
  | failed
  | defective
  deriving DecidableEq, Repr

def CoverageStatus.text : CoverageStatus → String
  | .ok => "ok"
  | .absent => "absent"
  | .failed => "failed"
  | .defective => "defective"

/-- `CoverageRow`; a day is its number since the epoch, an instant is in nanoseconds and `none` is
NaT. -/
structure CoverageRow where
  dataset : String
  symbol : String
  day : ℤ
  status : CoverageStatus
  rawSha256 : Option String
  rows : ℕ
  recordedAt : Option ℤ
  detail : Option String
  deriving DecidableEq, Repr

def CoverageRow.key (r : CoverageRow) : String × ℤ := (r.symbol, r.day)

/-- The texts of days and instants, and `str` of a decoded value. -/
structure IsoTexts where
  dayText : ℤ → String
  readDay : String → Option ℤ
  readDay_dayText : ∀ d, readDay (dayText d) = some d
  stampText : ℤ → String
  readStamp : Json → Option (Option ℤ)
  readStamp_stampText : ∀ t, readStamp (.str (stampText t)) = some (some t)
  str : Json → String
  str_str : ∀ s, str (.str s) = s
  readFloat : List Char → FloatVal

/-- The exceptions of `load_coverage`, all of them `DataIntegrityError`. -/
inductive CoverageExc where
  | malformedLine (line : List Char)
  | datasetOrTimestamp
  deriving DecidableEq, Repr

section Log

variable (P : IsoTexts)

def optionalText : Option String → Json
  | none => .null
  | some s => .str s

/-- The payload of `_row_to_json`, its keys in order. -/
def rowPayload (r : CoverageRow) (recordedAt : ℤ) : Json :=
  .obj [("dataset", .str r.dataset), ("day", .str (P.dayText r.day)), ("detail", optionalText r.detail),
    ("raw_sha256", optionalText r.rawSha256), ("recorded_at", .str (P.stampText recordedAt)),
    ("rows", .int r.rows), ("status", .str r.status.text), ("symbol", .str r.symbol)]

/-- `_row_to_json`: the payload has no floats. -/
def rowToJson (r : CoverageRow) (recordedAt : ℤ) : List Char := dumps (fun _ => []) (rowPayload P r recordedAt)

/-- An `append_coverage` call, and how many bytes of its line persisted. -/
structure CoverageAppend (dataset : String) where
  row : CoverageRow
  recordedAt : ℤ
  recorded : row.recordedAt = some recordedAt
  ofDataset : row.dataset = dataset
  persisted : ℕ

variable {dataset : String}

def CoverageAppend.line (e : CoverageAppend dataset) : List Char := rowToJson P e.row e.recordedAt ++ [newline]

def CoverageAppend.piece (e : CoverageAppend dataset) : List Char := (e.line P).take e.persisted

def CoverageAppend.Completed (e : CoverageAppend dataset) : Prop := (e.line P).length ≤ e.persisted

instance (e : CoverageAppend dataset) : Decidable (e.Completed P) := inferInstanceAs (Decidable (_ ≤ _))

def coverageLog (appends : List (CoverageAppend dataset)) : List Char := appends.flatMap fun e => e.piece P

/-! ## Loading -/

def requiredKeys : List String :=
  ["dataset", "symbol", "day", "status", "raw_sha256", "rows", "recorded_at", "detail"]

def readStatus (v : Option Json) : Option CoverageStatus :=
  [CoverageStatus.ok, .absent, .failed, .defective].find? fun s => decide (v = some (.str s.text))

def readOptional : Option Json → Option String
  | none => none
  | some .null => none
  | some v => some (P.str v)

def readCoverageFields (fields : List (String × Json)) : Option CoverageRow :=
  let keys := fields.map Prod.fst
  if (requiredKeys.all fun k => decide (k ∈ keys)) && (keys.all fun k => decide (k ∈ requiredKeys)) then do
    let status ← readStatus (Record.get fields "status")
    match Record.get fields "rows", Record.get fields "dataset", Record.get fields "symbol",
      Record.get fields "day", Record.get fields "recorded_at" with
    | some (.int n), some (.str dataset), some (.str symbol), some dayValue, some stampValue =>
      if n < 0 then none
      else do
        let day ← P.readDay (P.str dayValue)
        let recordedAt ← P.readStamp stampValue
        some { dataset := dataset, symbol := symbol, day := day, status := status
               rawSha256 := readOptional P (Record.get fields "raw_sha256"), rows := n.toNat
               recordedAt := recordedAt, detail := readOptional P (Record.get fields "detail") }
    | _, _, _, _, _ => none
  else none

def parseCoverageLine (line : List Char) : Except CoverageExc CoverageRow :=
  match loads P.readFloat line with
  | some (.obj fields) =>
    match readCoverageFields P fields with
    | some row => .ok row
    | none => .error (.malformedLine line)
  | _ => .error (.malformedLine line)

abbrev CoverageMap : Type := AList fun _ : String × ℤ => CoverageRow

/-- One line of `load_coverage`. -/
def loadLine (dataset : String) (result : CoverageMap) (line : List Char) : Except CoverageExc CoverageMap := do
  let row ← parseCoverageLine P line
  if row.dataset ≠ dataset ∨ row.recordedAt = none then .error .datasetOrTimestamp
  else .ok (result.insert row.key row)

/-- `load_coverage` of the content of the log; a missing log is an empty one. -/
def loadCoverage (dataset : String) (text : List Char) : Except CoverageExc CoverageMap :=
  (splitLines [] (universalNewlines text)).foldlM (loadLine P dataset) ∅

end Log

end CryptoPilot.Archive
