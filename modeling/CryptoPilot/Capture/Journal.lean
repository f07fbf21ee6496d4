/- # Journal — reading the capture journal.

The journal of one (stream, slot) is a file per UTC hour, each a sequence of gzip members of JSON
lines (`src/capture/journal.py`).  It tells a torn last member from a corrupt one by whether the
decoder stopped at its error before the last byte of the file, and the same answer decides where
`repair_torn_tail` cuts the file. -/
import CryptoPilot.Lib.Framing
import CryptoPilot.Lib.Json

namespace CryptoPilot.Capture

open CryptoPilot.Lib (Bytes Verdict Inflater Gzip Json Record FloatVal binary64 roundHalfEven)

/-- `STREAMS`. -/
inductive Stream where
  | bookTicker
  | premiumIndex
  | forceOrder
  deriving DecidableEq, Repr

/-- `SLOTS`. -/
inductive Slot where
  | blue
  | green
  deriving DecidableEq, Repr

def Stream.name : Stream → String
  | .bookTicker => "book_ticker"
  | .premiumIndex => "premium_index"
  | .forceOrder => "force_order"

def Slot.name : Slot → String
  | .blue => "blue"
  | .green => "green"

/-- What the journal's functions raise; all but `osError` are a `ValueError` or `OverflowError`. -/
inductive JournalError where
  | lacksRecvNs
  | recvNs
  | yearOutOfRange
  | notBoundary (offset : ℕ)
  | corruptMember (offset : ℕ)
  | beyondSize (offset : ℕ)
  | notUtf8 (offset : ℕ)
  | notJson (offset : ℕ)
  | notObject (offset : ℕ)
  | lacks (offset : ℕ) (key : String)
  | version (offset : ℕ)
  | osError
  deriving DecidableEq, Repr

/-! # Paths -/

/-- An hour file; `hour` counts UTC hours from the epoch: the day directory is `hour / 24`, the file
`hour % 24`. -/
structure SegmentPath where
  stream : Stream
  slot : Slot
  hour : ℕ
  deriving DecidableEq, Repr

/-- The second of `datetime.fromtimestamp(recv_ns / 1_000_000_000, tz=UTC)`: the quotient is a
float, and its fraction is rounded to microseconds. -/
def utcSecond (recvNs : ℕ) : ℤ :=
  let moment := binary64.nearest (recvNs / 10 ^ 9)
  let micros := roundHalfEven (binary64.nearest ((moment - ⌊moment⌋) * 10 ^ 6))
  if 10 ^ 6 ≤ micros then ⌊moment⌋ + 1 else ⌊moment⌋

/-- The first second of the year 10000, which `datetime` does not hold. -/
def maxSecond : ℤ := 253402300800

def hotSegmentPath (stream : Stream) (slot : Slot) (recvNs : ℕ) : Except JournalError SegmentPath :=
  if maxSecond ≤ utcSecond recvNs then .error .yearOutOfRange
  else .ok ⟨stream, slot, (utcSecond recvNs / 3600).toNat⟩

/-! # Members -/

def readChunk : ℕ := 65536

def gzipMagic : Bytes := [0x1f, 0x8b]

/-- The loop of `_read_member_at`: the bytes fed so far and those that follow. -/
def readChunks (Z : Inflater) (start fileSize : ℕ) : ℕ → Bytes → Bytes → Except JournalError (Option (Bytes × ℕ))
  | 0, _, _ => .ok none
  | fuel + 1, fed, rest =>
    if rest = [] then .ok none
    else
      let fed' := fed ++ rest.take readChunk
      match Z.verdict fed' with
      -- `zlib.error` leaves what the decoder had not read of the chunk in `unconsumed_tail`
      | .bad =>
        if start + fed'.length - Z.unread fed' < fileSize then .error (.corruptMember start) else .ok none
      | .done payload used => .ok (some (payload, start + used))
      | .more => readChunks Z start fileSize fuel fed' (rest.drop readChunk)

/-- `_read_member_at`: the payload and the end of the member at `start`, none when it is torn. -/
def readMemberAt (Z : Inflater) (file : Bytes) (start fileSize : ℕ) : Except JournalError (Option (Bytes × ℕ)) :=
  if (file.drop start).length < 2 then .ok none
  else if (file.drop start).take 2 ≠ gzipMagic then .error (.notBoundary start)
  else readChunks Z start fileSize ((file.drop start).length + 1) [] (file.drop start)

/-! # Records -/

/-- The gzip library and `json`. -/
structure Codec where
  gzip : Gzip
  dumps : Record → String
  loads : String → Option Json

def requiredKeys : List String := ["v", "stream", "slot", "kind", "recv_ns"]

/-- `value == RECORD_VERSION`, which a `True` and a `1.0` satisfy too. -/
def isRecordVersion : Json → Bool
  | .int n => n = 1
  | .bool b => b
  | .float x => x = .fin 1
  | _ => false

def checkRecord (offset : ℕ) : Json → Except JournalError Record
  | .obj r =>
    match requiredKeys.find? (fun key => (Record.get r key).isNone) with
    | some key => .error (.lacks offset key)
    | none => if (Record.get r "v").any isRecordVersion then .ok r else .error (.version offset)
  | _ => .error (.notObject offset)

/-- `text.split("\n")`. -/
def splitLines (text : String) : List String := (text.toList.splitOn '\n').map String.ofList

/-- `payload.decode("utf-8")`. -/
def decodeUtf8 (payload : Bytes) : Option String := String.fromUTF8? ⟨payload.toArray⟩

/-- `text.encode("utf-8")`. -/
def encodeUtf8 (text : String) : Bytes := text.toUTF8.data.toList

variable (C : Codec)

def lineRecord (offset : ℕ) (line : String) : Except JournalError Record :=
  match C.loads line with
  | none => .error (.notJson offset)
  | some value => checkRecord offset value

def memberRecords (offset : ℕ) (payload : Bytes) : Except JournalError (List Record) :=
  match decodeUtf8 payload with
  | none => .error (.notUtf8 offset)
  | some text => ((splitLines text).filter (· ≠ "")).mapM (lineRecord C offset)

structure Yields (α : Type) where
  items : List α
  raised : Option JournalError
  deriving DecidableEq

def Yields.after {α : Type} (before : List α) (y : Yields α) : Yields α := ⟨before ++ y.items, y.raised⟩

/-- The loop of `iter_complete_records` from an offset. -/
def iterFrom (file : Bytes) : ℕ → ℕ → Yields (Record × ℕ)
  | 0, _ => ⟨[], none⟩
  | fuel + 1, offset =>
    if offset < file.length then
      match readMemberAt C.gzip.toInflater file offset file.length with
      | .error e => ⟨[], some e⟩
      | .ok none => ⟨[], none⟩
      | .ok (some (payload, stop)) =>
        match memberRecords C offset payload with
        | .error e => ⟨[], some e⟩
        | .ok records => (iterFrom file fuel stop).after (records.map (fun r => (r, stop)))
    else ⟨[], none⟩

/-- `iter_complete_records`; `none` is a path that cannot be read. -/
def iterCompleteRecords (file : Option Bytes) (start : ℕ) : Yields (Record × ℕ) :=
  match file with
  | none => ⟨[], none⟩
  | some file =>
    if file.length < start then ⟨[], some (.beyondSize start)⟩
    else iterFrom C file (file.length - start + 1) start

/-- The loop of `last_complete_offset`. -/
def lastCompleteFrom (Z : Inflater) (file : Bytes) : ℕ → ℕ → Except JournalError ℕ
  | 0, offset => .ok offset
  | fuel + 1, offset =>
    if offset < file.length then
      match readMemberAt Z file offset file.length with
      | .error e => .error e
      | .ok none => .ok offset
      | .ok (some (_, stop)) => lastCompleteFrom Z file fuel stop
    else .ok offset

def lastCompleteOffset (Z : Inflater) (file : Option Bytes) : Except JournalError ℕ :=
  match file with
  | none => .ok 0
  | some file => lastCompleteFrom Z file (file.length + 1) 0

/-- `repair_torn_tail`: the file it leaves and the bytes removed. -/
def repairTornTail (Z : Inflater) (file : Bytes) : Except JournalError (Bytes × ℕ) := do
  let complete ← lastCompleteOffset Z (some file)
  if file.length ≤ complete then return (file, 0)
  return (file.take complete, file.length - complete)

end CryptoPilot.Capture
