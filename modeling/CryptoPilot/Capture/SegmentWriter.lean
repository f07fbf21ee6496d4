/- # SegmentWriter — appending members to the hour files.

`flush` groups the buffer by hour file and appends one member per file.  Every append may fail or
end with the process, with any part of the new member in the file (`Fate`).  The `World` is the
writer with its files, and two histories that no operation reads: the members that reached a file
whole (`log`) and the records of the flushes that returned (`acked`). -/
import CryptoPilot.Capture.Journal

namespace CryptoPilot.Capture

open CryptoPilot.Lib (Bytes Json Record)

/-- A buffered dict: its identity (`id(item)`) and its content. -/
structure Item where
  ident : ℕ
  record : Record

/-- `SegmentWriter`, but for the (stream, slot) it is bound to. -/
structure Writer where
  buffer : List Item
  repaired : List SegmentPath

inductive Residue where
  | untouched
  /-- Repaired the tail, and appended this many bytes of the member. -/
  | wrote (n : ℕ)

inductive Fate where
  | completes
  | fails (residue : Residue)
  | dies (residue : Residue)

inductive Outcome where
  | returned (written : ℕ)
  | raised (e : JournalError)
  | died

inductive Ended where
  | completed
  | failed
  | died
  deriving DecidableEq

structure Entry where
  path : SegmentPath
  items : List Item
  bytes : Bytes
  ended : Ended

structure World where
  writer : Writer
  disk : SegmentPath → Option Bytes
  /-- The next object identity. -/
  next : ℕ
  log : List Entry
  acked : List Item

/-! # Grouping the buffer -/

/-- The checks of `flush` on `recv_ns`; a `bool` is an `int`. -/
def recvNsOf (r : Record) : Except JournalError ℕ :=
  match Record.get r "recv_ns" with
  | some (.int n) => if 0 ≤ n then .ok n.toNat else .error .recvNs
  | some (.bool b) => .ok b.toNat
  | some _ => .error .recvNs
  | none => .error .lacksRecvNs

def destination (stream : Stream) (slot : Slot) (r : Record) : Except JournalError SegmentPath := do
  hotSegmentPath stream slot (← recvNsOf r)

/-- `groups.setdefault(dest, []).append(record)`. -/
def setdefaultAppend : List (SegmentPath × List Item) → SegmentPath → Item → List (SegmentPath × List Item)
  | [], dest, item => [(dest, [item])]
  | (path, items) :: rest, dest, item =>
    if path = dest then (path, items ++ [item]) :: rest
    else (path, items) :: setdefaultAppend rest dest item

def groups (stream : Stream) (slot : Slot) (buffer : List Item) :
    Except JournalError (List (SegmentPath × List Item)) :=
  buffer.foldlM (fun acc item => do return setdefaultAppend acc (← destination stream slot item.record) item) []

/-! # Appending one group -/

variable (C : Codec)

def groupText (items : List Item) : String := String.join (items.map (fun i => C.dumps i.record ++ "\n"))

/-- `gzip.compress(text.encode("utf-8"))` at a time stamp. -/
def memberBytes (stamp : ℕ) (items : List Item) : Bytes := C.gzip.compress stamp (encodeUtf8 (groupText C items))

/-- The file an append finds: repaired unless the destination is marked. -/
def openFile (w : World) (dest : SegmentPath) : Except JournalError Bytes :=
  match w.disk dest with
  | none => .ok []
  | some file =>
    if dest ∈ w.writer.repaired then .ok file
    else (repairTornTail C.gzip.toInflater file).map Prod.fst

def World.put (w : World) (dest : SegmentPath) (file : Bytes) : World :=
  { w with disk := Function.update w.disk dest (some file) }

def World.note (w : World) (entry : Entry) : World := { w with log := w.log ++ [entry] }

/-- `self._repaired.discard(dest)`. -/
def World.unmark (w : World) (dest : SegmentPath) : World :=
  { w with writer := { w.writer with repaired := w.writer.repaired.filter (· ≠ dest) } }

/-- After the append: the destination is marked and its records leave the buffer, by identity. -/
def World.settle (w : World) (dest : SegmentPath) (items : List Item) : World :=
  { w with
    writer :=
      { buffer := w.writer.buffer.filter (fun i => i.ident ∉ items.map Item.ident)
        repaired := dest :: w.writer.repaired } }

/-- A new `SegmentWriter`. -/
def World.reborn (w : World) : World := { w with writer := ⟨[], []⟩ }

def World.residue (w : World) (dest : SegmentPath) (items : List Item) (file member : Bytes) (ended : Ended) :
    Residue → World
  | .untouched => w
  | .wrote n =>
    let w' := w.put dest (file ++ member.take n)
    if member.length ≤ n then w'.note ⟨dest, items, member, ended⟩ else w'

/-- The loop of `flush` over the groups. -/
def flushGroups (stamp : ℕ) (fates : SegmentPath → Fate) :
    List (SegmentPath × List Item) → ℕ → World → Outcome × World
  | [], written, w => (.returned written, w)
  | (dest, items) :: rest, written, w =>
    let member := memberBytes C stamp items
    match fates dest, openFile C w dest with
    | .fails .untouched, _ => (.raised .osError, w.unmark dest)
    | .dies .untouched, _ => (.died, w.reborn)
    | _, .error e => (.raised e, w.unmark dest)
    | .completes, .ok file =>
      let w' := (w.put dest (file ++ member)).note ⟨dest, items, member, .completed⟩
      flushGroups stamp fates rest (written + items.length) (w'.settle dest items)
    | .fails residue, .ok file => (.raised .osError, (w.residue dest items file member .failed residue).unmark dest)
    | .dies residue, .ok file => (.died, (w.residue dest items file member .died residue).reborn)

variable (stream : Stream) (slot : Slot)

def World.flush (w : World) (stamp : ℕ) (fates : SegmentPath → Fate) : Outcome × World :=
  if w.writer.buffer = [] then (.returned 0, w)
  else
    match groups stream slot w.writer.buffer with
    | .error e => (.raised e, w)
    | .ok gs =>
      match flushGroups C stamp fates gs 0 w with
      | (.returned n, w') => (.returned n, { w' with acked := w.acked ++ w.writer.buffer })
      | result => result

/-! # Runs -/

/-- A call of the writer, or the death of its process between two calls. -/
inductive Event where
  | add (record : Record)
  | discardOldest (count : ℕ)
  | flush (stamp : ℕ) (fates : SegmentPath → Fate)
  | death

/-- One call; after a death a fresh writer is bound to the same (stream, slot). -/
def World.step (w : World) : Event → World
  | .add record =>
    if (Record.get record "recv_ns").isNone then w
    else
      { w with
        writer := { w.writer with buffer := w.writer.buffer ++ [⟨w.next, record⟩] }
        next := w.next + 1 }
  | .discardOldest count => { w with writer := { w.writer with buffer := w.writer.buffer.drop count } }
  | .flush stamp fates => (w.flush C stream slot stamp fates).2
  | .death => w.reborn

def World.init : World := ⟨⟨[], []⟩, fun _ => none, 0, [], []⟩

def run (events : List Event) : World := events.foldl (World.step C stream slot) World.init

end CryptoPilot.Capture
