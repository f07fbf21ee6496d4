/- # Framing — self-delimiting frames and incremental decoders.

An incremental decoder is seen through the bytes it was fed so far: it asks for more, it has
reported an error, or it has finished a frame and says how many of the bytes were the frame.  Two
laws make frames self-delimiting: what was finished stays finished, and what was refused stays
refused, whatever follows.  When it has reported an error, the decoder also says how many of the
bytes it left unread. -/
import Mathlib.Algebra.Group.Nat.Defs
import Mathlib.Data.List.Infix
import Mathlib.Tactic.Cases

namespace CryptoPilot.Lib

open List

abbrev Bytes : Type := List UInt8

inductive Verdict where
  | more
  | bad
  | done (payload : Bytes) (used : ℕ)
  deriving DecidableEq, Repr

structure Inflater where
  verdict : Bytes → Verdict
  /-- How many of the bytes it was fed were left unread when it reported an error. -/
  unread : Bytes → ℕ
  done_pos {xs p : Bytes} {n : ℕ} : verdict xs = .done p n → 0 < n
  done_le {xs p : Bytes} {n : ℕ} : verdict xs = .done p n → n ≤ xs.length
  done_append {xs p : Bytes} {n : ℕ} (ys : Bytes) : verdict xs = .done p n → verdict (xs ++ ys) = .done p n
  bad_append {xs : Bytes} (ys : Bytes) : verdict xs = .bad → verdict (xs ++ ys) = .bad

namespace Inflater

variable (Z : Inflater) {m xs ys p : Bytes}

def Frame (m p : Bytes) : Prop := Z.verdict m = .done p m.length

/-- An error is reported without reading on: what follows the bytes that show it is left unread. -/
def StopsAtError : Prop :=
  ∀ (xs ys : Bytes), Z.verdict xs = .bad → ys.length ≤ Z.unread (xs ++ ys)

variable {Z}

theorem Frame.pos (h : Z.Frame m p) : 0 < m.length := Z.done_pos h

theorem Frame.append (h : Z.Frame m p) (ys : Bytes) : Z.verdict (m ++ ys) = .done p m.length :=
  Z.done_append ys h

theorem not_bad_of_done {n : ℕ} (h : Z.verdict (xs ++ ys) = .done p n) : Z.verdict xs ≠ .bad := by
  intro hbad
  rw [Z.bad_append ys hbad] at h; cases h

theorem verdict_eq_more {n : ℕ} (h : Z.verdict (xs ++ ys) = .done p n) (hlt : xs.length < n) :
    Z.verdict xs = .more := by
  cases hx : Z.verdict xs with
  | more => rfl
  | bad => exact absurd hx (not_bad_of_done h)
  | done q k =>
    have hk := Z.done_le hx
    rw [Z.done_append ys hx] at h; simp only [Verdict.done.injEq] at h; omega

/-- **No strict prefix of a frame decodes as complete.** -/
theorem Frame.take_more (h : Z.Frame m p) {k : ℕ} (hk : k < m.length) : Z.verdict (m.take k) = .more := by
  have hlen : (m.take k).length < m.length := by
    rw [length_take]; omega
  refine @verdict_eq_more _ _ (m.drop k) p _ ?_ hlen
  rw [take_append_drop]; exact h

theorem more_of_bad (h : Z.verdict (xs ++ ys) = .bad) (hx : Z.verdict xs ≠ .bad) : Z.verdict xs = .more := by
  cases hv : Z.verdict xs with
  | more => rfl
  | bad => exact absurd hv hx
  | done q k =>
    rw [Z.done_append ys hv] at h; cases h

end Inflater

/-- A gzip library: its incremental decoder, and its compressor at a time stamp, whose members are
frames with the magic number. -/
structure Gzip extends Inflater where
  compress : ℕ → Bytes → Bytes
  frame_compress (stamp : ℕ) (p : Bytes) : toInflater.Frame (compress stamp p) p
  magic_compress (stamp : ℕ) (p : Bytes) : (compress stamp p).take 2 = [0x1f, 0x8b]

/-! # Decoders that read byte by byte -/

inductive Move (σ : Type) where
  | next (s : σ)
  | fail
  | finish (payload : Bytes)

structure Machine (σ : Type) where
  init : σ
  step : σ → UInt8 → Move σ

namespace Machine

variable {σ : Type} (M : Machine σ)

/-- Reading bytes from a state, `n` bytes into the frame. -/
def feed : σ → ℕ → Bytes → Verdict
  | _, _, [] => .more
  | s, n, b :: bs =>
    match M.step s b with
    | .next s' => feed s' (n + 1) bs
    | .fail => .bad
    | .finish p => .done p (n + 1)

/-- The bytes behind the one that the machine refused. -/
def unread : σ → Bytes → ℕ
  | _, [] => 0
  | s, b :: bs =>
    match M.step s b with
    | .next s' => unread s' bs
    | .fail => bs.length
    | .finish _ => 0

variable {M} {xs p : Bytes}

theorem feed_done_le {k : ℕ} : ∀ {s : σ} {n : ℕ}, M.feed s n xs = .done p k → n < k ∧ k ≤ n + xs.length := by
  induction xs with
  | nil =>
    intro s n h; cases h
  | cons b bs ih =>
    intro s n h
    rw [feed] at h
    rw [length_cons]
    split at h
    · have := ih h; omega
    · cases h
    · simp only [Verdict.done.injEq] at h; omega

theorem feed_append {ys : Bytes} : ∀ {s : σ} {n : ℕ}, M.feed s n xs ≠ .more →
    M.feed s n (xs ++ ys) = M.feed s n xs := by
  induction xs with
  | nil =>
    intro s n h; exact absurd rfl h
  | cons b bs ih =>
    intro s n h
    rw [cons_append, feed, feed]
    rw [feed] at h
    split
    · next hstep => exact ih (by simpa [hstep] using h)
    · rfl
    · rfl

theorem unread_append {ys : Bytes} : ∀ {s : σ} {n : ℕ}, M.feed s n xs = .bad →
    ys.length ≤ M.unread s (xs ++ ys) := by
  induction xs with
  | nil =>
    intro s n h; cases h
  | cons b bs ih =>
    intro s n h
    rw [feed] at h
    rw [cons_append, unread]
    cases hstep : M.step s b with
    | next s' =>
      rw [hstep] at h; exact ih h
    | fail =>
      show ys.length ≤ (bs ++ ys).length
      rw [length_append]; omega
    | finish p =>
      rw [hstep] at h; cases h

variable (M) in
/-- The decoder that runs the machine over all it was fed. -/
def inflater : Inflater where
  verdict xs := M.feed M.init 0 xs
  unread xs := M.unread M.init xs
  done_pos h := (feed_done_le h).1
  done_le h := by
    have := (feed_done_le h).2; omega
  done_append ys h := by
    rw [feed_append (by simp [h])]; exact h
  bad_append ys h := by
    rw [feed_append (by simp [h])]; exact h

theorem stopsAtError_inflater : M.inflater.StopsAtError := by
  intro xs ys h; exact unread_append (n := 0) h

end Machine

/-! # Gzip members of stored blocks -/

namespace Stored

def crcByte (c : UInt32) (b : UInt8) : UInt32 :=
  (List.range 8).foldl (fun c _ => if c &&& 1 = 1 then (c >>> 1) ^^^ 0xEDB88320 else c >>> 1)
    (c ^^^ b.toUInt32)

def crc32 (p : Bytes) : UInt32 := p.foldl crcByte 0xFFFFFFFF ^^^ 0xFFFFFFFF

def le32 (n : ℕ) : Bytes :=
  [UInt8.ofNat n, UInt8.ofNat (n / 2 ^ 8), UInt8.ofNat (n / 2 ^ 16), UInt8.ofNat (n / 2 ^ 24)]

def trailer (p : Bytes) : Bytes := le32 (crc32 p).toNat ++ le32 p.length

inductive State where
  | header (k : ℕ)
  | block (acc : Bytes)
  | size (final : Bool) (read acc : Bytes)
  | data (final : Bool) (left : ℕ) (acc : Bytes)
  | check (expected acc : Bytes)

def afterBlock (final : Bool) (acc : Bytes) : State :=
  if final then .check (trailer acc) acc else .block acc

def step : State → UInt8 → Move State
  | .header k, b =>
    -- magic number, deflate, no flags; then the time stamp, the extra flags and the system
    if k < 4 ∧ [0x1f, 0x8b, 0x08, 0x00][k]? ≠ some b then .fail
    else if k = 9 then .next (.block []) else .next (.header (k + 1))
  | .block acc, b => if b = 0 then .next (.size false [] acc) else if b =
      1 then .next (.size true [] acc) else .fail
  | .size final [l0, l1, n0] acc, n1 =>
    if l0 ^^^ n0 ≠ 255 ∨ l1 ^^^ n1 ≠ 255 then .fail
    else if l0.toNat + 256 * l1.toNat = 0 then .next (afterBlock final acc)
    else .next (.data final (l0.toNat + 256 * l1.toNat) acc)
  | .size final read acc, b => .next (.size final (read ++ [b]) acc)
  | .data final left acc, b =>
    if left ≤ 1 then .next (afterBlock final (acc ++ [b])) else .next (.data final (left - 1) (acc ++ [b]))
  | .check [e] acc, b => if b = e then .finish acc else .fail
  | .check (e :: es) acc, b => if b = e then .next (.check es acc) else .fail
  | .check [] _, _ => .fail

def machine : Machine State := ⟨.header 0, step⟩

/-- A member that holds every payload byte in a stored block of its own. -/
def compress (stamp : ℕ) (p : Bytes) : Bytes :=
  [0x1f, 0x8b, 0x08, 0x00] ++ le32 stamp ++ [0x00, 0x03]
    ++ p.flatMap (fun b => [0x00, 0x01, 0x00, 0xFE, 0xFF, b])
    ++ [0x01, 0x00, 0x00, 0xFF, 0xFF] ++ trailer p

theorem feed_header (stamp n : ℕ) (rest : Bytes) :
    machine.feed (.header 0) n ([0x1f, 0x8b, 0x08, 0x00] ++ le32 stamp ++ [0x00, 0x03] ++ rest) =
      machine.feed (.block []) (n + 10) rest := by
  simp [le32, Machine.feed, machine, step]

variable (acc : Bytes)

theorem feed_byte (b : UInt8) (n : ℕ) (rest : Bytes) :
    machine.feed (.block acc) n ([0x00, 0x01, 0x00, 0xFE, 0xFF, b] ++ rest) =
      machine.feed (.block (acc ++ [b])) (n + 6) rest := by
  have hlow : (1 : UInt8) ^^^ 254 = 255 := by decide
  simp [Machine.feed, machine, step, afterBlock, hlow]

theorem feed_payload (q : Bytes) : ∀ (acc : Bytes) (n : ℕ) (rest : Bytes),
    machine.feed (.block acc) n (q.flatMap (fun b => [0x00, 0x01, 0x00, 0xFE, 0xFF, b]) ++ rest) =
      machine.feed (.block (acc ++ q)) (n + 6 * q.length) rest := by
  induction q with
  | nil =>
    intro acc n rest; simp
  | cons b bs ih =>
    intro acc n rest
    rw [flatMap_cons, append_assoc, feed_byte, ih, length_cons, append_assoc]
    congr 1; omega

theorem feed_final (n : ℕ) (rest : Bytes) :
    machine.feed (.block acc) n ([0x01, 0x00, 0x00, 0xFF, 0xFF] ++ rest) =
      machine.feed (.check (trailer acc) acc) (n + 5) rest := by
  simp [Machine.feed, machine, step, afterBlock]

theorem feed_trailer (n : ℕ) : machine.feed (.check (trailer acc) acc) n (trailer acc) = .done acc (n + 8) := by
  simp [trailer, le32, Machine.feed, machine, step]

theorem length_compress (stamp : ℕ) (p : Bytes) : (compress stamp p).length = 23 + 6 * p.length := by
  simp only [compress, le32, trailer, length_append, length_cons, length_nil,
    length_flatMap, map_const', sum_replicate_nat]
  omega

end Stored

def storedGzip : Gzip where
  toInflater := Stored.machine.inflater
  compress := Stored.compress
  frame_compress stamp p := by
    show Stored.machine.feed (.header 0) 0 (Stored.compress stamp p) = .done p (Stored.compress stamp p).length
    rw [Stored.length_compress, Stored.compress, append_assoc, append_assoc, Stored.feed_header,
      Stored.feed_payload, Stored.feed_final, nil_append, Stored.feed_trailer]
    simp only [Verdict.done.injEq, true_and]; omega
  magic_compress stamp p := by simp [Stored.compress]

end CryptoPilot.Lib
