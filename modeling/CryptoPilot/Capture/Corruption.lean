/- # Corruption — a damaged member in the middle of a file.

A member behind which complete members follow, and in which the decoder reports an error, makes the
readers raise: the decoder leaves what it had not read of the chunk in `unconsumed_tail`, so the
error stands before the end of the file and the member is not taken for a torn one
(`damaged_member_fails_closed`).  That the tail is counted is what the guard rests on: with a
decoder that left nothing in it, a file shorter than a chunk would lose its last complete member
(`damaged_member_needs_tail`). -/
import CryptoPilot.Capture.CrashSafety

namespace CryptoPilot.Capture

open List

open CryptoPilot.Lib (Bytes Json Record Inflater Verdict storedGzip)

/-- The decoder first reports an error after `e` bytes. -/
structure ErrorAfter (Z : Inflater) (bytes : Bytes) (e : ℕ) : Prop where
  inside : e ≤ bytes.length
  reported : Z.verdict (bytes.take e) = .bad
  first : ∀ k < e, Z.verdict (bytes.take k) ≠ .bad

/-- The hour file: members, the damaged one, and the members behind it. -/
def damagedFile (ms : List Member) (damaged : Bytes) (post : List Member) : Bytes :=
  bytesOf ms ++ (damaged ++ bytesOf post)

/-- The `ValueError` that stops a reader at an offset. -/
inductive Refusal (offset : ℕ) : JournalError → Prop where
  | boundary : Refusal offset (.notBoundary offset)
  | corrupt : Refusal offset (.corruptMember offset)

/-- Every reader of the file raises when it reaches the damaged member, nothing cuts the file, and
where a complete member stands it is not taken for a torn one. -/
structure FailsClosed (C : Codec) (ms : List Member) (damaged : Bytes) (post : List Member) : Prop where
  records {before after : List Member} : ms = before ++ after → ∃ e, Refusal (bytesOf ms).length e ∧
    iterCompleteRecords C (some (damagedFile ms damaged post)) (bytesOf before).length =
      ⟨yieldsFrom (bytesOf before).length after, some e⟩
  offset : ∃ e, Refusal (bytesOf ms).length e ∧
    lastCompleteOffset C.gzip.toInflater (some (damagedFile ms damaged post)) = .error e
  repair : ∃ e, Refusal (bytesOf ms).length e ∧
    repairTornTail C.gzip.toInflater (damagedFile ms damaged post) = .error e
  flush {stream : Stream} {slot : Slot} {w : World} {dest : SegmentPath} :
    w.disk dest = some (damagedFile ms damaged post) → dest ∉ w.writer.repaired →
    ∀ stamp fates, (w.flush C stream slot stamp fates).2.disk dest = some (damagedFile ms damaged post)
  torn {start : ℕ} {m p : Bytes} : m <+: (damagedFile ms damaged post).drop start → m.take 2 = gzipMagic →
    C.gzip.Frame m p →
    readMemberAt C.gzip.toInflater (damagedFile ms damaged post) start
      (damagedFile ms damaged post).length ≠ .ok none

section Damage

variable {C : Codec} {ms post : List Member} {damaged : Bytes} {e : ℕ}

theorem ErrorAfter.pos (h : ErrorAfter C.gzip.toInflater damaged e) : 0 < e := by
  rcases Nat.eq_zero_or_pos e with rfl | hpos
  · -- a decoder that refuses nothing at all refuses no member
    have hnil : C.gzip.verdict [] = .bad := h.reported
    have hbad := C.gzip.bad_append (C.gzip.compress 0 []) hnil
    rw [nil_append, C.gzip.frame_compress 0 []] at hbad; cases hbad
  · exact hpos

theorem drop_damagedFile : (damagedFile ms damaged post).drop (bytesOf ms).length = damaged ++ bytesOf post := by
  rw [damagedFile, drop_left]

theorem length_damagedFile :
    (damagedFile ms damaged post).length = (bytesOf ms).length + (damaged ++ bytesOf post).length := by
  rw [damagedFile, length_append]

variable (ms) in
/-- The reader refuses the damaged member, by its magic number or by the error of the decoder. -/
theorem readMemberAt_damaged (hstops : C.gzip.StopsAtError) (h : ErrorAfter C.gzip.toInflater damaged e)
    (hpost : 2 ≤ (bytesOf post).length) :
    ∃ err, Refusal (bytesOf ms).length err ∧
      readMemberAt C.gzip.toInflater (damagedFile ms damaged post) (bytesOf ms).length
        (damagedFile ms damaged post).length = .error err := by
  have hrest : (damaged ++ bytesOf post).length = damaged.length + (bytesOf post).length := length_append
  by_cases hmagic : (damaged ++ bytesOf post).take 2 = gzipMagic
  · have htake : ∀ {k : ℕ}, k ≤ e → (damaged ++ bytesOf post).take k = damaged.take k := fun hk =>
      take_append_of_le_length (hk.trans h.inside)
    refine ⟨_, .corrupt, ?_⟩
    rw [length_damagedFile]
    apply readMemberAt_bad hstops drop_damagedFile hmagic
    · rw [htake le_rfl]; exact h.reported
    · intro k hk
      rw [htake hk.le]; exact h.first k hk
    · exact h.pos
    · have := h.inside; omega
  · refine ⟨_, .boundary, ?_⟩
    rw [readMemberAt, drop_damagedFile, if_neg (by omega), if_pos hmagic]

section

variable (hms : ∀ m ∈ ms, m.Valid C) (hlen : 2 ≤ (bytesOf post).length)

include hms hlen

theorem lastCompleteOffset_damaged {result : Except JournalError (Option (Bytes × ℕ))}
    (hread : readMemberAt C.gzip.toInflater (damagedFile ms damaged post) (bytesOf ms).length
      (damagedFile ms damaged post).length = result) :
    (∀ err, result = .error err →
      lastCompleteOffset C.gzip.toInflater (some (damagedFile ms damaged post)) = .error err) ∧
    (result = .ok none →
      lastCompleteOffset C.gzip.toInflater (some (damagedFile ms damaged post)) = .ok (bytesOf ms).length) := by
  have hcount := length_le_bytesOf hms
  have hsize := @length_damagedFile ms post damaged
  rw [length_append] at hsize
  obtain ⟨k, hk⟩ : ∃ k, (damagedFile ms damaged post).length + 1 = ms.length + (k + 1) :=
    ⟨(damagedFile ms damaged post).length - ms.length, by omega⟩
  have hdrop : (damagedFile ms damaged post).drop 0 = bytesOf ms ++ (damaged ++ bytesOf post) := rfl
  rw [lastCompleteOffset, hk, lastCompleteFrom_members (k + 1) hms hdrop, Nat.zero_add, lastCompleteFrom,
    if_pos (by omega), hread]
  constructor
  · rintro err rfl; rfl
  · rintro rfl; rfl

theorem iterCompleteRecords_damaged {err : JournalError}
    (hread : readMemberAt C.gzip.toInflater (damagedFile ms damaged post) (bytesOf ms).length
      (damagedFile ms damaged post).length =
        .error err) {before after : List Member} (hsplit : ms = before ++ after) :
    iterCompleteRecords C (some (damagedFile ms damaged post)) (bytesOf before).length =
      ⟨yieldsFrom (bytesOf before).length after, some err⟩ := by
  have hafter : ∀ m ∈ after, m.Valid C := fun m hm => hms m (hsplit ▸ mem_append_right _ hm)
  have hcount := length_le_bytesOf hafter
  have hbytes : bytesOf ms = bytesOf before ++ bytesOf after := by rw [hsplit, bytesOf_append]
  have hlength := congrArg List.length hbytes
  rw [length_append] at hlength
  have hsize := @length_damagedFile ms post damaged
  rw [length_append] at hsize
  obtain ⟨k, hk⟩ : ∃ k, (damagedFile ms damaged post).length - (bytesOf before).length + 1 =
    after.length + (k + 1) :=
    ⟨(damagedFile ms damaged post).length - (bytesOf before).length - after.length, by omega⟩
  have hdrop : (damagedFile ms damaged post).drop (bytesOf before).length =
      bytesOf after ++ (damaged ++ bytesOf post) := by
    rw [damagedFile, hbytes, append_assoc, drop_left]
  rw [iterCompleteRecords, if_neg (by omega), hk, iterFrom_members (k + 1) hafter hdrop, iterFrom,
    if_pos (by omega), ← hlength, hread]
  simp [Yields.after]

/-- What would become of a file within one chunk if the decoder left nothing in its tail. -/
theorem repairTornTail_tailless (htail : ∀ fed, C.gzip.unread fed = 0)
    (h : ErrorAfter C.gzip.toInflater damaged e) (hmagic : damaged.take 2 = gzipMagic)
    (hsmall : (damaged ++ bytesOf post).length ≤ readChunk) :
    repairTornTail C.gzip.toInflater (damagedFile ms damaged post) =
      .ok (bytesOf ms, (damaged ++ bytesOf post).length) := by
  have htwo : 2 ≤ damaged.length := by
    have := congrArg List.length hmagic
    simp only [length_take, gzipMagic, length_cons, length_nil] at this; omega
  have hbad : C.gzip.verdict (damaged ++ bytesOf post) = .bad := by
    rw [← take_append_drop e damaged, append_assoc]; exact C.gzip.bad_append _ h.reported
  have hrest : (damaged ++ bytesOf post).length = damaged.length + (bytesOf post).length := length_append
  have hread : readMemberAt C.gzip.toInflater (damagedFile ms damaged post) (bytesOf ms).length
      (damagedFile ms damaged post).length = .ok none := by
    rw [readMemberAt, drop_damagedFile, if_neg (by omega), if_neg, readChunks, if_neg,
      take_of_length_le hsmall, nil_append]
    · simp only [hbad]
      rw [htail, length_damagedFile, if_neg (by omega)]
    · exact length_pos_iff.mp (by omega)
    · rw [take_append_of_le_length htwo]; simpa using hmagic
  rw [repairTornTail, (lastCompleteOffset_damaged hms hlen hread).2 rfl]
  show (if _ then _ else (.ok _ : Except JournalError (Bytes × ℕ))) = _
  rw [if_neg (by rw [length_damagedFile]; omega), length_damagedFile, Nat.add_sub_cancel_left,
    damagedFile, take_left]

end

end Damage

/-! # The flush -/

section Flush

variable {C : Codec} {stream : Stream} {slot : Slot} {dest : SegmentPath} {file : Bytes}

theorem flushGroups_keeps {err : JournalError} (hrepair : repairTornTail C.gzip.toInflater file = .error err)
    (stamp : ℕ) (fates : SegmentPath → Fate) :
    ∀ (gs : List (SegmentPath × List Item)) (written : ℕ) {w : World}, w.disk dest = some file →
      dest ∉ w.writer.repaired → (flushGroups C stamp fates gs written w).2.disk dest = some file
  | [], written, w, hdisk, _ => by
    exact hdisk
  | (path, items) :: rest, written, w, hdisk, hmark => by
    have hresidue : path ≠ dest → ∀ (found member : Bytes) (ended : Ended) (residue : Residue),
        (w.residue path items found member ended residue).disk dest = some file := by
      intro hne found member ended residue
      cases residue with
      | untouched => exact hdisk
      | wrote n =>
        have hput : (w.put path (found ++ member.take n)).disk dest = some file := by
          show (Function.update w.disk path _) dest = some file
          rw [Function.update_of_ne (Ne.symm hne)]; exact hdisk
        simp only [World.residue]
        split
        · exact hput
        · exact hput
    by_cases hpath : path = dest
    · subst hpath
      -- whatever was to happen to the append, opening the file raises first or nothing is opened
      have hopen : openFile C w path = .error err := by
        rw [openFile, hdisk]; simp only [hmark, if_false, hrepair]; rfl
      rw [flushGroups, hopen]
      split
      · exact hdisk
      · exact hdisk
      · exact hdisk
      all_goals next heq => cases heq
    · rw [flushGroups]
      split
      · exact hdisk
      · exact hdisk
      · exact hdisk
      · apply flushGroups_keeps hrepair
        · show (Function.update w.disk path _) dest = some file
          rw [Function.update_of_ne (Ne.symm hpath)]; exact hdisk
        · show dest ∉ path :: w.writer.repaired
          rw [mem_cons, not_or]; exact ⟨Ne.symm hpath, hmark⟩
      all_goals exact hresidue hpath _ _ _ _

theorem flush_keeps {err : JournalError} (hrepair : repairTornTail C.gzip.toInflater file = .error err) {w : World}
    (hdisk : w.disk dest = some file) (hmark : dest ∉ w.writer.repaired) (stamp : ℕ) (fates : SegmentPath → Fate) :
    (w.flush C stream slot stamp fates).2.disk dest = some file := by
  unfold World.flush
  split
  · exact hdisk
  · split
    · exact hdisk
    · next gs _ =>
      have hkeeps := flushGroups_keeps hrepair stamp fates gs 0 hdisk hmark
      split
      · next hresult =>
        rw [hresult] at hkeeps; exact hkeeps
      · exact hkeeps

end Flush

/-! # Damage fails closed -/

/-- **Mid-file corruption fails closed.**  Wherever a member is damaged, and whatever its size, as
long as a complete member follows it. -/
theorem damaged_member_fails_closed {C : Codec} {ms post : List Member} {next : Member} {damaged : Bytes} {e : ℕ}
    (hstops : C.gzip.StopsAtError) (hms : ∀ m ∈ ms, m.Valid C) (hnext : next.Valid C)
    (hdamaged : ErrorAfter C.gzip.toInflater damaged e) : FailsClosed C ms damaged (next :: post) := by
  have hlen : 2 ≤ (bytesOf (next :: post)).length := by
    obtain ⟨p, -, hmagic, -⟩ := hnext
    have := congrArg List.length hmagic
    simp only [length_take, gzipMagic, length_cons, length_nil] at this
    simp only [bytesOf_cons, length_append]; omega
  obtain ⟨err, hrefusal, hread⟩ := readMemberAt_damaged ms hstops hdamaged hlen
  have hoffset := (lastCompleteOffset_damaged hms hlen hread).1 err rfl
  have hrepair : repairTornTail C.gzip.toInflater (damagedFile ms damaged (next :: post)) = .error err := by
    rw [repairTornTail, hoffset]; rfl
  refine ⟨fun hsplit => ⟨err, hrefusal, iterCompleteRecords_damaged hms hlen hread hsplit⟩,
    ⟨err, hrefusal, hoffset⟩,
    ⟨err, hrefusal, hrepair⟩, fun hdisk hmark stamp fates => flush_keeps hrepair hdisk hmark stamp fates, ?_⟩
  rintro start m p ⟨rest, hrest⟩ hmagic hframe
  rw [readMemberAt_frame hframe hmagic hrest.symm]; exact fun h => by cases h

/-! # A damaged file -/

/-- A member that holds one record. -/
def sampleMember : Member :=
  ⟨memberBytes (tableCodec sampleRecord sampleText) 0 [⟨0, sampleRecord⟩], [sampleRecord]⟩

/-- The same member with the check of its first block length destroyed. -/
def damagedSample : Bytes := sampleMember.bytes.set 14 0

/-- The codec of the sample with a decoder that leaves nothing of a chunk unread. -/
def taillessCodec : Codec :=
  { tableCodec sampleRecord sampleText with gzip := { storedGzip with unread := fun _ => 0 } }

theorem sampleMember_valid : ∀ m ∈ [sampleMember], m.Valid (tableCodec sampleRecord sampleText) := by
  intro m hm
  obtain rfl := mem_singleton.mp hm
  apply valid_memberBytes
  intro i hi
  obtain rfl := mem_singleton.mp hi
  exact ⟨fun _ => rfl, by decide +kernel, by decide +kernel, by decide +kernel⟩

theorem damagedSample_error : ErrorAfter storedGzip.toInflater damagedSample 15 :=
  ⟨by decide +kernel, by decide +kernel, by decide +kernel⟩

theorem damaged_member_fails_closed_sample :
    FailsClosed (tableCodec sampleRecord sampleText) [sampleMember] damagedSample [sampleMember] :=
  damaged_member_fails_closed CryptoPilot.Lib.Machine.stopsAtError_inflater sampleMember_valid
    (sampleMember_valid _ (mem_singleton_self _)) damagedSample_error

/-- **With an empty tail the complete member behind the damaged one is truncated**: the file is
shorter than a chunk, so the error seems to stand at its last byte. -/
theorem damaged_member_needs_tail :
    (∀ m ∈ [sampleMember], m.Valid taillessCodec) ∧
      ErrorAfter taillessCodec.gzip.toInflater damagedSample 15 ∧
      (∀ fed, taillessCodec.gzip.unread fed = 0) ∧
      repairTornTail taillessCodec.gzip.toInflater (damagedFile [sampleMember] damagedSample [sampleMember]) =
        .ok (bytesOf [sampleMember], (damagedSample ++ bytesOf [sampleMember]).length) ∧
      ¬ FailsClosed taillessCodec [sampleMember] damagedSample [sampleMember] := by
  have herror : ErrorAfter taillessCodec.gzip.toInflater damagedSample 15 :=
    ⟨by decide +kernel, by decide +kernel, by decide +kernel⟩
  have hrepair := @repairTornTail_tailless taillessCodec [sampleMember] [sampleMember] damagedSample 15
    sampleMember_valid (by decide +kernel) (fun _ => rfl) herror (by decide +kernel) (by decide +kernel)
  refine ⟨sampleMember_valid, herror, fun _ => rfl, hrepair, ?_⟩
  intro hclosed
  obtain ⟨e, -, he⟩ := hclosed.repair
  rw [hrepair] at he; cases he

end CryptoPilot.Capture
