/- # Members — the members of a journal file and its torn tail.

A file that the writer left is a list of complete members followed by a strict prefix of one more
(`image`). -/
import CryptoPilot.Capture.Journal

namespace CryptoPilot.Capture

open List

open CryptoPilot.Lib (Bytes Verdict Inflater Gzip Json Record)

/-! # One member -/

section OneMember

variable {Z : Inflater} {m p post : Bytes} {start size : ℕ}

theorem readChunks_frame (hm : Z.Frame m p) :
    ∀ {fuel : ℕ} {fed rest : Bytes}, fed ++ rest = m ++ post → fed.length < m.length → rest.length < fuel →
      readChunks Z start size fuel fed rest = .ok (some (p, start + m.length))
  | 0, fed, rest, heq, hlt, hfuel => by omega
  | fuel + 1, fed, rest, heq, hlt, hfuel => by
    have hne : rest ≠ [] := by
      rintro rfl
      have := congrArg List.length heq; simp only [append_nil, length_append] at this; omega
    have hpos : 0 < rest.length := length_pos_iff.mpr hne
    have hsplit : (fed ++ rest.take readChunk) ++ rest.drop readChunk = m ++ post := by
      rw [append_assoc, take_append_drop, heq]
    have hdone : Z.verdict ((fed ++ rest.take readChunk) ++ rest.drop readChunk) = .done p m.length := by
      rw [hsplit]; exact hm.append post
    rw [readChunks, if_neg hne]
    rcases lt_or_ge (fed ++ rest.take readChunk).length m.length with hshort | hlong
    · -- the chunk ends inside the member
      simp only [Inflater.verdict_eq_more hdone hshort]
      apply readChunks_frame hm hsplit hshort; simp only [length_drop, readChunk]; omega
    · obtain ⟨more, hmore⟩ : ∃ more, m ++ more = fed ++ rest.take readChunk := by
        refine ⟨(fed ++ rest.take readChunk).drop m.length, ?_⟩
        have htake : (fed ++ rest.take readChunk).take m.length = m := by
          have := congrArg (take m.length) hsplit
          rwa [take_append_of_le_length hlong, take_left] at this
        conv_lhs => rw [← htake]
        rw [length_take, min_eq_left hlong, take_append_drop]
      simp only [← hmore, hm.append more]

theorem readChunks_torn :
    ∀ {fuel : ℕ} {fed rest : Bytes}, (∀ k, Z.verdict ((fed ++ rest).take k) = .more) → rest.length < fuel →
      readChunks Z start size fuel fed rest = .ok none
  | 0, fed, rest, hmore, hfuel => by omega
  | fuel + 1, fed, rest, hmore, hfuel => by
    rw [readChunks]
    split
    · rfl
    · next hne =>
      have hpos : 0 < rest.length := length_pos_iff.mpr hne
      have hchunk : Z.verdict (fed ++ rest.take readChunk) = .more := by
        have := hmore (fed.length + readChunk)
        rwa [take_append, take_of_length_le (by omega), Nat.add_sub_cancel_left] at this
      simp only [hchunk]
      apply readChunks_torn
      · rwa [append_assoc, take_append_drop]
      · simp only [length_drop, readChunk]; omega

/-- **Corrupt, not torn.**  A decoder that stops at its error before the end of the file makes the
reader raise, whichever chunk the error stands in. -/
theorem readChunks_bad (hstops : Z.StopsAtError) {x : Bytes} {e : ℕ} (hbad : Z.verdict (x.take e) = .bad)
    (hfirst : ∀ k < e, Z.verdict (x.take k) ≠ .bad) (he : e < x.length) :
    ∀ {fuel j : ℕ}, readChunk * j < e → x.length - readChunk * j < fuel →
      readChunks Z start (start + x.length) fuel (x.take (readChunk * j)) (x.drop (readChunk * j)) =
        .error (.corruptMember start)
  | 0, j, hj, hfuel => by omega
  | fuel + 1, j, hj, hfuel => by
    have hne : x.drop (readChunk * j) ≠ [] := by
      rw [Ne, drop_eq_nil_iff]; omega
    have hfed : x.take (readChunk * j) ++ (x.drop (readChunk * j)).take readChunk =
        x.take (readChunk * (j + 1)) := by
      rw [show readChunk * (j + 1) = readChunk * j + readChunk by ring, take_add]
    rw [readChunks, if_neg hne]
    simp only [hfed]
    rcases lt_or_ge (readChunk * (j + 1)) e with hlt | hge
    · -- the error stands in a later chunk
      have hmore : Z.verdict (x.take (readChunk * (j + 1))) = .more := by
        apply @Inflater.more_of_bad _ _ ((x.drop (readChunk * (j + 1))).take (e - readChunk * (j + 1)))
        · rw [← take_add, Nat.add_sub_cancel' hlt.le]; exact hbad
        · exact hfirst _ hlt
      simp only [hmore]
      rw [drop_drop]
      apply readChunks_bad hstops hbad hfirst he hlt; simp only [readChunk] at hfuel hlt ⊢; omega
    · -- the chunk holds the error, and the bytes behind it are left in the tail
      have hsplit : x.take (readChunk * (j + 1)) =
          x.take e ++ (x.drop e).take (readChunk * (j + 1) - e) := by
        rw [← take_add, Nat.add_sub_cancel' hge]
      have hbad' : Z.verdict (x.take (readChunk * (j + 1))) = .bad := by
        rw [hsplit]; exact Z.bad_append _ hbad
      have hunread := hstops _ ((x.drop e).take (readChunk * (j + 1) - e)) hbad
      rw [← hsplit] at hunread
      have hlen := congrArg List.length hsplit
      rw [length_append, length_take_of_le he.le] at hlen
      simp only [hbad']
      rw [if_pos (by omega)]

theorem readMemberAt_frame {file : Bytes} (hm : Z.Frame m p) (hmagic : m.take 2 = gzipMagic)
    (hfile : file.drop start = m ++ post) : readMemberAt Z file start size = .ok (some (p, start + m.length)) := by
  have htwo : 2 ≤ m.length := by
    have := congrArg List.length hmagic
    simp only [length_take, gzipMagic, length_cons, length_nil] at this; omega
  rw [readMemberAt, hfile, if_neg (by rw [length_append]; omega), if_neg]
  · exact readChunks_frame hm (show [] ++ (m ++ post) = m ++ post from rfl) hm.pos (by omega)
  · rw [take_append_of_le_length htwo]; simpa using hmagic

/-- What may stand after the last complete member: a strict prefix of a member. -/
def Torn (Z : Inflater) (tail : Bytes) : Prop :=
  ∃ m p, Z.Frame m p ∧ m.take 2 = gzipMagic ∧ tail <+: m ∧ tail.length < m.length

theorem torn_nil (C : Codec) : Torn C.gzip.toInflater [] := by
  have hframe := C.gzip.frame_compress 0 []
  exact ⟨_, _, hframe, C.gzip.magic_compress 0 [], ⟨_, rfl⟩, hframe.pos⟩

theorem readMemberAt_torn {file : Bytes} (htail : Torn Z (file.drop start)) :
    readMemberAt Z file start size = .ok none := by
  obtain ⟨m, p, hm, hmagic, ⟨after, hafter⟩, hlt⟩ := htail
  rw [readMemberAt]
  split
  · rfl
  · next htwo =>
    have hhead : (file.drop start).take 2 = gzipMagic := by
      rw [← hmagic, ← hafter, take_append_of_le_length (by omega)]
    rw [if_neg (by simpa using hhead)]
    apply readChunks_torn _ (by omega)
    intro k
    have htake : ([] ++ file.drop start).take k = m.take (min k (file.drop start).length) := by
      rw [nil_append, ← hafter, take_append_of_le_length (Nat.min_le_right _ _)]
      rcases le_total k (file.drop start).length with hk | hk
      · rw [min_eq_left hk]
      · rw [min_eq_right hk, take_of_length_le hk, take_length]
    rw [htake]; exact hm.take_more (by omega)

theorem readMemberAt_bad (hstops : Z.StopsAtError) {file x : Bytes} {e : ℕ} (hfile : file.drop start = x)
    (hmagic : x.take 2 = gzipMagic) (hbad : Z.verdict (x.take e) = .bad)
    (hfirst : ∀ k < e, Z.verdict (x.take k) ≠ .bad) (hpos : 0 < e) (he : e < x.length) :
    readMemberAt Z file start (start + x.length) = .error (.corruptMember start) := by
  rw [readMemberAt, hfile, if_neg (by omega), if_neg (by simpa using hmagic)]
  simpa using @readChunks_bad Z start hstops _ _ hbad hfirst he _ 0 (by omega) (Nat.lt_succ_self _)

end OneMember

/-! # A list of members -/

structure Member where
  bytes : Bytes
  records : List Record

def Member.Valid (C : Codec) (m : Member) : Prop :=
  ∃ p, C.gzip.Frame m.bytes p ∧ m.bytes.take 2 = gzipMagic ∧ ∀ offset, memberRecords C offset p = .ok m.records

def bytesOf (ms : List Member) : Bytes := ms.flatMap Member.bytes

@[simp] theorem bytesOf_nil : bytesOf [] = [] := rfl

@[simp] theorem bytesOf_cons (m : Member) (ms : List Member) : bytesOf (m :: ms) = m.bytes ++ bytesOf ms := by
  simp [bytesOf]

@[simp] theorem bytesOf_append (ms ns : List Member) : bytesOf (ms ++ ns) = bytesOf ms ++ bytesOf ns := by
  simp [bytesOf]

/-- The records of the members, each with the end of its member; the first member begins at
`offset`. -/
def yieldsFrom (offset : ℕ) : List Member → List (Record × ℕ)
  | [] => []
  | m :: ms =>
    m.records.map (fun r => (r, offset + m.bytes.length)) ++ yieldsFrom (offset + m.bytes.length) ms

theorem yieldsFrom_append (ms ns : List Member) : ∀ offset : ℕ,
    yieldsFrom offset (ms ++ ns) = yieldsFrom offset ms ++ yieldsFrom (offset + (bytesOf ms).length) ns := by
  induction ms with
  | nil =>
    intro offset; simp [yieldsFrom]
  | cons m ms ih =>
    intro offset
    simp only [cons_append, yieldsFrom, ih, bytesOf_cons, length_append, append_assoc, Nat.add_assoc]

theorem map_fst_yieldsFrom (ms : List Member) : ∀ offset : ℕ,
    (yieldsFrom offset ms).map Prod.fst = ms.flatMap Member.records := by
  induction ms with
  | nil =>
    intro offset; rfl
  | cons m ms ih =>
    intro offset; simp [yieldsFrom, ih, Function.comp_def]

theorem exists_split_of_yieldsFrom {r : Record} {stop : ℕ} : ∀ {ms : List Member} {offset : ℕ},
    (r, stop) ∈ yieldsFrom offset ms →
      ∃ before after, ms = before ++ after ∧ stop = offset + (bytesOf before).length ∧
        (r, stop) ∈ yieldsFrom offset before
  | [], offset, h => by cases h
  | m :: ms, offset, h => by
    rw [yieldsFrom, mem_append] at h
    rcases h with h | h
    · obtain ⟨r', -, heq⟩ := mem_map.mp h
      simp only [Prod.mk.injEq] at heq
      refine ⟨[m], ms, rfl, by simp [heq.2], ?_⟩
      exact mem_append_left _ h
    · obtain ⟨before, after, rfl, hstop, hmem⟩ := exists_split_of_yieldsFrom h
      refine ⟨m :: before, after, rfl, ?_, ?_⟩
      · rw [bytesOf_cons, length_append]; omega
      · exact mem_append_right _ hmem

section Walk

variable {C : Codec} {file rest : Bytes} {offset : ℕ}

theorem lt_length_of_drop {m : Member} (hm : m.Valid C) (hfile : file.drop offset = m.bytes ++ rest) :
    offset < file.length := by
  obtain ⟨p, hframe, -⟩ := hm
  have hlen := congrArg List.length hfile
  simp only [length_drop, length_append] at hlen
  have := hframe.pos; omega

theorem iterFrom_members : ∀ {ms : List Member} {offset : ℕ} (k : ℕ), (∀ m ∈ ms, m.Valid C) →
    file.drop offset = bytesOf ms ++ rest →
    iterFrom C file (ms.length + k) offset =
      (iterFrom C file k (offset + (bytesOf ms).length)).after (yieldsFrom offset ms)
  | [], offset, k, _, _ => by simp [yieldsFrom, Yields.after]
  | m :: ms, offset, k, hvalid, hfile => by
    have hm := hvalid m mem_cons_self
    rw [bytesOf_cons, append_assoc] at hfile
    have hlt := lt_length_of_drop hm hfile
    obtain ⟨p, hframe, hmagic, hrecords⟩ := hm
    have hdrop : file.drop (offset + m.bytes.length) = bytesOf ms ++ rest := by
      rw [← drop_drop, hfile, drop_left]
    rw [length_cons, Nat.add_right_comm, iterFrom, if_pos hlt]
    simp only [readMemberAt_frame hframe hmagic hfile, hrecords]
    rw [iterFrom_members k (fun n hn => hvalid n (mem_cons_of_mem _ hn)) hdrop]
    simp only [Yields.after, yieldsFrom, bytesOf_cons, length_append, append_assoc, Nat.add_assoc]

theorem lastCompleteFrom_members : ∀ {ms : List Member} {offset : ℕ} (k : ℕ), (∀ m ∈ ms, m.Valid C) →
    file.drop offset = bytesOf ms ++ rest →
    lastCompleteFrom C.gzip.toInflater file (ms.length + k) offset =
      lastCompleteFrom C.gzip.toInflater file k (offset + (bytesOf ms).length)
  | [], offset, k, _, _ => by simp
  | m :: ms, offset, k, hvalid, hfile => by
    have hm := hvalid m mem_cons_self
    rw [bytesOf_cons, append_assoc] at hfile
    have hlt := lt_length_of_drop hm hfile
    obtain ⟨p, hframe, hmagic, -⟩ := hm
    have hdrop : file.drop (offset + m.bytes.length) = bytesOf ms ++ rest := by
      rw [← drop_drop, hfile, drop_left]
    rw [length_cons, Nat.add_right_comm, lastCompleteFrom, if_pos hlt]
    simp only [readMemberAt_frame hframe hmagic hfile]
    rw [lastCompleteFrom_members k (fun n hn => hvalid n (mem_cons_of_mem _ hn)) hdrop]
    simp only [bytesOf_cons, length_append, Nat.add_assoc]

theorem length_le_bytesOf : ∀ {ms : List Member}, (∀ m ∈ ms, m.Valid C) → ms.length ≤ (bytesOf ms).length
  | [], _ => by simp
  | m :: ms, hvalid => by
    obtain ⟨p, hframe, -⟩ := hvalid m mem_cons_self
    have hpos := hframe.pos
    have hrest := length_le_bytesOf (fun n hn => hvalid n (mem_cons_of_mem _ hn))
    simp only [bytesOf_cons, length_cons, length_append]; omega

end Walk

/-! # A file the writer left -/

def image (ms : List Member) (tail : Bytes) : Bytes := bytesOf ms ++ tail

section Image

variable {C : Codec} {ms : List Member} {tail : Bytes}

/-- **The reader yields the members and stops at the tail**, from the end of any member on. -/
theorem iterCompleteRecords_image {before after : List Member} (hvalid : ∀ m ∈ before ++ after, m.Valid C)
    (htail : Torn C.gzip.toInflater tail) :
    iterCompleteRecords C (some (image (before ++ after) tail)) (bytesOf before).length =
      ⟨yieldsFrom (bytesOf before).length after, none⟩ := by
  have hafter : ∀ m ∈ after, m.Valid C := fun m hm => hvalid m (mem_append_right _ hm)
  have hdrop : (image (before ++ after) tail).drop (bytesOf before).length = bytesOf after ++ tail := by
    rw [image, bytesOf_append, append_assoc, drop_left]
  have hlen : (image (before ++ after) tail).length =
      (bytesOf before).length + ((bytesOf after).length + tail.length) := by
    simp only [image, bytesOf_append, length_append]; omega
  have hcount := length_le_bytesOf hafter
  obtain ⟨k, hk⟩ : ∃ k, (image (before ++ after) tail).length - (bytesOf before).length + 1 =
      after.length + (k + 1) := ⟨(bytesOf after).length + tail.length - after.length, by omega⟩
  rw [iterCompleteRecords, if_neg (by omega), hk, iterFrom_members (k + 1) hafter hdrop]
  have hend : iterFrom C (image (before ++ after) tail) (k + 1) ((bytesOf before).length + (bytesOf after).length) =
      ⟨[], none⟩ := by
    rw [iterFrom]
    split
    · have hdrop' : (image (before ++ after) tail).drop
        ((bytesOf before).length + (bytesOf after).length) = tail := by
        rw [← drop_drop, hdrop, drop_left]
      rw [← hdrop'] at htail; simp only [readMemberAt_torn htail]
    · rfl
  rw [hend]; simp [Yields.after]

section

variable (hvalid : ∀ m ∈ ms, m.Valid C) (htail : Torn C.gzip.toInflater tail)

include hvalid htail

theorem lastCompleteOffset_image :
    lastCompleteOffset C.gzip.toInflater (some (image ms tail)) = .ok (bytesOf ms).length := by
  have hdrop : (image ms tail).drop 0 = bytesOf ms ++ tail := rfl
  have hlen : (image ms tail).length = (bytesOf ms).length + tail.length := by simp [image]
  have hcount := length_le_bytesOf hvalid
  obtain ⟨k, hk⟩ : ∃ k, (image ms tail).length + 1 = ms.length + (k + 1) :=
    ⟨(image ms tail).length - ms.length, by omega⟩
  rw [lastCompleteOffset, hk, lastCompleteFrom_members (k + 1) hvalid hdrop, Nat.zero_add, lastCompleteFrom]
  split
  · have hdrop' : (image ms tail).drop (bytesOf ms).length = tail := by rw [image, drop_left]
    rw [← hdrop'] at htail; simp only [readMemberAt_torn htail]
  · rfl

/-- **The repair removes the tail and nothing else.** -/
theorem repairTornTail_image :
    repairTornTail C.gzip.toInflater (image ms tail) = .ok (bytesOf ms, tail.length) := by
  have hlen : (image ms tail).length = (bytesOf ms).length + tail.length := by simp [image]
  rw [repairTornTail, lastCompleteOffset_image hvalid htail]
  show (if (image ms tail).length ≤ (bytesOf ms).length then
      (.ok (image ms tail, 0) : Except JournalError (Bytes × ℕ)) else _) = _
  split
  · have hnil : tail = [] := length_eq_zero_iff.mp (by omega); simp [image, hnil]
  · show (.ok _ : Except JournalError (Bytes × ℕ)) = _
    rw [hlen, Nat.add_sub_cancel_left, image, take_left]

end

end Image

end CryptoPilot.Capture
