/- # Gathering — what a cycle reads of a journal.

A journal is the members that the capture writes, file by file.  At any time each file shows some of
its members and perhaps a torn tail.  A cycle whose cursors are at ends of members reads, of each
file, a number of the next members that are complete, in order, and moves the cursor to the end of
the last of them (`Reading`). -/
import CryptoPilot.Capture.Members
import CryptoPilot.Lib.Effect
import CryptoPilot.Streams.Normalizer

namespace CryptoPilot.Streams

open CryptoPilot.Lib CryptoPilot.Capture List Function

/-- The members of the hour files, in the order of `_hot_files`. -/
structure Journal (C : Codec) where
  files : List (SegmentPath × List Member)
  listed : files.Pairwise (fun a b => listing a.1 < listing b.1)
  valid : ∀ f ∈ files, ∀ m ∈ f.2, m.Valid C
  nonempty : ∀ f ∈ files, ∀ m ∈ f.2, m.records ≠ []

abbrev Tail (C : Codec) : Type := {tail : Bytes // Torn C.gzip.toInflater tail}

/-- The end of the first `k` members. -/
def offset (ms : List Member) (k : ℕ) : ℕ := (bytesOf (ms.take k)).length

/-! # The spans of a file -/

/-- The members as spans, the first from `start` on. -/
def spansFrom (start : ℕ) : List Member → List Span
  | [] => []
  | m :: ms => ⟨m.records, start, start + m.bytes.length⟩ :: spansFrom (start + m.bytes.length) ms

theorem membersFrom_same (rest : List (Record × ℕ)) (start stop : ℕ) : ∀ (rs : List Record) {pending : List Record},
    pending ≠ [] →
    membersFrom false (rs.map (fun r => (r, stop)) ++ rest) pending start stop =
      membersFrom false rest (pending ++ rs) start stop
  | [], pending, _ => by simp
  | r :: rs, pending, h => by
    rw [map_cons, cons_append, membersFrom]
    rw [membersFrom_same rest start stop rs (by simp)]; simp

theorem membersFrom_pending : ∀ {ms : List Member} {pending : List Record} {start stop : ℕ}, pending ≠ [] →
    (∀ m ∈ ms, m.records ≠ [] ∧ m.bytes ≠ []) →
    membersFrom false (yieldsFrom stop ms) pending start stop = ⟨pending, start, stop⟩ :: spansFrom stop ms
  | [], pending, start, stop, h, _ => by simp [yieldsFrom, membersFrom, spansFrom, h]
  | m :: ms, pending, start, stop, h, hms => by
    obtain ⟨hrecords, hbytes⟩ := hms m mem_cons_self
    obtain ⟨r, rs, hr⟩ := exists_cons_of_ne_nil hrecords
    have hlen : 0 < m.bytes.length := length_pos_iff.mpr hbytes
    rw [yieldsFrom, hr, map_cons, cons_append, membersFrom, if_pos ⟨h, by omega⟩]
    rw [membersFrom_same _ _ _ _ (by simp), singleton_append, ← hr]
    rw [membersFrom_pending hrecords (fun n hn => hms n (mem_cons_of_mem _ hn))]
    rfl

theorem membersFrom_yieldsFrom {ms : List Member} (start : ℕ) (hms : ∀ m ∈ ms, m.records ≠ [] ∧ m.bytes ≠ []) :
    membersFrom false (yieldsFrom start ms) [] start start = spansFrom start ms := by
  cases ms with
  | nil => simp [yieldsFrom, membersFrom, spansFrom]
  | cons m ms =>
    obtain ⟨hrecords, hbytes⟩ := hms m mem_cons_self
    obtain ⟨r, rs, hr⟩ := exists_cons_of_ne_nil hrecords
    rw [yieldsFrom, hr, map_cons, cons_append, membersFrom, nil_append]
    rw [membersFrom_same _ _ _ _ (by simp), singleton_append, ← hr]
    rw [membersFrom_pending hrecords (fun n hn => hms n (mem_cons_of_mem _ hn))]
    rfl

theorem bytes_ne_nil {C : Codec} {m : Member} (h : m.Valid C) : m.bytes ≠ [] := by
  obtain ⟨p, hframe, -⟩ := h; exact length_pos_iff.mp hframe.pos

/-! # The members of one file -/

def gatheredOf (path : SegmentPath) (ms : List Member) : List Gathered :=
  ms.flatMap (fun m => m.records.map (fun r => ⟨r, path⟩))

/-- What reading the first `n` of the members does. -/
structure Took (path : SegmentPath) (start : ℕ) (ms : List Member) (g g' : Gather) (n : ℕ) : Prop where
  le : n ≤ ms.length
  gathered : g'.gathered = g.gathered ++ gatheredOf path (ms.take n)
  consumed : g'.consumed path = if n = 0 then g.consumed path else some (start + offset ms n)
  others : ∀ p, p ≠ path → g'.consumed p = g.consumed p
  bytes : g'.bytes = g.bytes + offset ms n

theorem Took.none {path : SegmentPath} {start : ℕ} {ms : List Member} {g g' : Gather}
    (hgathered : g'.gathered = g.gathered) (hconsumed : g'.consumed = g.consumed) (hbytes : g'.bytes = g.bytes) :
    Took path start ms g g' 0 :=
  ⟨Nat.zero_le _, by simp [hgathered, gatheredOf], by simp [hconsumed], fun p _ => by rw [hconsumed],
    by simp [hbytes, offset]⟩

theorem offset_cons_succ (m : Member) (ms : List Member) (n : ℕ) :
    offset (m :: ms) (n + 1) = m.bytes.length + offset ms n := by
  simp [offset]

theorem takeMembers_took (budget : ℕ) (path : SegmentPath) : ∀ (ms : List Member) (start : ℕ) (g : Gather),
    ∃ n, Took path start ms g (takeMembers budget path (spansFrom start ms) g).1 n ∧
      ((takeMembers budget path (spansFrom start ms) g).2 = false → n = ms.length) ∧
      (g.bytes + offset ms ms.length ≤ budget → n = ms.length)
  | [], start, g => ⟨0, Took.none rfl rfl rfl, fun _ => rfl, fun _ => rfl⟩
  | m :: ms, start, g => by
    rw [spansFrom, takeMembers]
    simp only [Nat.add_sub_cancel_left]
    split
    · next hcut =>
      refine ⟨0, ?_, nofun, ?_⟩
      · cases m.records.head? with
        | none | some r => exact Took.none rfl rfl rfl
      · intro hfits
        rw [length_cons, offset_cons_succ] at hfits; omega
    · obtain ⟨n, htook, hall, hfits⟩ := takeMembers_took budget path ms (start + m.bytes.length)
        (g.accept path ⟨m.records, start, start + m.bytes.length⟩)
      refine ⟨n + 1, ⟨by simpa using htook.le, ?_, ?_, ?_, ?_⟩, ?_, ?_⟩
      · rw [htook.gathered]; simp [Gather.accept, gatheredOf]
      · rw [htook.consumed, offset_cons_succ]
        split
        · next hn => simp [Gather.accept, hn, offset]
        · simp [Nat.add_assoc]
      · intro p hp
        rw [htook.others p hp]; exact update_of_ne hp _ _
      · rw [htook.bytes, offset_cons_succ]; simp only [Gather.accept]; omega
      · intro h; simpa using hall h
      · intro h
        rw [length_cons, offset_cons_succ] at h
        rw [length_cons, hfits (by simp only [Gather.accept]; omega)]

/-! # One file -/

section File

variable {R : Runtime} {path : SegmentPath} {ms : List Member} {cursor : SegmentPath → ℕ} {count pos budget : ℕ}
  {tail : Tail R.toCodec} {g : Gather}

theorem offset_le_offset (ms : List Member) {j k : ℕ} (h : j ≤ k) : offset ms j ≤ offset ms k := by
  have hsplit : ms.take k = ms.take j ++ (ms.drop j).take (k - j) := by
    rw [← take_add, Nat.add_sub_cancel' h]
  simp [offset, hsplit]

theorem offset_add_offset (ms : List Member) {j n : ℕ} (count : ℕ) (h : j + n ≤ count) :
    offset ms j + offset ((ms.take count).drop j) n = offset ms (j + n) := by
  have hdrop : ((ms.take count).drop j).take n = (ms.drop j).take n := by
    rw [drop_take, take_take, min_eq_left (by omega)]
  unfold offset
  rw [hdrop, take_add, bytesOf_append, length_append]

/-- **One file of a cycle.**  The cursor is at the end of `pos` members of the `count` complete
ones. -/
theorem gatherFile_took (hvalid : ∀ m ∈ ms, m.Valid R.toCodec) (hnonempty : ∀ m ∈ ms, m.records ≠ [])
    (hcursor : cursor path = offset ms pos) (hpos : pos ≤ count) (hcount : count ≤ ms.length) :
    ∃ g' n, gatherFile R budget cursor g (path, image (ms.take count) tail.1) = .ok g' ∧
      Took path (offset ms pos) ((ms.take count).drop pos) g g' n ∧
      (g.bytes + offset ((ms.take count).drop pos) (count - pos) < budget → n = count - pos) := by
  have hsplit : ms.take count = ms.take pos ++ (ms.take count).drop pos := by
    conv_lhs => rw [← take_append_drop pos (ms.take count), take_take, min_eq_left hpos]
  have hall : ∀ m ∈ ms.take pos ++ (ms.take count).drop pos, m.Valid R.toCodec := by
    rw [← hsplit]; exact fun m hm => hvalid m (mem_of_mem_take hm)
  have hafter : ∀ m ∈ (ms.take count).drop pos, m.records ≠ [] ∧ m.bytes ≠ [] := by
    intro m hm
    have hmem : m ∈ ms := mem_of_mem_take (mem_of_mem_drop hm)
    exact ⟨hnonempty m hmem, bytes_ne_nil (hvalid m hmem)⟩
  have hlength : ((ms.take count).drop pos).length = count - pos := by
    rw [length_drop, length_take, min_eq_left hcount]
  have hsize : ¬ (image (ms.take count) tail.1).length < offset ms pos := by
    have := offset_le_offset ms hpos
    rw [image, length_append]; simp only [offset] at this ⊢; omega
  have hyields : iterCompleteRecords R.toCodec (some (image (ms.take count) tail.1)) (offset ms pos) =
      ⟨yieldsFrom (offset ms pos) ((ms.take count).drop pos), none⟩ := by
    have himage := iterCompleteRecords_image hall tail.2; rwa [← hsplit] at himage
  unfold gatherFile
  simp only [hcursor, if_neg hsize, hyields]
  split
  · next hfull =>
    split
    · exact ⟨_, 0, rfl, Took.none rfl rfl rfl, fun h => by omega⟩
    · next hraised => cases hraised
    · exact ⟨g, 0, rfl, Took.none rfl rfl rfl, fun h => by omega⟩
  · obtain ⟨n, htook, -, hfits⟩ := takeMembers_took budget path ((ms.take count).drop pos) (offset ms pos) g
    refine ⟨_, n, ?_, htook, ?_⟩
    · rw [iterMembers]; simp only [Option.isSome_none, membersFrom_yieldsFrom _ hafter]
    · intro h
      rw [← hlength]
      apply hfits
      rw [hlength]; omega

end File

/-! # The whole tree -/

/-- What the files show: how many members are complete, and what is torn behind them. -/
structure View (C : Codec) where
  count : SegmentPath → ℕ
  tail : SegmentPath → Tail C

def Journal.tree {C : Codec} (J : Journal C) (v : View C) : Tree where
  files := J.files.map (fun f => (f.1, image (f.2.take (v.count f.1)) (v.tail f.1).1))
  listed := pairwise_map.mpr J.listed

theorem ne_of_listing {a b : SegmentPath} (h : listing a < listing b) : a ≠ b := by
  rintro rfl; exact lt_irrefl _ h

/-- A cycle that starts behind `pos` members of each file has read up to `adv` members. -/
structure Reading (files : List (SegmentPath × List Member)) (count pos adv : SegmentPath → ℕ)
    (g : Gather) : Prop where
  bounds : ∀ f ∈ files, pos f.1 ≤ adv f.1 ∧ adv f.1 ≤ count f.1
  gathered : g.gathered = files.flatMap (fun f => gatheredOf f.1 ((f.2.take (adv f.1)).drop (pos f.1)))
  consumed : ∀ f ∈ files, g.consumed f.1 = if adv f.1 = pos f.1 then none else some (offset f.2 (adv f.1))

def backlog (files : List (SegmentPath × List Member)) (count pos : SegmentPath → ℕ) : ℕ :=
  (files.map (fun f => offset ((f.2.take (count f.1)).drop (pos f.1)) (count f.1 - pos f.1))).sum

section Tree

variable {R : Runtime} {cursor count pos : SegmentPath → ℕ}

variable (budget : ℕ) (tail : SegmentPath → Tail R.toCodec) in
theorem gatherFiles_reading : ∀ (files : List (SegmentPath × List Member)) (g : Gather),
    files.Pairwise (fun a b => listing a.1 < listing b.1) →
    (∀ f ∈ files, ∀ m ∈ f.2, m.Valid R.toCodec) → (∀ f ∈ files, ∀ m ∈ f.2, m.records ≠ []) →
    (∀ f ∈ files, cursor f.1 = offset f.2 (pos f.1) ∧ pos f.1 ≤ count f.1 ∧ count f.1 ≤ f.2.length) →
    (∀ f ∈ files, g.consumed f.1 = none) →
    ∃ (g' : Gather) (adv : SegmentPath → ℕ),
      (files.map (fun f => (f.1, image (f.2.take (count f.1)) (tail f.1).1))).foldlM
        (gatherFile R budget cursor) g = .ok g' ∧
      (∀ f ∈ files, pos f.1 ≤ adv f.1 ∧ adv f.1 ≤ count f.1) ∧
      g'.gathered = g.gathered ++ files.flatMap (fun f => gatheredOf f.1 ((f.2.take (adv f.1)).drop (pos f.1))) ∧
      (∀ f ∈ files, g'.consumed f.1 = if adv f.1 = pos f.1 then none else some (offset f.2 (adv f.1))) ∧
      (∀ p, p ∉ files.map Prod.fst → g'.consumed p = g.consumed p) ∧
      (g.bytes + backlog files count pos < budget → ∀ f ∈ files, adv f.1 = count f.1)
  | [], g, _, _, _, _, _ => by
    refine ⟨g, pos, rfl, ?_, by simp, ?_, fun p _ => rfl, ?_⟩
    · exact fun f hf => (not_mem_nil hf).elim
    · exact fun f hf => (not_mem_nil hf).elim
    · exact fun _ f hf => (not_mem_nil hf).elim
  | f :: files, g, hlisted, hvalid, hnonempty, hcursor, hfresh => by
    obtain ⟨hhead, htail⟩ := pairwise_cons.mp hlisted
    obtain ⟨hcur, hpos, hcount⟩ := hcursor f mem_cons_self
    obtain ⟨g₁, n, hstep, htook, hfits⟩ : ∃ g₁ n,
        gatherFile R budget cursor g (f.1, image (f.2.take (count f.1)) (tail f.1).1) = .ok g₁ ∧
        Took f.1 (offset f.2 (pos f.1)) ((f.2.take (count f.1)).drop (pos f.1)) g g₁ n ∧
        (g.bytes + offset ((f.2.take (count f.1)).drop (pos f.1)) (count f.1 - pos f.1) < budget →
          n = count f.1 - pos f.1) :=
      gatherFile_took (hvalid f mem_cons_self) (hnonempty f mem_cons_self) hcur hpos hcount
    have hne : ∀ f' ∈ files, f'.1 ≠ f.1 := fun f' hf' => (ne_of_listing (hhead f' hf')).symm
    obtain ⟨g', adv, hrun, hbounds, hgathered, hconsumed, hothers, hall⟩ := gatherFiles_reading files g₁ htail
      (fun f' hf' => hvalid f' (mem_cons_of_mem _ hf'))
      (fun f' hf' => hnonempty f' (mem_cons_of_mem _ hf'))
      (fun f' hf' => hcursor f' (mem_cons_of_mem _ hf'))
      (fun f' hf' => by
        rw [htook.others _ (hne f' hf')]
        exact hfresh f' (mem_cons_of_mem _ hf'))
    have hn : n ≤ count f.1 - pos f.1 := by
      have := htook.le
      rw [length_drop, length_take, min_eq_left hcount] at this; exact this
    have hoff := offset_add_offset f.2 (count f.1) (show pos f.1 + n ≤ count f.1 by omega)
    -- the files read later do not touch the entry of this one
    have hadv : ∀ f' ∈ files, Function.update adv f.1 (pos f.1 + n) f'.1 = adv f'.1 :=
      fun f' hf' => update_of_ne (hne f' hf') _ _
    have hself : Function.update adv f.1 (pos f.1 + n) f.1 = pos f.1 + n := update_self ..
    refine ⟨g', Function.update adv f.1 (pos f.1 + n), ?_, ?_, ?_, ?_, ?_, ?_⟩
    · rw [map_cons, foldlM_cons, hstep]; exact hrun
    · intro f' hf'
      rcases mem_cons.mp hf' with rfl | hf'
      · omega
      · rw [hadv f' hf']; exact hbounds f' hf'
    · rw [hgathered, htook.gathered, flatMap_cons, append_assoc]
      congr 2
      · rw [drop_take, take_take, drop_take]
        congr 2; omega
      · exact flatMap_congr (fun f' hf' => by rw [hadv f' hf'])
    · intro f' hf'
      rcases mem_cons.mp hf' with rfl | hf'
      · have hmem : f'.1 ∉ files.map Prod.fst := by
          intro hmem
          obtain ⟨f'', hf'', heq⟩ := mem_map.mp hmem; exact hne f'' hf'' heq
        rw [hothers _ hmem, htook.consumed, hfresh f' mem_cons_self, hoff]; simp
      · rw [hadv f' hf']; exact hconsumed f' hf'
    · intro p hp
      rw [map_cons, mem_cons, not_or] at hp
      rw [hothers p hp.2, htook.others p hp.1]
    · intro hbudget
      have hsum : backlog (f :: files) count pos =
          offset ((f.2.take (count f.1)).drop (pos f.1)) (count f.1 - pos f.1) + backlog files count pos := by
        simp [backlog]
      have hwhole : n = count f.1 - pos f.1 := hfits (by omega)
      intro f' hf'
      rcases mem_cons.mp hf' with rfl | hf'
      · omega
      · rw [hadv f' hf']
        apply hall _ f' hf'
        rw [htook.bytes, hwhole]; omega

structure Journal.At {C : Codec} (J : Journal C) (v : View C) (pos cursor : SegmentPath → ℕ) : Prop where
  cursor : ∀ f ∈ J.files, cursor f.1 = offset f.2 (pos f.1)
  shown : ∀ f ∈ J.files, pos f.1 ≤ v.count f.1
  complete : ∀ f ∈ J.files, v.count f.1 ≤ f.2.length

variable {J : Journal R.toCodec}

/-- **A cycle never raises on reading the journal**, and reads a number of the next members of each
file. -/
theorem gatherNewRecords_reading {v : View R.toCodec} (hat : J.At v pos cursor) (budget : ℕ) :
    ∃ g adv, gatherNewRecords R (J.tree v) cursor budget = .ok g ∧ Reading J.files v.count pos adv g ∧
      (backlog J.files v.count pos < budget → ∀ f ∈ J.files, adv f.1 = v.count f.1) := by
  obtain ⟨g, adv, hrun, hbounds, hgathered, hconsumed, -, hall⟩ := gatherFiles_reading budget
    v.tail J.files Gather.start J.listed J.valid J.nonempty
    (fun f hf => ⟨hat.cursor f hf, hat.shown f hf, hat.complete f hf⟩) (fun _ _ => rfl)
  refine ⟨g, adv, hrun, ⟨hbounds, ?_, hconsumed⟩, ?_⟩
  · simpa [Gather.start] using hgathered
  · intro h; exact hall (by simpa [Gather.start] using h)

theorem Journal.At.grow {v v' : View R.toCodec} (hat : J.At v pos cursor)
    (hgrows : ∀ p, v.count p ≤ v'.count p)
    (hcomplete : ∀ f ∈ J.files, v'.count f.1 ≤ f.2.length) : J.At v' pos cursor :=
  ⟨hat.cursor, fun f hf => (hat.shown f hf).trans (hgrows f.1), hcomplete⟩

theorem Reading.at_advance {v : View R.toCodec} {adv : SegmentPath → ℕ} {c : Checkpoint}
    {g : Gather} (hread : Reading J.files v.count pos adv g) (hat : J.At v pos c.files)
    (trackers : Slot → Tracker) :
    J.At v adv (advance (J.tree v) c g trackers).files := by
  refine ⟨?_, fun f hf => (hread.bounds f hf).2, hat.complete⟩
  intro f hf
  have hmem : f.1 ∈ (J.tree v).files.map Prod.fst := by
    rw [Journal.tree, map_map]; exact mem_map_of_mem hf
  show (if f.1 ∈ (J.tree v).files.map Prod.fst then (g.consumed f.1).getD (c.files f.1) else 0) = _
  rw [if_pos hmem, hread.consumed f hf]
  split
  · next heq =>
    rw [heq]; exact hat.cursor f hf
  · rfl

theorem Reading.mem_gathered {files : List (SegmentPath × List Member)} {count adv : SegmentPath → ℕ} {g : Gather}
    (hread : Reading files count pos adv g) {x : Gathered} :
    x ∈ g.gathered ↔ ∃ f ∈ files, ∃ m ∈ (f.2.take (adv f.1)).drop (pos f.1), x.record ∈ m.records ∧
      x.path = f.1 := by
  rw [hread.gathered]
  simp only [mem_flatMap, gatheredOf, mem_map]
  constructor
  · rintro ⟨f, hf, m, hm, r, hr, rfl⟩; exact ⟨f, hf, m, hm, hr, rfl⟩
  · rintro ⟨f, hf, m, hm, hr, hpath⟩; exact ⟨f, hf, m, hm, x.record, hr, by rw [← hpath]⟩

end Tree

/-! # Records -/

def Journal.records {C : Codec} (J : Journal C) : Set Record := {r | ∃ f ∈ J.files, ∃ m ∈ f.2, r ∈ m.records}

section Records

variable {R : Runtime} {J : Journal R.toCodec} {v : View R.toCodec} {pos adv : SegmentPath → ℕ} {g : Gather}

variable {r : Record}

theorem mem_recordsOf : r ∈ recordsOf R g ↔ ∃ x ∈ g.gathered, x.record = r := by
  rw [recordsOf, mem_map]
  constructor
  · rintro ⟨x, hx, rfl⟩; exact ⟨x, mem_sortBy.mp hx, rfl⟩
  · rintro ⟨x, hx, rfl⟩; exact ⟨x, mem_sortBy.mpr hx, rfl⟩

theorem pairwise_recordsOf : (recordsOf R g).Pairwise (fun a b => recvOf a ≤ recvOf b) := by
  rw [recordsOf, pairwise_map]
  refine (pairwise_sortBy (receiptKey R) g.gathered).imp ?_
  intro a b h
  rcases Prod.Lex.toLex_le_toLex.mp h with h | h
  · exact h.le
  · exact h.1.le

theorem Reading.mem_recordsOf (hread : Reading J.files v.count pos adv g) :
    r ∈ recordsOf R g ↔ ∃ f ∈ J.files, ∃ m ∈ (f.2.take (adv f.1)).drop (pos f.1), r ∈ m.records := by
  rw [Streams.mem_recordsOf]
  constructor
  · rintro ⟨x, hx, rfl⟩
    obtain ⟨f, hf, m, hm, hr, -⟩ := hread.mem_gathered.mp hx; exact ⟨f, hf, m, hm, hr⟩
  · rintro ⟨f, hf, m, hm, hr⟩; exact ⟨⟨r, f.1⟩, hread.mem_gathered.mpr ⟨f, hf, m, hm, hr, rfl⟩, rfl⟩

theorem Reading.mem_records (hread : Reading J.files v.count pos adv g) (h : r ∈ recordsOf R g) :
    r ∈ J.records := by
  obtain ⟨f, hf, m, hm, hr⟩ := hread.mem_recordsOf.mp h
  exact ⟨f, hf, m, mem_of_mem_take (mem_of_mem_drop hm), hr⟩

end Records

/-! # What is accounted for -/

def Accounted {C : Codec} (J : Journal C) (Settled : List Write → Record → Prop) (v : View C) (log : List Write)
    (c : Checkpoint) : Prop :=
  ∃ pos, J.At v pos c.files ∧ ∀ f ∈ J.files, ∀ m ∈ f.2.take (pos f.1), ∀ r ∈ m.records, Settled log r

section Accounted

variable {R : Runtime} {J : Journal R.toCodec} {v v' : View R.toCodec} {Settled : List Write → Record → Prop}
  {log log' : List Write} {c : Checkpoint}

theorem accounted_empty (hcomplete : ∀ f ∈ J.files, v.count f.1 ≤ f.2.length) :
    Accounted J Settled v log Checkpoint.empty := by
  refine ⟨fun _ => 0, ⟨?_, fun _ _ => Nat.zero_le _, hcomplete⟩, ?_⟩
  · intro f _; simp [Checkpoint.empty, offset]
  · intro f _ m hm; simp at hm

theorem Accounted.grow (h : Accounted J Settled v log c) (hgrows : ∀ p, v.count p ≤ v'.count p)
    (hcomplete : ∀ f ∈ J.files, v'.count f.1 ≤ f.2.length) : Accounted J Settled v' log c := by
  obtain ⟨pos, hat, hsettled⟩ := h; exact ⟨pos, hat.grow hgrows hcomplete, hsettled⟩

theorem Accounted.mono (h : Accounted J Settled v log c) (hmono : ∀ r, Settled log r → Settled log' r) :
    Accounted J Settled v log' c := by
  obtain ⟨pos, hat, hsettled⟩ := h
  exact ⟨pos, hat, fun f hf m hm r hr => hmono r (hsettled f hf m hm r hr)⟩

/-- **What a cycle returns accounts for what it read.** -/
theorem Accounted.advance {budget : ℕ} {g : Gather} (h : Accounted J Settled v log c)
    (hgather : gatherNewRecords R (J.tree v) c.files budget = .ok g) (trackers : Slot → Tracker)
    (hmono : ∀ r, Settled log r → Settled log' r) (hread : ∀ r ∈ recordsOf R g, Settled log' r) :
    Accounted J Settled v log' (Streams.advance (J.tree v) c g trackers) := by
  obtain ⟨pos, hat, hsettled⟩ := h
  obtain ⟨g', adv, hg', hreading, -⟩ := gatherNewRecords_reading hat budget
  obtain rfl : g = g' := by
    rw [hgather] at hg'; exact Except.ok.inj hg'
  refine ⟨adv, hreading.at_advance hat trackers, ?_⟩
  intro f hf m hm r hr
  have hsplit : f.2.take (adv f.1) = f.2.take (pos f.1) ++ (f.2.take (adv f.1)).drop (pos f.1) := by
    conv_lhs => rw [← take_append_drop (pos f.1) (f.2.take (adv f.1)), take_take,
      min_eq_left (hreading.bounds f hf).1]
  rw [hsplit] at hm
  rcases mem_append.mp hm with hm | hm
  · exact hmono r (hsettled f hf m hm r hr)
  · exact hread r (hreading.mem_recordsOf.mpr ⟨f, hf, m, hm, hr⟩)

theorem exists_member_of_mem_recordsOf {budget : ℕ} {g : Gather} (h : Accounted J Settled v log c)
    (hgather : gatherNewRecords R (J.tree v) c.files budget = .ok g) {r : Record} (hr : r ∈ recordsOf R g) :
    ∃ f ∈ J.files, ∃ m ∈ f.2, r ∈ m.records ∧ ∀ r' ∈ m.records, r' ∈ recordsOf R g := by
  obtain ⟨pos, hat, -⟩ := h
  obtain ⟨g', adv, hg', hreading, -⟩ := gatherNewRecords_reading hat budget
  obtain rfl : g = g' := by
    rw [hgather] at hg'; exact Except.ok.inj hg'
  obtain ⟨f, hf, m, hm, hrm⟩ := hreading.mem_recordsOf.mp hr
  refine ⟨f, hf, m, mem_of_mem_take (mem_of_mem_drop hm), hrm, ?_⟩
  intro r' hr'; exact hreading.mem_recordsOf.mpr ⟨f, hf, m, hm, hr'⟩

end Accounted

end CryptoPilot.Streams
