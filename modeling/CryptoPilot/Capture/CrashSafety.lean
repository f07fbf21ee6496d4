/- # CrashSafety — what a reader finds after any failures and deaths of the writer.

Every hour file is, at every moment, the members of the log followed by a torn tail, and a marked
destination has no tail (`Sound`).  So the records of the flushes that returned are there, in order;
what is there twice was written whole by an append that then failed; and an offset that was the end
of a member stays one. -/
import CryptoPilot.Capture.Members
import CryptoPilot.Capture.SegmentWriter

namespace CryptoPilot.Capture

open List Function Prod

open CryptoPilot.Lib (Bytes Json Record Inflater)

/-! # The member of a group -/

section Payload

variable {C : Codec}

/-- A record that the reader accepts and that its JSON text gives back on one line. -/
structure Journalable (C : Codec) (r : Record) : Prop where
  checked (offset : ℕ) : checkRecord offset (.obj r) = .ok r
  round_trip : C.loads (C.dumps r) = some (.obj r)
  one_line : '\n' ∉ (C.dumps r).toList
  not_blank : C.dumps r ≠ ""

theorem decodeUtf8_encodeUtf8 (text : String) : decodeUtf8 (encodeUtf8 text) = some text := by
  show String.fromUTF8? text.toUTF8 = some text; exact dif_pos text.isValidUTF8

variable {items : List Item}

theorem splitLines_groupText (h : ∀ i ∈ items, '\n' ∉ (C.dumps i.record).toList) :
    splitLines (groupText C items) = items.map (fun i => C.dumps i.record) ++ [""] := by
  induction items with
  | nil => simp [splitLines, groupText]
  | cons i rest ih =>
    have hrest := ih (fun j hj => h j (mem_cons_of_mem _ hj))
    have hi := h i mem_cons_self
    simp only [splitLines, groupText, map_cons, String.join_cons, String.toList_append] at hrest ⊢
    rw [show ("\n" : String).toList = ['\n'] from rfl, append_assoc, singleton_append,
      splitOn_append_cons_self_of_not_mem hi, map_cons, hrest]
    simp

/-- **The member of a group holds its records.** -/
theorem memberRecords_groupText (h : ∀ i ∈ items, Journalable C i.record) (offset : ℕ) :
    memberRecords C offset (encodeUtf8 (groupText C items)) = .ok (items.map Item.record) := by
  have hlines := splitLines_groupText (fun i hi => (h i hi).one_line)
  have hfilter : (splitLines (groupText C items)).filter (· ≠ "") = items.map (fun i => C.dumps i.record) := by
    rw [hlines, filter_append]
    have hkeep : (items.map (fun i => C.dumps i.record)).filter (· ≠ "") =
        items.map (fun i => C.dumps i.record) := by
      rw [filter_eq_self]
      intro line hline
      obtain ⟨i, hi, rfl⟩ := mem_map.mp hline; simpa using (h i hi).not_blank
    rw [hkeep]; simp
  rw [memberRecords, decodeUtf8_encodeUtf8]
  show ((splitLines (groupText C items)).filter (· ≠ "")).mapM (lineRecord C offset) = _
  rw [hfilter]
  clear hlines hfilter
  induction items with
  | nil => rfl
  | cons i rest ih =>
    have hi := h i mem_cons_self
    have hline : lineRecord C offset (C.dumps i.record) = .ok i.record := by
      simp only [lineRecord, hi.round_trip, hi.checked]
    rw [map_cons, mapM_cons, hline, ih (fun j hj => h j (mem_cons_of_mem _ hj))]
    rfl

theorem valid_memberBytes (h : ∀ i ∈ items, Journalable C i.record) (stamp : ℕ) :
    Member.Valid C ⟨memberBytes C stamp items, items.map Item.record⟩ :=
  ⟨_, C.gzip.frame_compress stamp _, C.gzip.magic_compress stamp _, memberRecords_groupText h⟩

end Payload

/-! # The groups of a buffer -/

section Groups

variable {stream : Stream} {slot : Slot}

def itemsAt (gs : List (SegmentPath × List Item)) (p : SegmentPath) : List Item :=
  (gs.filter (fun g => g.1 = p)).flatMap snd

def Item.goesTo (stream : Stream) (slot : Slot) (p : SegmentPath) (i : Item) : Bool :=
  (destination stream slot i.record).toOption = some p

theorem keys_setdefaultAppend (dest : SegmentPath) (item : Item) :
    ∀ {gs : List (SegmentPath × List Item)}, (gs.map fst).Nodup →
      ((setdefaultAppend gs dest item).map fst).Nodup ∧
      ∀ p ∈ (setdefaultAppend gs dest item).map fst, p = dest ∨ p ∈ gs.map fst
  | [], _ => by simp [setdefaultAppend]
  | (path, items) :: rest, hnodup => by
    obtain ⟨hnot, hrest⟩ := nodup_cons.mp hnodup
    rw [setdefaultAppend]
    split
    · exact ⟨hnodup, fun p hp => Or.inr hp⟩
    · next hne =>
      obtain ⟨ih, ihmem⟩ := keys_setdefaultAppend dest item hrest
      refine ⟨nodup_cons.mpr ⟨?_, ih⟩, ?_⟩
      · intro hmem
        rcases ihmem path hmem with heq | hin
        · exact hne heq
        · exact hnot hin
      · intro p hp
        rcases mem_cons.mp hp with rfl | hp
        · exact Or.inr mem_cons_self
        · rcases ihmem p hp with heq | hin
          · exact Or.inl heq
          · exact Or.inr (mem_cons_of_mem _ hin)

theorem itemsAt_setdefaultAppend (dest p : SegmentPath) (item : Item) :
    ∀ {gs : List (SegmentPath × List Item)}, (gs.map fst).Nodup →
      itemsAt (setdefaultAppend gs dest item) p = itemsAt gs p ++ if dest = p then [item] else []
  | [], _ => by
    by_cases h : dest = p <;> simp [setdefaultAppend, itemsAt, h]
  | (path, items) :: rest, hnodup => by
    obtain ⟨hnot, hrest⟩ := nodup_cons.mp hnodup
    rw [setdefaultAppend]
    split
    · next heq =>
      subst heq
      by_cases h : path = p
      · -- the destination has no other group
        have hnone : rest.filter (fun g => g.1 = p) = [] := by
          rw [filter_eq_nil_iff]
          intro g hg hgp; exact hnot (h ▸ mem_map.mpr ⟨g, hg, by simpa using hgp⟩)
        simp [itemsAt, h, hnone]
      · simp [itemsAt, h]
    · have ih := itemsAt_setdefaultAppend dest p item hrest
      unfold itemsAt at ih ⊢
      by_cases h : path = p <;> simp [h, ih]

structure Grouped (stream : Stream) (slot : Slot) (buffer : List Item) (gs : List (SegmentPath × List Item)) :
    Prop where
  keys : (gs.map fst).Nodup
  items (p : SegmentPath) : itemsAt gs p = buffer.filter (Item.goesTo stream slot p)

variable {buffer : List Item} {gs : List (SegmentPath × List Item)}

theorem groups_grouped (h : groups stream slot buffer = .ok gs) : Grouped stream slot buffer gs := by
  -- the invariant of the loop, over the part of the buffer already grouped
  have hloop : ∀ (rest done : List Item) (acc gs : List (SegmentPath × List Item)),
      Grouped stream slot done acc →
      rest.foldlM (fun acc item => do
        return setdefaultAppend acc (← destination stream slot item.record) item) acc =
        Except.ok (ε := JournalError) gs → Grouped stream slot (done ++ rest) gs := by
    intro rest
    induction rest with
    | nil =>
      intro done acc gs hacc hrun; cases hrun; simpa using hacc
    | cons item rest ih =>
      intro done acc gs hacc hrun
      rw [foldlM_cons] at hrun
      cases hdest : destination stream slot item.record with
      | error e =>
        rw [hdest] at hrun; cases hrun
      | ok dest =>
        rw [hdest] at hrun
        have hnext : Grouped stream slot (done ++ [item]) (setdefaultAppend acc dest item) := by
          refine ⟨(keys_setdefaultAppend _ _ hacc.keys).1, ?_⟩
          intro p
          have hgoes : Item.goesTo stream slot p item = decide (dest = p) := by
            simp [Item.goesTo, hdest, Except.toOption]
          rw [itemsAt_setdefaultAppend _ _ _ hacc.keys, hacc.items]
          by_cases hp : dest = p <;> simp [hgoes, hp]
        have := ih (done ++ [item]) (setdefaultAppend acc dest item) gs hnext hrun
        rwa [append_assoc] at this
  exact hloop buffer [] [] gs ⟨by simp, by simp [itemsAt]⟩ h

theorem Grouped.group {buffer items : List Item} {p : SegmentPath}
    (h : Grouped stream slot buffer gs) (hmem : (p, items) ∈ gs) : items =
    buffer.filter (Item.goesTo stream slot p) := by
  rw [← h.items p, itemsAt]
  obtain ⟨before, after, rfl⟩ := append_of_mem hmem
  have hkeys := h.keys
  rw [map_append, map_cons, nodup_middle] at hkeys
  have hnot := (nodup_cons.mp hkeys).1
  rw [mem_append, not_or] at hnot
  have hbefore : before.filter (fun g => g.1 = p) = [] := by
    rw [filter_eq_nil_iff]
    intro g hg hgp; exact hnot.1 (mem_map.mpr ⟨g, hg, by simpa using hgp⟩)
  have hafter : after.filter (fun g => g.1 = p) = [] := by
    rw [filter_eq_nil_iff]
    intro g hg hgp; exact hnot.2 (mem_map.mpr ⟨g, hg, by simpa using hgp⟩)
  simp [filter_append, hbefore, hafter]

theorem Grouped.mem_buffer
    {g : SegmentPath × List Item} {i : Item} (h : Grouped stream slot buffer gs) (hg : g ∈ gs) (hi : i ∈ g.2) :
    i ∈ buffer ∧ Item.goesTo stream slot g.1 i = true := by
  rw [h.group hg, mem_filter] at hi; exact hi

theorem Grouped.disjoint
    (h : Grouped stream slot buffer gs) (hidents : (buffer.map Item.ident).Nodup) :
    gs.Pairwise (fun a b => ∀ i ∈ a.2, ∀ j ∈ b.2, i.ident ≠ j.ident) := by
  have hkeys := h.keys
  rw [List.Nodup, pairwise_map] at hkeys
  refine hkeys.imp_of_mem ?_
  intro a b ha hb hne i hi j hj heq
  obtain ⟨hib, higo⟩ := h.mem_buffer ha hi
  obtain ⟨hjb, hjgo⟩ := h.mem_buffer hb hj
  have hij : i = j := inj_on_of_nodup_map hidents hib hjb heq
  subst hij
  simp only [Item.goesTo, decide_eq_true_eq] at higo hjgo
  exact hne (Option.some.inj (higo.symm.trans hjgo))

end Groups

/-! # The invariant of the writer -/

def Entry.member (e : Entry) : Member := ⟨e.bytes, e.items.map Item.record⟩

def World.entries (w : World) (p : SegmentPath) : List Entry := w.log.filter (fun e => e.path = p)

def World.members (w : World) (p : SegmentPath) : List Member := (w.entries p).map Entry.member

def World.held (w : World) (p : SegmentPath) : List Item := (w.entries p).flatMap Entry.items

/-- The writer between two calls; `G` are the records that may have been added. -/
structure Sound (C : Codec) (stream : Stream) (slot : Slot) (G : Record → Prop) (w : World) : Prop where
  files (p : SegmentPath) : ∃ tail, (w.disk p).getD [] = image (w.members p) tail ∧ Torn C.gzip.toInflater tail ∧
    (p ∈ w.writer.repaired → tail = [])
  buffered : ∀ i ∈ w.writer.buffer, G i.record
  logged : ∀ e ∈ w.log, e.member.Valid C ∧ (e.items.map Item.ident).Nodup ∧ ∀ i ∈ e.items, G i.record
  idents : (w.writer.buffer.map Item.ident).Nodup
  below : (∀ i ∈ w.writer.buffer, i.ident < w.next) ∧ ∀ e ∈ w.log, ∀ i ∈ e.items, i.ident < w.next
  /-- What was appended and not failed has left the buffer. -/
  settled : ∀ e ∈ w.log, e.ended ≠ .failed → ∀ i ∈ e.items, ∀ j ∈ w.writer.buffer, i.ident ≠ j.ident
  retried : w.log.Pairwise (fun a b => ∀ i ∈ a.items, ∀ j ∈ b.items, i.ident = j.ident → a.ended = .failed)
  acked (p : SegmentPath) : (w.acked.filter (Item.goesTo stream slot p)).Sublist (w.held p)

section Invariant

variable {C : Codec} {stream : Stream} {slot : Slot} {G : Record → Prop} {w w' : World}

section

variable (h : Sound C stream slot G w)

include h

theorem valid_members (p : SegmentPath) : ∀ m ∈ w.members p, m.Valid C := by
  intro m hm
  obtain ⟨e, he, rfl⟩ := mem_map.mp hm; exact (h.logged e (mem_of_mem_filter he)).1

/-- **Whatever failed before, an append begins at the end of the last complete member.** -/
theorem openFile_eq (dest : SegmentPath) : openFile C w dest = .ok (bytesOf (w.members dest)) := by
  obtain ⟨tail, hfile, htorn, hmarked⟩ := h.files dest
  unfold openFile
  cases hdisk : w.disk dest with
  | none =>
    rw [hdisk] at hfile
    have hnil : bytesOf (w.members dest) = [] := (append_eq_nil_iff.mp hfile.symm).1
    rw [hnil]
  | some file =>
    rw [hdisk] at hfile
    subst hfile
    simp only
    split
    · next hmem => rw [hmarked hmem, image, append_nil]
    · rw [repairTornTail_image (valid_members h dest) htorn]; rfl

theorem Sound.forget (hdisk : w'.disk = w.disk) (hlog : w'.log = w.log)
    (hrepaired : ∀ p ∈ w'.writer.repaired, p ∈ w.writer.repaired)
    (hbuffer : w'.writer.buffer.Sublist w.writer.buffer) (hnext : w'.next = w.next) (hacked : w'.acked = w.acked) :
    Sound C stream slot G w' where
  files p := by
    obtain ⟨tail, hfile, htorn, hmarked⟩ := h.files p
    refine ⟨tail, ?_, htorn, fun hp => hmarked (hrepaired p hp)⟩
    simpa only [hdisk, World.members, World.entries, hlog] using hfile
  buffered i hi := h.buffered i (hbuffer.subset hi)
  logged := by simpa only [hlog] using h.logged
  idents := h.idents.sublist (hbuffer.map _)
  below := by
    refine ⟨fun i hi => ?_, ?_⟩
    · rw [hnext]; exact h.below.1 i (hbuffer.subset hi)
    · simpa only [hlog, hnext] using h.below.2
  settled := by
    intro e he hended i hi j hj
    rw [hlog] at he; exact h.settled e he hended i hi j (hbuffer.subset hj)
  retried := by simpa only [hlog] using h.retried
  acked p := by simpa only [hacked, World.held, World.entries, hlog] using h.acked p

theorem Sound.tear {dest : SegmentPath} {member payload : Bytes} {n : ℕ}
    (hframe : C.gzip.Frame member payload) (hmagic : member.take 2 = gzipMagic) (hn : n < member.length)
    (hunmarked : dest ∉ w.writer.repaired) :
    Sound C stream slot G (w.put dest (bytesOf (w.members dest) ++ member.take n)) where
  files p := by
    by_cases hp : p = dest
    · subst hp
      refine ⟨member.take n, ?_, ?_, fun hmem => absurd hmem hunmarked⟩
      · show (Function.update w.disk p _ p).getD [] = _
        rw [update_self]; rfl
      · exact ⟨member, payload, hframe, hmagic, ⟨member.drop n, take_append_drop n member⟩,
          by rw [length_take]; omega⟩
    · obtain ⟨tail, hfile, htorn, hmarked⟩ := h.files p
      refine ⟨tail, ?_, htorn, hmarked⟩
      show (Function.update w.disk dest _ p).getD [] = _
      rw [update_of_ne hp]; exact hfile
  buffered := h.buffered
  logged := h.logged
  idents := h.idents
  below := h.below
  settled := h.settled
  retried := h.retried
  acked := h.acked

end

theorem entries_note (e : Entry) (p : SegmentPath) :
    (w.note e).entries p = w.entries p ++ if e.path = p then [e] else [] := by
  by_cases h : e.path = p <;> simp [World.entries, World.note, h]

theorem Sound.grow (h : Sound C stream slot G w) {e : Entry} {buffer : List Item}
    (hvalid : e.member.Valid C) (hsub : ∀ i ∈ e.items, i ∈ w.writer.buffer)
    (hnodup : (e.items.map Item.ident).Nodup) (hbuffer : buffer.Sublist w.writer.buffer)
    (hleft : e.ended ≠ .failed → ∀ i ∈ e.items, ∀ j ∈ buffer, i.ident ≠ j.ident)
    (hw' : w' = (w.put e.path (bytesOf (w.members e.path) ++ e.bytes)).note e)
    {repaired : List SegmentPath} (hrepaired : ∀ p ∈ repaired, p = e.path ∨ p ∈ w.writer.repaired) :
    Sound C stream slot G { w' with writer := ⟨buffer, repaired⟩ } := by
  subst hw'
  refine ⟨?_, ?_, ?_, ?_, ?_, ?_, ?_, ?_⟩
  · intro p
    by_cases hp : p = e.path
    · subst hp
      refine ⟨[], ?_, torn_nil C, fun _ => rfl⟩
      show (Function.update w.disk e.path _ e.path).getD [] =
        image (((w.note e).entries e.path).map Entry.member) []
      rw [entries_note]; simp [image, World.members, Entry.member]
    · obtain ⟨tail, hfile, htorn, hmarked⟩ := h.files p
      refine ⟨tail, ?_, htorn, fun hmem => hmarked ((hrepaired p hmem).resolve_left hp)⟩
      show (Function.update w.disk e.path _ p).getD [] = image (((w.note e).entries p).map Entry.member) tail
      rw [update_of_ne hp, entries_note, if_neg (fun heq => hp heq.symm), append_nil]
      exact hfile
  · exact fun i hi => h.buffered i (hbuffer.subset hi)
  · intro e' he'
    rcases mem_append.mp he' with he' | he'
    · exact h.logged e' he'
    · obtain rfl := mem_singleton.mp he'
      exact ⟨hvalid, hnodup, fun i hi => h.buffered i (hsub i hi)⟩
  · exact h.idents.sublist (hbuffer.map _)
  · refine ⟨fun i hi => h.below.1 i (hbuffer.subset hi), ?_⟩
    intro e' he' i hi
    rcases mem_append.mp he' with he' | he'
    · exact h.below.2 e' he' i hi
    · obtain rfl := mem_singleton.mp he'; exact h.below.1 i (hsub i hi)
  · intro e' he' hended i hi j hj
    rcases mem_append.mp he' with he' | he'
    · exact h.settled e' he' hended i hi j (hbuffer.subset hj)
    · obtain rfl := mem_singleton.mp he'; exact hleft hended i hi j hj
  · -- an older entry that shares a record with the new one had failed, or the record had left the buffer
    show (w.log ++ [e]).Pairwise _
    rw [pairwise_append]
    refine ⟨h.retried, pairwise_singleton _ _, ?_⟩
    intro a ha b hb i hi j hj hij
    obtain rfl := mem_singleton.mp hb
    by_contra hended; exact h.settled a ha hended i hi j (hsub j hj) hij
  · intro p
    show (w.acked.filter _).Sublist (((w.note e).entries p).flatMap Entry.items)
    rw [entries_note, flatMap_append]; exact (h.acked p).trans (sublist_append_left _ _)

theorem Sound.unmark (h : Sound C stream slot G w) (dest : SegmentPath) : Sound C stream slot G (w.unmark dest) :=
  h.forget rfl rfl (fun _ hp => mem_of_mem_filter hp) (List.Sublist.refl _) rfl rfl

theorem Sound.reborn (h : Sound C stream slot G w) : Sound C stream slot G w.reborn :=
  h.forget rfl rfl (fun _ hp => absurd hp not_mem_nil) (nil_sublist _) rfl rfl

variable {dest : SegmentPath} {items : List Item}

section

variable (h : Sound C stream slot G w) (hG : ∀ r, G r → Journalable C r) (hsub : ∀ i ∈ items, i ∈ w.writer.buffer)
  (hnodup : (items.map Item.ident).Nodup) (stamp : ℕ) (residue : Residue)

include h hG hsub hnodup stamp residue

theorem Sound.fails :
    Sound C stream slot G ((w.residue dest items (bytesOf (w.members dest)) (memberBytes C stamp items) .failed
      residue).unmark dest) := by
  have hjournal : ∀ i ∈ items, Journalable C i.record := fun i hi => hG _ (h.buffered i (hsub i hi))
  cases residue with
  | untouched => exact h.unmark dest
  | wrote n =>
    simp only [World.residue]
    split
    · next hwhole =>
      rw [take_of_length_le hwhole]
      exact h.grow (e := ⟨dest, items, memberBytes C stamp items, .failed⟩) (valid_memberBytes hjournal stamp)
        hsub hnodup (List.Sublist.refl _) (fun hne => absurd rfl hne) rfl
        (fun p hp => Or.inr (mem_of_mem_filter hp))
    · next hpart =>
      exact (h.unmark dest).tear (C.gzip.frame_compress stamp _) (C.gzip.magic_compress stamp _)
        (Nat.lt_of_not_le hpart) (by simp [World.unmark])

theorem Sound.dies :
    Sound C stream slot G ((w.residue dest items (bytesOf (w.members dest)) (memberBytes C stamp items) .died
      residue).reborn) := by
  have hjournal : ∀ i ∈ items, Journalable C i.record := fun i hi => hG _ (h.buffered i (hsub i hi))
  cases residue with
  | untouched => exact h.reborn
  | wrote n =>
    simp only [World.residue]
    split
    · next hwhole =>
      rw [take_of_length_le hwhole]
      exact h.grow (e := ⟨dest, items, memberBytes C stamp items, .died⟩) (valid_memberBytes hjournal stamp)
        hsub hnodup (nil_sublist _) (fun _ i _ j hj => absurd hj not_mem_nil) rfl
        (fun p hp => absurd hp not_mem_nil)
    · next hpart =>
      exact h.reborn.tear (C.gzip.frame_compress stamp _) (C.gzip.magic_compress stamp _)
        (Nat.lt_of_not_le hpart) not_mem_nil

end

variable (dest) in
theorem Sound.completes (h : Sound C stream slot G w) (hG : ∀ r, G r → Journalable C r)
    (hsub : ∀ i ∈ items, i ∈ w.writer.buffer) (hnodup : (items.map Item.ident).Nodup) (stamp : ℕ) :
    Sound C stream slot G (((w.put dest (bytesOf (w.members dest) ++ memberBytes C stamp items)).note
      ⟨dest, items, memberBytes C stamp items, .completed⟩).settle dest items) := by
  have hjournal : ∀ i ∈ items, Journalable C i.record := fun i hi => hG _ (h.buffered i (hsub i hi))
  refine h.grow (e := ⟨dest, items, memberBytes C stamp items, .completed⟩) (valid_memberBytes hjournal stamp)
    hsub hnodup filter_sublist ?_ rfl ?_
  · intro _ i hi j hj heq
    have := (mem_filter.mp hj).2
    simp only [decide_eq_true_eq] at this; exact this (heq ▸ mem_map_of_mem hi)
  · intro p hp; exact mem_cons.mp hp

def doneEntry (C : Codec) (stamp : ℕ) (g : SegmentPath × List Item) : Entry :=
  ⟨g.1, g.2, memberBytes C stamp g.2, .completed⟩

/-- **The loop of `flush` keeps the invariant**, and has appended every group when it returns. -/
theorem flushGroups_sound (hG : ∀ r, G r → Journalable C r) (stamp : ℕ) (fates : SegmentPath → Fate) :
    ∀ (gs : List (SegmentPath × List Item)) (written : ℕ) {w : World}, Sound C stream slot G w →
      (∀ g ∈ gs, (∀ i ∈ g.2, i ∈ w.writer.buffer) ∧ (g.2.map Item.ident).Nodup) →
      gs.Pairwise (fun a b => ∀ i ∈ a.2, ∀ j ∈ b.2, i.ident ≠ j.ident) →
      Sound C stream slot G (flushGroups C stamp fates gs written w).2 ∧
        ∀ n, (flushGroups C stamp fates gs written w).1 = .returned n →
          (flushGroups C stamp fates gs written w).2.log = w.log ++ gs.map (doneEntry C stamp) ∧
          (flushGroups C stamp fates gs written w).2.acked = w.acked
  | [], written, w, h, _, _ => by
    rw [flushGroups]; exact ⟨h, fun _ _ => ⟨by simp, rfl⟩⟩
  | (dest, items) :: rest, written, w, h, hgroups, hdisjoint => by
    obtain ⟨hsub, hnodup⟩ := hgroups _ mem_cons_self
    obtain ⟨hhead, hrest⟩ := pairwise_cons.mp hdisjoint
    rw [flushGroups, openFile_eq h dest]
    cases hfate : fates dest with
    | completes =>
      have hnext := h.completes dest hG hsub hnodup stamp
      have hrecurse := flushGroups_sound hG stamp fates rest (written + items.length) hnext
        (by
          intro g hg
          refine ⟨fun i hi => ?_, (hgroups g (mem_cons_of_mem _ hg)).2⟩
          refine mem_filter.mpr ⟨(hgroups g (mem_cons_of_mem _ hg)).1 i hi, ?_⟩
          simp only [decide_eq_true_eq, mem_map, not_exists, not_and]
          exact fun j hj heq => hhead g hg j hj i hi heq)
        hrest
      refine ⟨hrecurse.1, fun n hn => ?_⟩
      obtain ⟨hlog, hacked⟩ := hrecurse.2 n hn
      refine ⟨?_, hacked⟩
      rw [hlog]
      show (w.log ++ [doneEntry C stamp (dest, items)]) ++ _ = _
      rw [append_assoc, map_cons, singleton_append]
    | fails residue =>
      cases residue with
      | untouched => exact ⟨h.unmark dest, fun _ hn => by cases hn⟩
      | wrote n => exact ⟨h.fails hG hsub hnodup stamp (.wrote n), fun _ hn => by cases hn⟩
    | dies residue =>
      cases residue with
      | untouched => exact ⟨h.reborn, fun _ hn => by cases hn⟩
      | wrote n => exact ⟨h.dies hG hsub hnodup stamp (.wrote n), fun _ hn => by cases hn⟩

theorem held_append_groups {gs : List (SegmentPath × List Item)} {stamp : ℕ}
    (hlog : w'.log = w.log ++ gs.map (doneEntry C stamp)) (p : SegmentPath) :
    w'.held p = w.held p ++ itemsAt gs p := by
  have hnew : ((gs.map (doneEntry C stamp)).filter (fun e => e.path = p)).flatMap Entry.items = itemsAt gs p := by
    rw [filter_map, flatMap_map]; rfl
  rw [World.held, World.entries, hlog, filter_append, flatMap_append, hnew]; rfl

section

variable (h : Sound C stream slot G w) (hG : ∀ r, G r → Journalable C r)

include h hG

/-- **`flush` keeps the invariant.** -/
theorem flush_sound (stamp : ℕ)
    (fates : SegmentPath → Fate) : Sound C stream slot G (w.flush C stream slot stamp fates).2 := by
  unfold World.flush
  split
  · exact h
  · cases hgs : groups stream slot w.writer.buffer with
    | error e => exact h
    | ok gs =>
      have hgrouped := groups_grouped hgs
      have hflush := flushGroups_sound hG stamp fates gs 0 h
        (by
          intro g hg
          refine ⟨fun i hi => (hgrouped.mem_buffer hg hi).1, ?_⟩
          rw [hgrouped.group hg]
          exact h.idents.sublist (filter_sublist.map _))
        (hgrouped.disjoint h.idents)
      cases hresult : flushGroups C stamp fates gs 0 w with
      | mk outcome w' =>
        rw [hresult] at hflush
        simp only [hresult]
        cases outcome with
        | raised e | died => exact hflush.1
        | returned n =>
          obtain ⟨hlog, -⟩ := hflush.2 n rfl
          -- the flush returned: its records were appended, in the order of the buffer
          have hsound := hflush.1
          refine ⟨hsound.files, hsound.buffered, hsound.logged, hsound.idents, hsound.below, hsound.settled,
            hsound.retried, fun p => ?_⟩
          show ((w.acked ++ w.writer.buffer).filter _).Sublist (w'.held p)
          rw [held_append_groups hlog, filter_append, ← hgrouped.items p]
          exact (h.acked p).append (List.Sublist.refl _)

theorem step_sound {event : Event}
    (hadd : ∀ r, event = .add r → G r) : Sound C stream slot G (w.step C stream slot event) := by
  cases event with
  | add record =>
    rw [World.step]
    split
    · exact h
    · refine ⟨h.files, ?_, h.logged, ?_, ⟨?_, ?_⟩, ?_, h.retried, h.acked⟩
      · intro i hi
        rcases mem_append.mp hi with hi | hi
        · exact h.buffered i hi
        · obtain rfl := mem_singleton.mp hi; exact hadd record rfl
      · rw [map_append, nodup_append]
        refine ⟨h.idents, nodup_singleton _, ?_⟩
        intro a ha b hb hab
        obtain ⟨i, hi, rfl⟩ := mem_map.mp ha
        have hlt := h.below.1 i hi
        have hb' : b = w.next := mem_singleton.mp hb; omega
      · intro i hi
        rcases mem_append.mp hi with hi | hi
        · exact Nat.lt_succ_of_lt (h.below.1 i hi)
        · obtain rfl := mem_singleton.mp hi; exact Nat.lt_succ_self _
      · exact fun e he i hi => Nat.lt_succ_of_lt (h.below.2 e he i hi)
      · intro e he hended i hi j hj
        rcases mem_append.mp hj with hj | hj
        · exact h.settled e he hended i hi j hj
        · obtain rfl := mem_singleton.mp hj; exact (h.below.2 e he i hi).ne
  | discardOldest count => exact h.forget rfl rfl (fun _ hp => hp) (drop_sublist _ _) rfl rfl
  | flush stamp fates => exact flush_sound h hG stamp fates
  | death => exact h.reborn

end

theorem init_sound (C : Codec) (stream : Stream) (slot : Slot) (G : Record → Prop) :
    Sound C stream slot G World.init where
  files _ := ⟨[], rfl, torn_nil C, fun _ => rfl⟩
  buffered _ hi := absurd hi not_mem_nil
  logged _ he := absurd he not_mem_nil
  idents := nodup_nil
  below := ⟨fun _ hi => absurd hi not_mem_nil, fun _ he => absurd he not_mem_nil⟩
  settled _ he := absurd he not_mem_nil
  retried := List.Pairwise.nil
  acked _ := List.Sublist.refl _

/-- **Every run keeps the invariant.** -/
theorem run_sound (hG : ∀ r, G r → Journalable C r) {events : List Event} (hadd : ∀ r, .add r ∈ events → G r) :
    Sound C stream slot G (run C stream slot events) := by
  have hfold : ∀ (events : List Event) (w : World), (∀ r, .add r ∈ events → G r) → Sound C stream slot G w →
      Sound C stream slot G (events.foldl (World.step C stream slot) w) := by
    intro events
    induction events with
    | nil => exact fun w _ h => h
    | cons event rest ih =>
      intro w hadd h
      apply ih _ (fun r hr => hadd r (mem_cons_of_mem _ hr))
      exact step_sound h hG (fun r hr => hadd r (hr ▸ mem_cons_self))
  exact hfold events _ hadd (init_sound C stream slot G)

end Invariant

/-! # What a reader finds -/

/-- `iter_complete_records` on an hour file. -/
def World.read (C : Codec) (w : World) (p : SegmentPath) (start : ℕ) : Yields (Record × ℕ) :=
  iterCompleteRecords C (w.disk p) start

section Reader

variable {C : Codec} {stream : Stream} {slot : Slot} {G : Record → Prop} {w : World}

theorem Sound.read (h : Sound C stream slot G w) {p : SegmentPath} {before after : List Member}
    (hmembers : w.members p = before ++ after) :
    w.read C p (bytesOf before).length = ⟨yieldsFrom (bytesOf before).length after, none⟩ := by
  obtain ⟨tail, hfile, htorn, -⟩ := h.files p
  have hvalid := valid_members h p
  rw [hmembers] at hfile hvalid
  unfold World.read
  cases hdisk : w.disk p with
  | some file =>
    rw [hdisk] at hfile
    subst hfile; exact iterCompleteRecords_image hvalid htorn
  | none =>
    -- no file: there are no members either
    rw [hdisk] at hfile
    have hnil := (append_eq_nil_iff.mp hfile.symm).1
    have hlen := length_le_bytesOf hvalid
    rw [hnil, length_nil, length_append] at hlen
    have hafter : after = [] := length_eq_zero_iff.mp (by omega)
    subst hafter; rfl

theorem Sound.read_zero (h : Sound C stream slot G w) (p : SegmentPath) :
    w.read C p 0 = ⟨yieldsFrom 0 (w.members p), none⟩ :=
  h.read (show w.members p = [] ++ w.members p from rfl)

theorem Sound.read_records (h : Sound C stream slot G w) (p : SegmentPath) :
    (w.read C p 0).items.map fst = (w.held p).map Item.record := by
  rw [h.read_zero, map_fst_yieldsFrom, World.members, World.held, flatMap_map, map_flatMap]; rfl

theorem count_held_le (i : ℕ) : ∀ {entries : List Entry},
    entries.Pairwise (fun a b => ∀ i ∈ a.items, ∀ j ∈ b.items, i.ident = j.ident → a.ended = .failed) →
    (∀ e ∈ entries, (e.items.map Item.ident).Nodup) →
    ((entries.flatMap Entry.items).map Item.ident).count i ≤
      1 + entries.countP (fun e => e.ended = .failed ∧ i ∈ e.items.map Item.ident)
  | [], _, _ => by simp
  | e :: rest, hretried, hnodup => by
    obtain ⟨hhead, hrest⟩ := pairwise_cons.mp hretried
    have ih := count_held_le i hrest (fun e' he' => hnodup e' (mem_cons_of_mem _ he'))
    have hone := nodup_iff_count_le_one.mp (hnodup e mem_cons_self) i
    rw [flatMap_cons, map_append, count_append, countP_cons]
    by_cases hi : i ∈ e.items.map Item.ident
    · by_cases hfailed : e.ended = .failed
      · simp only [hfailed, hi, and_self, decide_true, if_true]; omega
      · -- the append did not fail, so the record left the buffer and no later member holds it
        have hzero : ((rest.flatMap Entry.items).map Item.ident).count i = 0 := by
          rw [count_eq_zero]
          intro hmem
          obtain ⟨j, hj, hji⟩ := mem_map.mp hmem
          obtain ⟨b, hb, hjb⟩ := mem_flatMap.mp hj
          obtain ⟨k, hk, hki⟩ := mem_map.mp hi
          exact hfailed (hhead b hb k hk j hjb (hki.trans hji.symm))
        omega
    · have hzero : (e.items.map Item.ident).count i = 0 := count_eq_zero.mpr hi; omega

variable (C stream slot w) in
theorem step_log (event : Event) : ∃ new, (w.step C stream slot event).log = w.log ++ new := by
  have hgroups : ∀ (stamp : ℕ) (fates : SegmentPath → Fate) (gs : List (SegmentPath × List Item)) (written : ℕ)
      (w : World), ∃ new, (flushGroups C stamp fates gs written w).2.log = w.log ++ new := by
    intro stamp fates gs
    induction gs with
    | nil => exact fun _ w => ⟨[], by simp [flushGroups]⟩
    | cons g rest ih =>
      intro written w
      obtain ⟨dest, items⟩ := g
      have hresidue : ∀ (file member : Bytes) (ended : Ended) (residue : Residue),
          ∃ new, (w.residue dest items file member ended residue).log = w.log ++ new := by
        intro file member ended residue
        cases residue with
        | untouched => exact ⟨[], by simp [World.residue]⟩
        | wrote n =>
          simp only [World.residue]
          split
          · exact ⟨_, rfl⟩
          · exact ⟨[], by simp [World.put]⟩
      rw [flushGroups]
      split
      · exact ⟨[], by simp [World.unmark]⟩
      · exact ⟨[], by simp [World.reborn]⟩
      · exact ⟨[], by simp [World.unmark]⟩
      · obtain ⟨new, hnew⟩ := ih (written + items.length) _
        refine ⟨⟨dest, items, memberBytes C stamp items, .completed⟩ :: new, hnew.trans ?_⟩
        show (w.log ++ [_]) ++ new = _
        rw [append_assoc, singleton_append]
      · exact hresidue _ _ _ _
      · exact hresidue _ _ _ _
  cases event with
  | add record =>
    rw [World.step]
    split <;> exact ⟨[], by simp⟩
  | discardOldest count => exact ⟨[], by simp [World.step]⟩
  | death => exact ⟨[], by simp [World.step, World.reborn]⟩
  | flush stamp fates =>
    show ∃ new, (w.flush C stream slot stamp fates).2.log = w.log ++ new
    unfold World.flush
    split
    · exact ⟨[], by simp⟩
    · split
      · exact ⟨[], by simp⟩
      · next gs _ =>
        obtain ⟨new, hnew⟩ := hgroups stamp fates gs 0 w
        split
        · next hresult =>
          rw [hresult] at hnew; exact ⟨new, hnew⟩
        · exact ⟨new, hnew⟩

variable (C stream slot) in
theorem run_members (events later : List Event) (p : SegmentPath) :
    ∃ new, (run C stream slot (events ++ later)).members p = (run C stream slot events).members p ++ new := by
  have hfold : ∀ (later : List Event) (w : World),
      ∃ new, (later.foldl (World.step C stream slot) w).log = w.log ++ new := by
    intro later
    induction later with
    | nil => exact fun w => ⟨[], by simp⟩
    | cons event rest ih =>
      intro w
      obtain ⟨first, hfirst⟩ := step_log C stream slot w event
      obtain ⟨new, hnew⟩ := ih (w.step C stream slot event)
      exact ⟨first ++ new, by rw [foldl_cons, hnew, hfirst, append_assoc]⟩
  obtain ⟨new, hnew⟩ := hfold later (run C stream slot events)
  refine ⟨(new.filter (fun e => e.path = p)).map Entry.member, ?_⟩
  have hlog : (run C stream slot (events ++ later)).log = (run C stream slot events).log ++ new := by
    rw [run, foldl_append]; exact hnew
  rw [World.members, World.entries, hlog, filter_append, map_append]; rfl

end Reader

/-- What the journal promises to the reader of an hour file, after some calls and after more. -/
structure CrashSafe (C : Codec) (stream : Stream) (slot : Slot) (events later : List Event) (p : SegmentPath) :
    Prop where
  never_raises : ((run C stream slot events).read C p 0).raised = none
  /-- The records of the flushes that returned are yielded, in their order. -/
  acked : (((run C stream slot events).acked.filter (Item.goesTo stream slot p)).map Item.record).Sublist
    (((run C stream slot events).read C p 0).items.map fst)
  /-- Nothing is yielded that was not added. -/
  added : ∀ r ∈ ((run C stream slot events).read C p 0).items.map fst, .add r ∈ events
  held : ((run C stream slot events).read C p 0).items.map fst =
    ((run C stream slot events).held p).map Item.record
  /-- A record is yielded once, and once more for every failed append whose whole member was
  written. -/
  once (i : ℕ) : (((run C stream slot events).held p).map Item.ident).count i ≤
    1 + ((run C stream slot events).entries p).countP (fun e => e.ended = .failed ∧ i ∈ e.items.map Item.ident)
  /-- The end of a member stays the end of a member, at which a reader resumes. -/
  resumes {r : Record} {stop : ℕ} : (r, stop) ∈ ((run C stream slot events).read C p 0).items →
    ((run C stream slot (events ++ later)).read C p stop).raised = none ∧
      ∃ before, ((run C stream slot (events ++ later)).read C p 0).items =
          before ++ ((run C stream slot (events ++ later)).read C p stop).items ∧
        (r, stop) ∈ before ∧ ∀ x ∈ before, x.2 ≤ stop

section Main

variable {C : Codec}

theorem snd_le_of_mem_yieldsFrom {x : Record × ℕ} : ∀ {ms : List Member} {offset : ℕ},
    x ∈ yieldsFrom offset ms → offset ≤ x.2 ∧ x.2 ≤ offset + (bytesOf ms).length
  | [], offset, h => by cases h
  | m :: ms, offset, h => by
    rw [yieldsFrom, mem_append] at h
    rw [bytesOf_cons, length_append]
    rcases h with h | h
    · obtain ⟨r, -, rfl⟩ := mem_map.mp h; omega
    · have := snd_le_of_mem_yieldsFrom h; omega

/-- **Crash safety of the capture journal.**  For records that the reader accepts, whatever fails or
dies. -/
theorem journal_crash_safe (stream : Stream) (slot : Slot) (events later : List Event) (p : SegmentPath)
    (hadd : ∀ r, .add r ∈ events ++ later → Journalable C r) : CrashSafe C stream slot events later p := by
  have hsound : Sound C stream slot (fun r => .add r ∈ events) (run C stream slot events) :=
    run_sound (fun r hr => hadd r (mem_append_left _ hr)) (fun _ hr => hr)
  have hsound' : Sound C stream slot (fun r => .add r ∈ events ++ later) (run C stream slot (events ++ later)) :=
    run_sound hadd (fun _ hr => hr)
  refine ⟨?_, ?_, ?_, hsound.read_records p, ?_, ?_⟩
  · rw [hsound.read_zero]
  · rw [hsound.read_records]; exact (hsound.acked p).map _
  · intro r hr
    rw [hsound.read_records] at hr
    obtain ⟨i, hi, rfl⟩ := mem_map.mp hr
    obtain ⟨e, he, hie⟩ := mem_flatMap.mp hi
    exact (hsound.logged e (mem_of_mem_filter he)).2.2 i hie
  · intro i
    apply count_held_le i (hsound.retried.filter _)
    exact fun e he => (hsound.logged e (mem_of_mem_filter he)).2.1
  · intro r stop hmem
    rw [hsound.read_zero] at hmem
    obtain ⟨before, after, hsplit, hstop, hbefore⟩ := exists_split_of_yieldsFrom hmem
    obtain ⟨new, hnew⟩ := run_members C stream slot events later p
    rw [hsplit, append_assoc] at hnew
    rw [Nat.zero_add] at hstop
    subst hstop
    rw [hsound'.read hnew, hsound'.read_zero, hnew]
    refine ⟨rfl, yieldsFrom 0 before, ?_, hbefore, ?_⟩
    · rw [yieldsFrom_append, Nat.zero_add]
    · intro x hx
      have := (snd_le_of_mem_yieldsFrom hx).2; omega

end Main

/-! # Concrete runs -/

def tableCodec (record : Record) (text : String) : Codec where
  gzip := CryptoPilot.Lib.storedGzip
  dumps r := if r = record then text else ""
  loads s := if s = text then some (.obj record) else none

def sampleRecord : Record :=
  [("v", .int 1), ("stream", .str "force_order"), ("slot", .str "blue"), ("kind", .str "ws_open"),
    ("recv_ns", .int 1700000000000000000)]

def sampleText : String :=
  "\x7b\"v\":1,\"stream\":\"force_order\",\"slot\":\"blue\",\"kind\":\"ws_open\",\"recv_ns\":1700000000000000000\x7d"

/-- The member is whole when the first flush fails, the second one writes the record again, and the
process dies. -/
theorem journal_crash_safe_sample :
    CrashSafe (tableCodec sampleRecord sampleText) .forceOrder .blue
      [.add sampleRecord, .flush 0 (fun _ => .fails (.wrote 5000)), .flush 1 (fun _ => .completes)]
      [.death] ⟨.forceOrder, .blue, 472222⟩ := by
  apply journal_crash_safe
  intro r hr
  obtain rfl : r = sampleRecord := by simpa using hr
  exact ⟨fun _ => rfl, by decide +kernel, by decide +kernel, by decide +kernel⟩

/-- The writer takes a record of which it only needs `recv_ns`. -/
def bareRecord : Record := [("recv_ns", .int 0)]

/-- **`add` accepts a record that the reader refuses**: after one flush that returned, reading the
hour raises. -/
theorem bare_record_refused :
    ((run (tableCodec bareRecord "\x7b\"recv_ns\":0\x7d") .bookTicker .blue
        [.add bareRecord, .flush 0 (fun _ => .completes)]).read
      (tableCodec bareRecord "\x7b\"recv_ns\":0\x7d") ⟨.bookTicker, .blue, 0⟩ 0).raised =
      some (.lacks 0 "v") := by
  decide +kernel

end CryptoPilot.Capture
