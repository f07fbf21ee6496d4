/- # JournalFileRuns — a journal whose appends fail.

A process that goes on after an append raised keeps what memory says and appends behind what the
file says.  The two agree up to the schema marker (`Reproducible`) as long as every append finds the
file ended by a newline and, if it raises, leaves less than the JSON text of its record. -/
import Mathlib.Data.Rat.Encodable
import CryptoPilot.Live.JournalLines

namespace CryptoPilot.Live

open CryptoPilot.Lib List
open CryptoPilot.Lib.JsonText (lbrace Printable printable_dumps)
open CryptoPilot.Lib.JsonLex (ObjectText Piece Unclosed unclosed_behind_object)

/-! ## §1 Journals up to the schema marker -/

theorem apply_schema_comm (j : Journal) (r : Record) : (j.apply .schema).apply r = (j.apply r).apply .schema := by
  cases r with
  | observed orderId qty => by_cases h : j.observedLegacy.get orderId 0 < qty <;> simp [Journal.apply, h]
  | _ => rfl

theorem hasSchema_apply {r : Record} (h : r ≠ .schema) (j : Journal) : (j.apply r).hasSchema = j.hasSchema := by
  cases r with
  | schema => exact absurd rfl h
  | observed orderId qty => by_cases h : j.observedLegacy.get orderId 0 < qty <;> simp [Journal.apply, h]
  | _ => rfl

variable {j k : Journal} {fills : List JournalFill}

theorem eq_of_apply_schema (h : j.apply .schema = k.apply .schema)
    (hschema : j.hasSchema = k.hasSchema) : j = k := by
  cases j
  cases k
  simp_all [Journal.apply]

theorem apply_schema_of_hasSchema {j : Journal} (h : j.hasSchema = true) : j.apply .schema = j := by
  cases j
  simp_all [Journal.apply]

theorem SameJournal.apply (h : SameJournal j k) (r : Record) : SameJournal (j.apply r) (k.apply r) := by
  rcases h with rfl | rfl
  · exact .inl rfl
  · exact .inr (apply_schema_comm j r)

theorem SameJournal.schema (h : SameJournal j k) : SameJournal j (k.apply .schema) := by
  rcases h with rfl | rfl
  · exact .inr rfl
  · exact .inr (apply_schema_of_hasSchema rfl)

theorem SameJournal.apply_iff (h : SameJournal j k) (r : Record) :
    SameJournal j (k.apply r) ↔ SameJournal j (j.apply r) := by
  rcases h with rfl | rfl
  · exact Iff.rfl
  by_cases hr : r = .schema
  · subst hr; exact ⟨fun _ => .inr rfl, fun _ => .inr (apply_schema_of_hasSchema rfl)⟩
  rw [apply_schema_comm]
  constructor
  · rintro (heq | heq)
    · have hschema : (j.apply r).hasSchema = true := by
        rw [hasSchema_apply hr, ← heq]; rfl
      exact .inl (by rwa [apply_schema_of_hasSchema hschema] at heq)
    · exact .inl (eq_of_apply_schema heq (hasSchema_apply hr j))
  · exact SameJournal.schema

def Contiguous (fills : List JournalFill) : Prop :=
  ∀ (i : ℕ) (f : JournalFill), fills[i]? = some f → f.fillSeq = (i : ℤ)

theorem SameJournal.fills_eq (h : SameJournal j k) : k.fills = j.fills := by
  rcases h with rfl | rfl <;> rfl

theorem Contiguous.of_append {f : JournalFill} (h : Contiguous (fills ++ [f])) :
    Contiguous fills ∧ f.fillSeq = (fills.length : ℤ) := by
  refine ⟨fun i g hg => h i g ?_, h fills.length f (getElem?_concat_length ..)⟩
  rw [List.getElem?_append_left (List.getElem?_eq_some_iff.mp hg).1]; exact hg

theorem Contiguous.append {f : JournalFill} (h : Contiguous fills)
    (hf : f.fillSeq = (fills.length : ℤ)) : Contiguous (fills ++ [f]) := by
  intro i g hg
  rcases Nat.lt_or_ge i fills.length with hi | hi
  · rw [List.getElem?_append_left hi] at hg; exact h i g hg
  · rw [getElem?_append_right hi] at hg
    obtain ⟨hlt, rfl⟩ := List.getElem?_eq_some_iff.mp hg
    rw [length_singleton] at hlt
    rw [getElem_singleton, hf, show i = fills.length by omega]

theorem fills_apply {r : Record} (h : ∀ f, r ≠ .fill f) (j : Journal) :
    (j.apply r).fills = j.fills ∧ (j.apply r).nextFillSeq = j.nextFillSeq := by
  cases r with
  | fill f => exact absurd rfl (h f)
  | observed orderId qty =>
    by_cases hqty : j.observedLegacy.get orderId 0 < qty <;> simp [Journal.apply, hqty]
  | _ => exact ⟨rfl, rfl⟩

theorem nextFillSeq_load (records : List Record) (h : Contiguous (Journal.load records).fills) :
    (Journal.load records).nextFillSeq = (Journal.load records).fills.length := by
  induction records using reverseRecOn with
  | nil => rfl
  | append_singleton records r ih =>
    rw [Journal.load_append] at h ⊢
    by_cases hr : ∃ f, r = .fill f
    · obtain ⟨f, rfl⟩ := hr
      obtain ⟨hprior, hf⟩ := Contiguous.of_append h
      have hnext := ih hprior
      show max _ (f.fillSeq + 1).toNat = ((Journal.load records).fills ++ [f]).length
      rw [length_append, length_singleton]; omega
    · obtain ⟨hfills, hnext⟩ := fills_apply (fun f hf => hr ⟨f, hf⟩) (Journal.load records)
      rw [hfills] at h
      rw [hfills, hnext, ih h]

/-! ## §2 Reproducible states and harmless appends -/

section Appends

variable (P : JournalTexts)

/-- The file loads at any time, as the journal in memory up to the schema marker; its fills are
numbered from 0. -/
def Reproducible (s : JournalFile) : Prop :=
  ∀ now, ∃ read, readJournal P now s.text = .ok read ∧ SameJournal s.journal (Journal.load read.1) ∧
    Contiguous (Journal.load read.1).fills

def Ended (text : List Char) : Prop := text = [] ∨ text.getLast? = some newline

def wholeLines (text : List Char) : List Char := (text.reverse.dropWhile fun c => decide (c ≠ newline)).reverse

def TailUncounted (s : JournalFile) : Prop :=
  ∀ now, ∃ read, readJournal P now (wholeLines s.repaired) = .ok read ∧ SameJournal s.journal (Journal.load read.1)

/-- An append that returns finds the file ended by a newline. -/
def AppendHarmless (s : JournalFile) (r : Record) : AppendOutcome → Prop
  | .returned => Ended s.repaired
  | .raisedEarly => True
  | .raised persisted =>
    (Ended s.repaired ∧ (persisted < (r.json P).length ∨ SameJournal s.journal (s.journal.apply r))) ∨
      (¬Ended s.repaired ∧ (persisted = 0 ∨ persisted ≤ (r.json P).length ∧ TailUncounted P s))

variable {P}

/-- The file of a journal, as lines and a tail, and the journal as memory has it. -/
structure Mirrored (s : JournalFile) (lines : List (JournalLine P)) (tail : JournalTail P) : Prop where
  text : s.text = fileOf lines ++ tail.text
  torn : s.tornOffset = none ∨ s.tornOffset = tail.offset (fileOf lines).length
  same : SameJournal s.journal (Journal.load (lines.map JournalLine.record ++ tail.records))
  contiguous : Contiguous (Journal.load (lines.map JournalLine.record ++ tail.records)).fills

variable {tail : JournalTail P} {s : JournalFile} {lines : List (JournalLine P)}

theorem Mirrored.sound (h : Mirrored s lines tail) : Reproducible P s := by
  intro now
  have hread := readJournal_file now lines tail
  rw [← h.text] at hread; exact ⟨_, hread, h.same, h.contiguous⟩

theorem Reproducible.same (h : Reproducible P s) (htext : s.text = fileOf lines ++ tail.text) :
    SameJournal s.journal (Journal.load (lines.map JournalLine.record ++ tail.records)) := by
  obtain ⟨read, hread, hsame, -⟩ := h 0
  rw [htext, readJournal_file] at hread; cases hread; exact hsame

theorem ended_nothing (lines : List (JournalLine P)) : Ended (fileOf lines) := by
  cases lines with
  | nil => exact .inl rfl
  | cons line lines => exact .inr (getLast?_lined (cons_ne_nil _ _))

theorem tail_ne_nil (h : tail ≠ .nothing) : tail.text ≠ [] := by
  cases tail with
  | nothing => exact absurd rfl h
  | part text braced printable unclosed =>
    obtain ⟨t, rfl⟩ := braced; exact cons_ne_nil _ _
  | object line object =>
    intro hnil
    have hvisible := line.visible
    rw [show line.text = [] from hnil] at hvisible; cases hvisible

theorem not_ended_tail (lines : List (JournalLine P)) (h : tail ≠ .nothing) :
    ¬Ended (fileOf lines ++ tail.text) := by
  rintro (hnil | hlast)
  · exact tail_ne_nil h (append_eq_nil_iff.mp hnil).2
  · rw [getLast?_append_of_ne_nil _ (tail_ne_nil h)] at hlast
    exact printable_ne_newline (printable_tail tail _ (mem_of_getLast? hlast)) rfl

theorem wholeLines_file (lines : List (JournalLine P)) (tail : JournalTail P) :
    wholeLines (fileOf lines ++ tail.text) = fileOf lines := by
  have htail : ∀ c ∈ tail.text.reverse, decide (c ≠ newline) = true := fun c hc =>
    decide_eq_true (printable_ne_newline (printable_tail tail c (mem_reverse.mp hc)))
  rw [wholeLines, reverse_append, dropWhile_append_of_pos htail]
  rcases ended_nothing lines with hnil | hlast
  · rw [hnil]; rfl
  · rw [getLast?_eq_head?_reverse] at hlast
    obtain ⟨rest, hrest⟩ := head?_eq_some_iff.mp hlast
    rw [hrest, dropWhile_cons_of_neg (by simp), ← hrest, reverse_reverse]

theorem Mirrored.repaired (h : Mirrored s lines tail) :
    ∃ tail' : JournalTail P, s.repaired = fileOf lines ++ tail'.text ∧ tail'.records = tail.records := by
  rw [JournalFile.repaired]
  rcases h.torn with htorn | htorn
  · rw [htorn]; exact ⟨tail, h.text, rfl⟩
  · cases tail with
    | part text braced printable unclosed =>
      rw [htorn, h.text]
      refine ⟨.nothing, ?_, rfl⟩
      show (fileOf lines ++ text).take (fileOf lines).length = fileOf lines ++ []
      rw [take_left, append_nil]
    | nothing =>
      rw [htorn]; exact ⟨.nothing, h.text, rfl⟩
    | object line object =>
      rw [htorn]; exact ⟨.object line object, h.text, rfl⟩

/-! ### Behind the lines -/

variable {r : Record} {k : ℕ}

theorem take_line_of_le (h : k ≤ (r.json P).length) :
    (r.line P).take k = (r.json P).take k := take_append_of_le_length h

theorem take_line_of_lt (h : (r.json P).length < k) : (r.line P).take k = r.line P := by
  refine take_of_length_le ?_
  rw [Record.line, length_append, length_singleton]; omega

theorem piece_json (hr : r.Distinct) (h : k ≠ 0) : Piece ((r.json P).take k) := by
  refine ⟨fun hnil => ?_, r.json P, objectText_json P hr, take_prefix _ _⟩
  obtain ⟨t, ht⟩ := json_braced P hr
  rcases take_eq_nil_iff.mp hnil with hzero | hempty
  · exact h hzero
  · rw [ht] at hempty; cases hempty

theorem printable_json (hr : r.Distinct) : ∀ c ∈ r.json P, Printable c :=
  (JournalLine.ofRecord P r hr).printable

theorem file_take (hr : r.Distinct) (lines : List (JournalLine P)) (k : ℕ) :
    ∃ (lines' : List (JournalLine P)) (tail' : JournalTail P),
      fileOf lines ++ (r.line P).take k = fileOf lines' ++ tail'.text ∧
      lines'.map JournalLine.record ++ tail'.records =
        lines.map JournalLine.record ++ if k < (r.json P).length then [] else [r] := by
  rcases lt_trichotomy k (r.json P).length with hlt | heq | hgt
  · rw [if_pos hlt, take_line_of_le hlt.le]
    by_cases hzero : k = 0
    · exact ⟨lines, .nothing, by rw [hzero]; rfl, rfl⟩
    · have hpiece := piece_json (P := P) hr hzero
      have hcut : (r.json P).take k ≠ r.json P := fun heq => by
        have hlen := congrArg List.length heq
        rw [length_take] at hlen; omega
      obtain ⟨t, ht⟩ := json_braced P hr
      have hbraced : ∃ t, (r.json P).take k = lbrace :: t := by
        obtain ⟨k, rfl⟩ := Nat.exists_eq_succ_of_ne_zero hzero
        rw [ht]; exact ⟨_, rfl⟩
      exact ⟨lines, .part _ hbraced (fun c hc => printable_json hr c (mem_of_mem_take hc))
        ((objectText_json P hr).unclosed_of_cut ( take_prefix _ _) hpiece.1 hcut), rfl, rfl⟩
  · rw [if_neg (by omega), take_line_of_le heq.le, heq, take_length]
    exact ⟨lines, .object (JournalLine.ofRecord P r hr) (objectText_json P hr), rfl, rfl⟩
  · rw [if_neg (by omega), take_line_of_lt hgt]
    refine ⟨lines ++ [JournalLine.ofRecord P r hr], .nothing, ?_, ?_⟩
    · rw [fileOf_append, fileOf_record]; exact (append_nil _).symm
    · rw [map_append]; exact append_nil _

theorem unclosed_behind_tail (h : tail ≠ .nothing) {p : List Char} (hp : Piece p) :
    (∃ t, tail.text ++ p = lbrace :: t) ∧ Unclosed (tail.text ++ p) := by
  cases tail with
  | nothing => exact absurd rfl h
  | part text braced printable unclosed =>
    obtain ⟨t, rfl⟩ := braced; exact ⟨⟨t ++ p, rfl⟩, unclosed.append hp⟩
  | object line object =>
    obtain ⟨c, t, ht, -⟩ := object.lettered
    refine ⟨⟨JsonText.quote :: c :: t ++ p, ?_⟩, unclosed_behind_object object hp⟩
    show line.text ++ p = _
    rw [ht]; rfl

theorem tail_take (hr : r.Distinct) (htail : tail ≠ .nothing) (hzero : k ≠ 0) (hk : k ≤ (r.json P).length) :
    ∃ tail' : JournalTail P, tail.text ++ (r.line P).take k = tail'.text ∧ tail'.records = [] := by
  obtain ⟨hbraced, hunclosed⟩ := unclosed_behind_tail htail (piece_json (P := P) hr hzero)
  rw [take_line_of_le hk]
  refine ⟨.part _ hbraced (fun c hc => ?_) hunclosed, rfl, rfl⟩
  rcases mem_append.mp hc with hc | hc
  · exact printable_tail tail c hc
  · exact printable_json hr c (mem_of_mem_take hc)

/-- The file has a line that is no JSON, and nothing is cut off any more. -/
def Corrupt (P : JournalTexts) (s : JournalFile) : Prop :=
  s.tornOffset = none ∧ ∃ (lines : List (JournalLine P)) (bad rest : List Char), (∃ t, bad = lbrace :: t) ∧
    (∀ c ∈ bad, Printable c) ∧ Unclosed bad ∧ s.text = fileOf lines ++ (bad ++ newline :: rest)

theorem Corrupt.not_sound (h : Corrupt P s) : ¬Reproducible P s := by
  intro hsound
  obtain ⟨-, lines, bad, rest, braced, printable, unclosed, htext⟩ := h
  obtain ⟨read, hread, -⟩ := hsound 0
  rw [htext, readJournal_corrupt 0 lines braced printable unclosed rest] at hread; cases hread

theorem Corrupt.record (h : Corrupt P s) (r : Record) (o : AppendOutcome) : Corrupt P (s.record P r o).1 := by
  obtain ⟨htorn, lines, bad, rest, braced, printable, unclosed, htext⟩ := h
  have hrepaired : s.repaired = s.text := by rw [JournalFile.repaired, htorn]
  cases o with
  | raisedEarly => exact ⟨htorn, lines, bad, rest, braced, printable, unclosed, htext⟩
  | returned =>
    refine ⟨rfl, lines, bad, rest ++ r.line P, braced, printable, unclosed, ?_⟩
    show s.repaired ++ r.line P = _
    rw [hrepaired, htext]; simp
  | raised k =>
    refine ⟨rfl, lines, bad, rest ++ (r.line P).take k, braced, printable, unclosed, ?_⟩
    show s.repaired ++ (r.line P).take k = _
    rw [hrepaired, htext]; simp

theorem corrupt_line (hr : r.Distinct) (lines : List (JournalLine P))
    (htail : tail ≠ .nothing) (j : Journal) : Corrupt P ⟨fileOf lines ++ tail.text ++ r.line P, j, none⟩ := by
  have hpiece : Piece (r.json P) := by
    obtain ⟨t, ht⟩ := json_braced P hr
    exact ⟨by rw [ht]; exact cons_ne_nil _ _, r.json P, objectText_json P hr, prefix_rfl⟩
  obtain ⟨hbraced, hunclosed⟩ := unclosed_behind_tail htail hpiece
  refine ⟨rfl, lines, tail.text ++ r.json P, [], hbraced, fun c hc => ?_, hunclosed, ?_⟩
  · rcases mem_append.mp hc with hc | hc
    · exact printable_tail tail c hc
    · exact printable_json hr c hc
  · show fileOf lines ++ tail.text ++ (r.json P ++ [newline]) = _; simp

/-! ### One append -/

variable {s : JournalFile} {lines : List (JournalLine P)} {tail : JournalTail P} {r : Record}

theorem contiguous_apply {records : List Record} (hsame : SameJournal s.journal (Journal.load records))
    (hcont : Contiguous (Journal.load records).fills)
    (hseq : ∀ f, r = .fill f → f.fillSeq = (s.journal.nextFillSeq : ℤ)) :
    Contiguous (Journal.load (records ++ [r])).fills := by
  rw [Journal.load_append]
  by_cases hr : ∃ f, r = .fill f
  · obtain ⟨f, rfl⟩ := hr
    refine hcont.append ?_
    rw [hseq f rfl, ← hsame.nextFillSeq_eq, nextFillSeq_load records hcont]
  · rwa [(fills_apply (fun f hf => hr ⟨f, hf⟩) _).1]

theorem not_fill_of_same {j : Journal} (h : SameJournal j (j.apply r)) (f : JournalFill) : r ≠ .fill f := by
  rintro rfl
  have hfills : j.fills ++ [f] = j.fills := h.fills_eq; simp at hfills

theorem record_tracked (h : Mirrored s lines tail) (hr : r.Distinct)
    (hseq : ∀ f, r = .fill f → f.fillSeq = (s.journal.nextFillSeq : ℤ)) {o : AppendOutcome}
    (hharm : AppendHarmless P s r o) :
    ∃ (lines' : List (JournalLine P)) (tail' : JournalTail P), Mirrored (s.record P r o).1 lines' tail' := by
  obtain ⟨found, hfound, hrecords⟩ := h.repaired
  have hsame := h.same
  have hcont := h.contiguous
  rw [← hrecords] at hsame hcont
  cases o with
  | raisedEarly => exact ⟨lines, tail, h⟩
  | returned =>
    have hnothing : found = .nothing := by
      by_contra hne; exact not_ended_tail lines hne (hfound ▸ hharm)
    rw [hnothing] at hfound hsame hcont
    rw [JournalTail.records, append_nil] at hsame hcont
    refine ⟨lines ++ [JournalLine.ofRecord P r hr], .nothing, ?_, .inl rfl, ?_, ?_⟩
    · show s.repaired ++ r.line P = _
      rw [hfound, fileOf_append, fileOf_record]; simp [JournalTail.text]
    · rw [JournalTail.records, append_nil, map_append]
      exact (Journal.load_append _ r).symm ▸ hsame.apply r
    · rw [JournalTail.records, append_nil, map_append]; exact contiguous_apply hsame hcont hseq
  | raised k =>
    rcases hharm with ⟨hended, hcase⟩ | ⟨hended, hcase⟩
    · -- after a whole line the bytes start a line of their own
      have hnothing : found = .nothing := by
        by_contra hne; exact not_ended_tail lines hne (hfound ▸ hended)
      rw [hnothing] at hfound hsame hcont
      rw [JournalTail.records, append_nil] at hsame hcont
      obtain ⟨lines', tail', htext, hread⟩ := file_take hr lines k
      refine ⟨lines', tail', ?_, .inl rfl, ?_, ?_⟩
      · show s.repaired ++ (r.line P).take k = _
        rw [hfound, ← htext]; exact congrArg (fun t => t ++ _) (append_nil _)
      · rw [hread]
        split
        · rwa [append_nil]
        · next hk =>
          rw [Journal.load_append]; exact (hsame.apply_iff r).mpr (hcase.resolve_left hk)
      · rw [hread]
        split
        · rwa [append_nil]
        · next hk =>
          refine contiguous_apply hsame hcont fun f hf => ?_
          exact absurd hf (not_fill_of_same (hcase.resolve_left hk) f)
    · -- after a torn line the bytes only lengthen it
      have hne : found ≠ .nothing := by
        rintro rfl
        refine hended ?_
        rw [hfound, JournalTail.text, append_nil]; exact ended_nothing lines
      by_cases hzero : k = 0
      · subst hzero
        refine ⟨lines, found, ?_, .inl rfl, hsame, hcont⟩
        show s.repaired ++ (r.line P).take 0 = _
        rw [take_zero, append_nil, hfound]
      · obtain ⟨hk, huncounted⟩ := hcase.resolve_left hzero
        obtain ⟨tail', htext, hread⟩ := tail_take hr hne hzero hk
        have hlines : SameJournal s.journal (Journal.load (lines.map JournalLine.record)) := by
          obtain ⟨read, hread, hsame'⟩ := huncounted 0
          have hfile := readJournal_file 0 lines .nothing
          rw [JournalTail.text, append_nil] at hfile
          rw [hfound, wholeLines_file, hfile] at hread
          cases hread; rwa [JournalTail.records, append_nil] at hsame'
        refine ⟨lines, tail', ?_, .inl rfl, ?_, ?_⟩
        · show s.repaired ++ (r.line P).take k = _
          rw [hfound, ← htext, append_assoc]
        · rwa [hread, append_nil]
        · rw [hread, append_nil, hlines.fills_eq, ← hsame.fills_eq]; exact hcont

theorem record_not_sound (h : Mirrored s lines tail) (hr : r.Distinct) {o : AppendOutcome}
    (hharm : ¬AppendHarmless P s r o) :
    ¬Reproducible P (s.record P r o).1 ∧ (o = .returned → Corrupt P (s.record P r o).1) := by
  obtain ⟨found, hfound, hrecords⟩ := h.repaired
  have hsame := h.same
  rw [← hrecords] at hsame
  cases o with
  | raisedEarly => exact absurd trivial hharm
  | returned =>
    have hne : found ≠ .nothing := by
      rintro rfl
      refine hharm ?_
      show Ended s.repaired
      rw [hfound, JournalTail.text, append_nil]; exact ended_nothing lines
    have hcorrupt : Corrupt P (s.record P r .returned).1 := by
      have hline := corrupt_line hr lines hne (s.journal.apply r); rwa [← hfound] at hline
    exact ⟨hcorrupt.not_sound, fun _ => hcorrupt⟩
  | raised k =>
    refine ⟨?_, fun heq => (by cases heq)⟩
    by_cases hended : Ended s.repaired
    · have hnothing : found = .nothing := by
        by_contra hne; exact not_ended_tail lines hne (hfound ▸ hended)
      rw [hnothing, JournalTail.records, append_nil] at hsame
      rw [hnothing, JournalTail.text, append_nil] at hfound
      have hk : ¬k < (r.json P).length := fun hk => hharm (.inl ⟨hended, .inl hk⟩)
      obtain ⟨lines', tail', htext, hread⟩ := file_take hr lines k
      intro hsound
      have hsame' := hsound.same (show s.repaired ++ (r.line P).take k = _ by rw [hfound, htext])
      rw [hread, if_neg hk, Journal.load_append] at hsame'
      exact hharm (.inl ⟨hended, .inr ((hsame.apply_iff r).mp hsame')⟩)
    · have hne : found ≠ .nothing := by
        rintro rfl
        refine hended ?_
        rw [hfound, JournalTail.text, append_nil]; exact ended_nothing lines
      have hzero : k ≠ 0 := fun hzero => hharm (.inr ⟨hended, .inl hzero⟩)
      by_cases hk : k ≤ (r.json P).length
      · intro hsound
        obtain ⟨tail', htext, hread⟩ := tail_take hr hne hzero hk
        have hsame' := hsound.same (show s.repaired ++ (r.line P).take k = fileOf lines ++ tail'.text by
          rw [hfound, ← htext, append_assoc])
        rw [hread, append_nil] at hsame'
        refine hharm (.inr ⟨hended, .inr ⟨hk, fun now => ?_⟩⟩)
        have hfile := readJournal_file now lines .nothing
        rw [JournalTail.text, append_nil, JournalTail.records, append_nil] at hfile
        rw [hfound, wholeLines_file]; exact ⟨_, hfile, hsame'⟩
      · have hcorrupt : Corrupt P (s.record P r (.raised k)).1 := by
          have hline := corrupt_line hr lines hne s.journal
          rw [← hfound, ← take_line_of_lt (not_le.mp hk)] at hline; exact hline
        exact hcorrupt.not_sound

end Appends

/-! ## §3 Recording operations -/

section Calls

variable (P : JournalTexts)

structure JournalStep where
  call : JournalCall
  schema : AppendOutcome
  own : AppendOutcome

def JournalFile.step (s : JournalFile) (step : JournalStep) : JournalFile :=
  (s.call P step.call step.schema step.own).1

def StepHarmless (s : JournalFile) (step : JournalStep) : Prop :=
  match step.call.newRecord s.journal with
  | .error _ => True
  | .ok r =>
    if s.journal.hasSchema then AppendHarmless P s r step.own
    else AppendHarmless P s .schema step.schema ∧
      (step.schema = .returned → AppendHarmless P (s.record P .schema .returned).1 r step.own)

/-- The same process goes on after every operation, also one that raised. -/
def runSteps (s : JournalFile) (steps : List JournalStep) : JournalFile := steps.foldl (JournalFile.step P) s

/-- A process that loaded a file of readable lines, with the fills in it numbered from zero. -/
def Opened (s : JournalFile) : Prop :=
  ∃ (now : ℚ) (lines : List (JournalLine P)) (tail : JournalTail P),
    openJournal P now (fileOf lines ++ tail.text) = .ok s ∧ Contiguous s.journal.fills

variable {P} {s : JournalFile} {lines : List (JournalLine P)} {tail : JournalTail P}

theorem Opened.tracked (h : Opened P s) :
    ∃ (lines : List (JournalLine P)) (tail : JournalTail P), Mirrored s lines tail := by
  obtain ⟨now, lines, tail, hopen, hcont⟩ := h
  rw [openJournal, readJournal_file] at hopen
  cases hopen; exact ⟨lines, tail, rfl, .inr rfl, .inl rfl, hcont⟩

theorem fillSeq_newRecord {j : Journal} {c : JournalCall} {r : Record} (h : c.newRecord j = .ok r) {f : JournalFill}
    (hf : r = .fill f) : f.fillSeq = (j.nextFillSeq : ℤ) := by
  subst hf
  cases c with
  | beginAttempt context distinct | recordTerminal clientOrderId status now => cases h
  | recordSubmit clientOrderId symbol submitSeq attemptSeq side quantity reduceOnly legIndex now =>
    rw [JournalCall.newRecord] at h
    cases hsubmit : j.newSubmit clientOrderId symbol submitSeq attemptSeq side quantity reduceOnly legIndex with
    | error e | ok submit => rw [hsubmit] at h; cases h
  | recordFill draft =>
    rw [JournalCall.newRecord] at h
    cases hfill : j.newFill draft with
    | error e => rw [hfill] at h; cases h
    | ok f' =>
      rw [hfill] at h
      cases h
      rw [(Journal.newFill_eq_ok hfill).1]

section

variable {step : JournalStep} {r : Record} (hr : step.call.newRecord s.journal = .ok r)

include hr

theorem step_of_hasSchema (hschema : s.journal.hasSchema = true) :
    s.step P step = (s.record P r step.own).1 := by
  simp only [JournalFile.step, JournalFile.call, hr, JournalFile.ensureV2Schema, hschema, if_true]

theorem step_of_not_hasSchema (hschema : s.journal.hasSchema = false) :
    s.step P step =
      if step.schema = .returned then ((s.record P .schema .returned).1.record P r step.own).1
      else (s.record P .schema step.schema).1 := by
  simp only [JournalFile.step, JournalFile.call, hr, JournalFile.ensureV2Schema, hschema,
    Bool.false_eq_true, if_false]
  cases step.schema <;> rfl

end

theorem step_cases (h : Mirrored s lines tail) (step : JournalStep) :
    (StepHarmless P s step ∧
        ∃ (lines' : List (JournalLine P)) (tail' : JournalTail P), Mirrored (s.step P step) lines' tail') ∨
      ¬StepHarmless P s step ∧ ¬Reproducible P (s.step P step) := by
  cases hnew : step.call.newRecord s.journal with
  | error e =>
    refine .inl ⟨?_, lines, tail, ?_⟩
    · rw [StepHarmless, hnew]; trivial
    · rw [JournalFile.step, JournalFile.call, hnew]; exact h
  | ok r =>
    have hr := distinct_newRecord hnew
    have hmark : Record.Distinct .schema := trivial
    have hseq : ∀ f, r = .fill f → f.fillSeq = (s.journal.nextFillSeq : ℤ) := fun f => fillSeq_newRecord hnew
    rw [StepHarmless, hnew]
    cases hschema : s.journal.hasSchema with
    | true =>
      rw [step_of_hasSchema hnew hschema]
      by_cases hharm : AppendHarmless P s r step.own
      · exact .inl ⟨hharm, record_tracked h hr hseq hharm⟩
      · exact .inr ⟨hharm, (record_not_sound h hr hharm).1⟩
    | false =>
      rw [step_of_not_hasSchema hnew hschema]
      by_cases hmarker : AppendHarmless P s .schema step.schema
      · obtain ⟨lines₁, tail₁, h₁⟩ := record_tracked h hmark (fun f hf => (by cases hf)) hmarker
        by_cases hreturned : step.schema = .returned
        · rw [if_pos hreturned]
          rw [hreturned] at h₁ hmarker
          by_cases hharm : AppendHarmless P (s.record P .schema .returned).1 r step.own
          · exact .inl ⟨⟨hreturned ▸ hmarker, fun _ => hharm⟩, record_tracked h₁ hr hseq hharm⟩
          · exact .inr ⟨fun hall => hharm (hall.2 hreturned), (record_not_sound h₁ hr hharm).1⟩
        · rw [if_neg hreturned]
          exact .inl ⟨⟨hmarker, fun heq => absurd heq hreturned⟩, lines₁, tail₁, h₁⟩
      · obtain ⟨hunsound, hcorrupt⟩ := record_not_sound h hmark hmarker
        refine .inr ⟨fun hall => hmarker hall.1, ?_⟩
        split
        · next hreturned =>
          -- the corrupt line stays in front of what is written behind it
          have hcorrupt := hcorrupt hreturned
          rw [hreturned] at hcorrupt; exact (hcorrupt.record r step.own).not_sound
        · exact hunsound

/-- A run of operations from a loaded journal: every state is sound exactly if every operation is
harmless in the state that it finds. -/
theorem journal_sound_iff (h : Opened P s) (steps : List JournalStep) :
    (∀ before, before <+: steps → Reproducible P (runSteps P s before)) ↔
      ∀ before step, before ++ [step] <+: steps → StepHarmless P (runSteps P s before) step := by
  obtain ⟨lines, tail, htracked⟩ := h.tracked
  clear h
  induction steps generalizing s lines tail with
  | nil =>
    refine ⟨fun _ before step hprefix => ?_, fun _ before hprefix => ?_⟩
    · exact absurd (prefix_nil.mp hprefix) (append_ne_nil_of_right_ne_nil _ (cons_ne_nil _ _))
    · rw [prefix_nil.mp hprefix]; exact htracked.sound
  | cons step steps ih =>
    have hfirst : [] ++ [step] <+: step :: steps := ⟨steps, rfl⟩
    rcases step_cases htracked step with ⟨hharm, lines', tail', htracked'⟩ | ⟨hharm, hunsound⟩
    · constructor
      · intro hsound before next hprefix
        cases before with
        | nil =>
          obtain ⟨rfl, -⟩ := cons_prefix_cons.mp hprefix; exact hharm
        | cons step' before =>
          obtain ⟨rfl, hrest⟩ := cons_prefix_cons.mp hprefix
          exact (ih lines' tail' htracked').mp
            (fun before hbefore => hsound (step' :: before) (cons_prefix_cons.mpr ⟨rfl, hbefore⟩))
            before next hrest
      · intro hall before hprefix
        cases before with
        | nil => exact htracked.sound
        | cons step' before =>
          obtain ⟨rfl, hrest⟩ := cons_prefix_cons.mp hprefix
          exact (ih lines' tail' htracked').mpr
            (fun before next hbefore => hall (step' :: before) next (cons_prefix_cons.mpr ⟨rfl, hbefore⟩))
            before hrest
    · exact ⟨fun hsound => absurd (hsound [step] hfirst) hunsound, fun hall => absurd (hall [] step hfirst) hharm⟩

end Calls

/-! ## §4 A fill whose fsync fails -/

section Failed

def rationalText (value : ℚ) (text : String) (q : ℚ) : String :=
  if q = value then text else String.ofList ('#' :: Nat.toDigits 10 (Encodable.encode q))

def readRational (value : ℚ) (text s : String) : Option ℚ :=
  if s = text then some value
  else
    match s.toList with
    | '#' :: digits => Encodable.decode (Nat.ofDigitChars 10 digits 0)
    | _ => none

theorem readRational_rationalText {value : ℚ} {text : String} (h : text.toList.head? ≠ some '#') (q : ℚ) :
    readRational value text (rationalText value text q) = some q := by
  rw [rationalText]
  by_cases hq : q = value
  · rw [if_pos hq, readRational, if_pos rfl, hq]
  · have hne : String.ofList ('#' :: Nat.toDigits 10 (Encodable.encode q)) ≠ text := by
      rintro rfl
      rw [String.toList_ofList] at h; exact h rfl
    rw [if_neg hq, readRational, if_neg hne, String.toList_ofList]
    show Encodable.decode (Nat.ofDigitChars 10 (Nat.toDigits 10 (Encodable.encode q)) 0) = _
    rw [Nat.ofDigitChars_ten_toDigits, Encodable.encodek]

def fiveText : FloatVal → List Char
  | .fin q => if q = 5 then ['5', '.', '0'] else Nat.toDigits 10 (Encodable.encode q) ++ ['.', '2', '5']
  | .inf _ => []
  | .nan => []

def readFive (s : List Char) : FloatVal :=
  if s = ['5', '.', '0'] then .fin 5
  else
    match Encodable.decode (Nat.ofDigitChars 10 (s.takeWhile Char.isDigit) 0) with
    | some q => .fin q
    | none => .nan

theorem numeral_fiveText (q : ℚ) : JsonText.Numeral (fiveText (.fin q)) := by
  rw [fiveText]
  split
  · exact ⟨false, 5, ['.', '0'], [], by decide, .inr ⟨['0'], rfl, by decide, JsonText.forall_of_all rfl⟩, .inl rfl,
      .inl (by decide)⟩
  · exact ⟨false, Encodable.encode q, ['.', '2', '5'], [], by simp,
      .inr ⟨['2', '5'], rfl, by decide, JsonText.forall_of_all rfl⟩, .inl rfl, .inl (by decide)⟩

theorem readFive_fiveText (q : ℚ) : readFive (fiveText (.fin q)) = .fin q := by
  rw [fiveText]
  split
  · next hq => rw [readFive, if_pos rfl, hq]
  · have hne : Nat.toDigits 10 (Encodable.encode q) ++ ['.', '2', '5'] ≠ ['5', '.', '0'] := by
      intro heq
      have hlast := congrArg getLast? heq
      rw [getLast?_append_of_ne_nil _ (by decide)] at hlast; exact absurd hlast (by decide)
    have hdigits : (Nat.toDigits 10 (Encodable.encode q) ++ ['.', '2', '5']).takeWhile Char.isDigit =
        Nat.toDigits 10 (Encodable.encode q) := by
      rw [takeWhile_append_of_pos fun c hc => isDigit_of_mem_numeral hc]
      exact append_nil _
    rw [readFive, if_neg hne, hdigits, Nat.ofDigitChars_ten_toDigits, Encodable.encodek]

def epochTexts : JournalTexts where
  decimalText := rationalText 1 "1"
  parseDecimal v := match v with
    | .str s => readRational 1 "1" s
    | _ => none
  parseDecimal_text := readRational_rationalText (by decide)
  iso := rationalText 0 "1970-01-01T00:00:00+00:00"
  parseTs v := match v with
    | .str s => readRational 0 "1970-01-01T00:00:00+00:00" s
    | _ => none
  parseTs_iso := readRational_rationalText (by decide)
  floatText := fiveText
  readFloat := readFive
  numeral_floatText := numeral_fiveText
  readFloat_floatText := readFive_fiveText
  int v := match v with
    | .int n => some n
    | _ => none
  int_int _ := rfl
  str := Json.strOr
  str_str := Json.strOr_str
  float v := match v with
    | .float (.fin q) => some q
    | _ => none
  float_float _ := rfl
  bool v := match v with
    | .bool b => b
    | _ => false
  bool_bool _ := rfl

def firstFill : FillDraft where
  kind := .execution
  attemptSeq := some 0
  symbol := "BTCUSDT"
  side := "BUY"
  quantity := 1
  price := 1
  feeBps := 5
  liquidity := "taker"
  reason := "execution"
  filledAt := 0
  clientOrderId := some "cp-0-0"
  legIndex := 0
  cumulativeExecutedQty := some 1
  simulated := false

def freshJournal : JournalFile := ⟨[], .empty, none⟩

theorem opened_freshJournal : Opened epochTexts freshJournal :=
  ⟨0, [], .nothing, rfl, fun i f h => (by simp [freshJournal, Journal.empty] at h)⟩

def recordFirstFill (own : AppendOutcome) : JournalStep := ⟨.recordFill firstFill, .returned, own⟩

def firstRecord : Record := .fill ⟨firstFill, 0⟩

def repeatedLines : List (JournalLine epochTexts) :=
  [JournalLine.ofRecord _ .schema trivial, JournalLine.ofRecord _ firstRecord trivial,
    JournalLine.ofRecord _ firstRecord trivial]

theorem newRecord_firstFill {j : Journal} (hseq : j.nextFillSeq = 0) (hfills : j.fills = [])
    (hlegacy : j.observedLegacy = ∅) : (JournalCall.recordFill firstFill).newRecord j = .ok firstRecord := by
  have hobserved : ¬(1 : ℚ) ≤ j.observedQty "cp-0-0" := by
    rw [Journal.observedQty, hfills, hlegacy]; decide +kernel
  have hone : ¬(1 : ℚ) ≤ 0 := by decide +kernel
  have hfee : ¬(5 : ℚ) < 0 := by decide +kernel
  simp [JournalCall.newRecord, Journal.newFill, firstFill, hone, hfee, hobserved, hseq, firstRecord, Except.map]

/-- The marker is written and forty characters of the fill; the fill recorded again finds no room at
all. -/
theorem journal_sound_torn :
    (runSteps epochTexts freshJournal [recordFirstFill (.raised 40)]).text =
        Record.line epochTexts .schema ++ (firstRecord.line epochTexts).take 40 ∧
      ∀ before, before <+: [recordFirstFill (.raised 40), recordFirstFill .raisedEarly] →
        Reproducible epochTexts (runSteps epochTexts freshJournal before) := by
  refine ⟨rfl, (journal_sound_iff opened_freshJournal _).mpr fun before step hprefix => ?_⟩
  rcases before with _ | ⟨first, _ | ⟨second, rest⟩⟩
  · obtain ⟨rfl, -⟩ := cons_prefix_cons.mp hprefix
    have hnew : (JournalCall.recordFill firstFill).newRecord freshJournal.journal = .ok firstRecord :=
      newRecord_firstFill rfl rfl rfl
    unfold StepHarmless
    rw [show (recordFirstFill (.raised 40)).call = .recordFill firstFill from rfl,
      show (runSteps epochTexts freshJournal []).journal = freshJournal.journal from rfl, hnew]
    exact ⟨.inl rfl, fun _ => .inl ⟨.inr (by decide +kernel), .inl (by decide +kernel)⟩⟩
  · obtain ⟨rfl, hrest⟩ := cons_prefix_cons.mp hprefix
    obtain ⟨rfl, -⟩ := cons_prefix_cons.mp hrest
    unfold StepHarmless
    split
    · trivial
    · exact trivial
  · have hlength := hprefix.length_le
    simp only [cons_append, length_cons, length_append, length_nil] at hlength; omega

theorem text_repeated :
    (runSteps epochTexts freshJournal [recordFirstFill (.raised 400), recordFirstFill .returned]).text =
      fileOf repeatedLines := by
  have hwhole : (firstRecord.line epochTexts).take 400 = firstRecord.line epochTexts :=
    take_of_length_le (by decide +kernel)
  show ([] ++ Record.line epochTexts .schema) ++ (firstRecord.line epochTexts).take 400 ++
    firstRecord.line epochTexts = _
  rw [hwhole]; simp [repeatedLines, fileOf, lined, JournalLine.ofRecord, Record.line]

/-- The fill is written, its fsync fails, and the same process records it again: the file has it
twice, under one sequence number. -/
theorem fsync_error_duplicates_fill :
    ¬Reproducible epochTexts (runSteps epochTexts freshJournal [recordFirstFill (.raised 400),
      recordFirstFill .returned]) ∧
      ∃ read, readJournal epochTexts 0
          (runSteps epochTexts freshJournal [recordFirstFill (.raised 400), recordFirstFill .returned]).text =
            .ok read ∧
        (Journal.load read.1).fills.map JournalFill.fillSeq = [0, 0] := by
  have hread := readJournal_file 0 repeatedLines .nothing
  rw [JournalTail.text, append_nil, ← text_repeated] at hread
  refine ⟨fun hsound => ?_, _, hread, rfl⟩
  obtain ⟨read, hread', -, hcont⟩ := hsound 0
  rw [hread] at hread'
  cases hread'
  have hseq := hcont 1 ⟨firstFill, 0⟩ rfl; cases hseq

end Failed

end CryptoPilot.Live
