/- # JournalLines — what a journal file reads as.

A written record reads back (`readRecord_payload`).  A file is some readable lines and a tail
without newline: nothing, a part that is no JSON, or a whole object.  Such a file loads, the object
as one more record (`readJournal_lines`); a line that is no JSON in front of a newline makes it
unreadable for good (`readJournal_corrupt`). -/
import CryptoPilot.Live.JournalFile

namespace CryptoPilot.Live

open CryptoPilot.Lib List Option
open CryptoPilot.Lib.JsonText (dumps loads loads_dumps lbrace Printable printable_dumps Written WrittenFields)
open CryptoPilot.Lib.JsonLex (ObjectText Piece Unclosed objectText_dumps closed_of_loads unclosed_behind_object)

section Lines

variable (P : JournalTexts)

/-! ## §1 Written records -/

def Record.Distinct : Record → Prop
  | .attempt a => (a.decisionMarks.map Prod.fst).Nodup
  | _ => True

variable {r : Record} {α : Type} {s : List Char}

theorem distinct_newRecord {j : Journal} {c : JournalCall} (h : c.newRecord j = .ok r) : r.Distinct := by
  cases c with
  | beginAttempt context distinct =>
    cases h; exact distinct
  | recordSubmit clientOrderId symbol submitSeq attemptSeq side quantity reduceOnly legIndex now =>
    rw [JournalCall.newRecord] at h
    cases hsubmit : j.newSubmit clientOrderId symbol submitSeq attemptSeq side quantity reduceOnly legIndex with
    | error e => rw [hsubmit] at h; cases h
    | ok submit => rw [hsubmit] at h; cases h; trivial
  | recordFill draft =>
    rw [JournalCall.newRecord] at h
    cases hfill : j.newFill draft with
    | error e => rw [hfill] at h; cases h
    | ok f => rw [hfill] at h; cases h; trivial
  | recordTerminal clientOrderId status now =>
    cases h; trivial

theorem written_nullable {text : α → Json} (h : ∀ a, Written P.floatText P.readFloat (text a))
    (x : Option α) : Written P.floatText P.readFloat (nullable text x) := by
  cases x with
  | none => trivial
  | some a => exact h a

variable (marks : List (String × ℚ)) (now : ℚ)

theorem written_marks :
    WrittenFields P.floatText P.readFloat (marks.map fun m => (m.1, JsonTree.str (P.decimalText m.2))) := by
  induction marks with
  | nil => trivial
  | cons m marks ih => exact ⟨trivial, ih⟩

theorem written_payload (h : r.Distinct) : Written P.floatText P.readFloat (r.payload P) := by
  have hint : ∀ x, Written P.floatText P.readFloat (nullable .int x) := written_nullable P fun _ => trivial
  have hbool : ∀ x, Written P.floatText P.readFloat (nullable .bool x) := written_nullable P fun _ => trivial
  have hstr : ∀ x, Written P.floatText P.readFloat (nullable .str x) := written_nullable P fun _ => trivial
  have hdecimal : ∀ x, Written P.floatText P.readFloat (nullable (fun q => .str (P.decimalText q)) x) :=
    written_nullable P fun _ => trivial
  have hiso : ∀ x, Written P.floatText P.readFloat (nullable (fun t => .str (P.iso t)) x) :=
    written_nullable P fun _ => trivial
  cases r with
  | attempt a =>
    have hkeys : (a.decisionMarks.map (Prod.fst ∘ fun m => (m.1, (.str (P.decimalText m.2) : Json)))).Nodup := h
    simp [Record.payload, Written, WrittenFields, written_marks, hkeys]
  | fill f =>
    have hfloat := And.intro (P.numeral_floatText f.feeBps) (P.readFloat_floatText f.feeBps)
    simp [Record.payload, Written, WrittenFields, hint, hstr, hdecimal, hfloat]
  | _ => simp [Record.payload, Written, WrittenFields, hint, hbool, hstr, hdecimal, hiso]

/-! ### Reading back -/

theorem present_nullable {text : α → Json} (h : ∀ a, text a ≠ .null) (x : Option α) :
    present (some (nullable text x)) = x.map text := by
  cases x with
  | none => rfl
  | some a =>
    show present (some (text a)) = some (text a)
    rw [present]; exact fun heq => h a (Option.some.inj heq)

theorem optional_map {read : Json → Option α} {text : α → Json} (h : ∀ a, read (text a) = some a)
    (x : Option α) : optional read (x.map text) = some x := by
  cases x with
  | none => rfl
  | some a =>
    show (read (text a)).map some = _
    rw [h]; rfl

theorem map_map_eq {read : Json → α} {text : α → Json} (h : ∀ a, read (text a) = a) (x : Option α) :
    (x.map text).map read = x := by
  cases x with
  | none => rfl
  | some a => exact congrArg some (h a)

theorem readMarks_map :
    readMarks P (some (.obj (marks.map fun m => (m.1, JsonTree.str (P.decimalText m.2))))) = some marks := by
  rw [readMarks, option_mapM_eq_some, forall₂_map_left_iff, forall₂_same]
  intro m _
  rw [P.parseDecimal_text]; rfl

theorem readKind_text (k : FillKind) : readKind k.text = some k := by
  cases k <;> decide

theorem readRecord_payload (r : Record) : readRecord P now (r.payload P) = some r := by
  have hint : ∀ x : Option ℤ, present (some (nullable .int x)) = x.map .int := present_nullable nofun
  have hbool : ∀ x : Option Bool, present (some (nullable .bool x)) = x.map .bool := present_nullable nofun
  have hstr : ∀ x : Option String, present (some (nullable .str x)) = x.map .str := present_nullable nofun
  have hdecimal : ∀ x : Option ℚ,
      present (some (nullable (fun q => .str (P.decimalText q)) x)) = x.map fun q => .str (P.decimalText q) :=
    present_nullable nofun
  have hiso : ∀ x : Option ℚ,
      present (some (nullable (fun t => .str (P.iso t)) x)) = x.map fun t => .str (P.iso t) :=
        present_nullable nofun
  have hrecorded : ∀ t : ℚ, present (some (.str (P.iso t))) = some (.str (P.iso t)) := fun _ => rfl
  cases r with
  | schema => rfl
  | submit s =>
    simp only [Record.payload, readRecord, readSubmit, Lib.Record.get, getValue, recordedRaw]
    simp [hint, hbool, hstr, hdecimal, hiso, optional_map P.int_int, optional_map P.parseDecimal_text,
      optional_map P.parseTs_iso, map_map_eq P.str_str, map_map_eq P.bool_bool, P.int_int, P.str_str]
  | observed orderId qty =>
    simp [Record.payload, readRecord, Lib.Record.get, P.parseDecimal_text, P.str_str]
  | attempt a =>
    simp [Record.payload, readRecord, readAttempt, Lib.Record.get, readMarks_map, P.parseDecimal_text, P.str_str,
      P.parseTs_iso, P.int_int]
  | fill f =>
    simp only [Record.payload, readRecord, readFill, Lib.Record.get, getValue]
    simp [hint, hstr, hdecimal, optional_map P.int_int, optional_map P.parseDecimal_text, map_map_eq P.str_str,
      readKind_text, P.parseDecimal_text, P.parseTs_iso, P.int_int, P.str_str, P.float_float, P.bool_bool]
  | terminal t =>
    simp [Record.payload, readRecord, Lib.Record.get, recordedRaw, hrecorded, optional, P.parseTs_iso, P.str_str]

/-! ## §2 Lines -/

structure JournalLine where
  text : List Char
  record : Record
  printable : ∀ c ∈ text, Printable c
  visible : text.all isSpace = false
  reads : ∃ v, loads P.readFloat text = some v ∧ ∀ now, readRecord P now v = some record

theorem objectText_json (h : r.Distinct) : ObjectText (r.json P) := by
  have hwritten := written_payload P h
  cases r <;> exact objectText_dumps hwritten rfl fun _ => rfl

theorem json_braced (h : r.Distinct) : ∃ t, r.json P = lbrace :: t := by
  obtain ⟨c, t, heq, -⟩ := (objectText_json P h).lettered; exact ⟨_, heq⟩

theorem visible_of_braced (h : ∃ t, s = lbrace :: t) : s.all isSpace = false := by
  obtain ⟨t, rfl⟩ := h; rfl

def JournalLine.ofRecord (r : Record) (h : r.Distinct) : JournalLine P where
  text := r.json P
  record := r
  printable := printable_dumps _ (written_payload P h)
  visible := visible_of_braced (json_braced P h)
  reads := ⟨r.payload P, loads_dumps (written_payload P h), fun now => readRecord_payload P now r⟩

/-! ## §3 Tails -/

theorem loads_braced (h : ∃ t, s = lbrace :: t) {v : Json} (hv : loads P.readFloat s = some v) :
    ∃ fields, v = .obj fields := by
  obtain ⟨t, rfl⟩ := h
  have hskip : JsonText.skipWs (lbrace :: t) = lbrace :: t := JsonText.skipWs_cons (by decide) t
  rw [loads, hskip] at hv
  split at hv
  · next v' rest hread =>
    have hv' : v' = v := by
      split at hv
      · exact Option.some.inj hv
      · cases hv
    rw [← hv']
    rw [JsonText.readValue, if_neg (by decide), if_pos rfl] at hread
    split at hread
    · obtain ⟨rfl, -⟩ := Prod.mk.inj (Option.some.inj hread); exact ⟨_, rfl⟩
    · simp only [bind_eq_bind, bind_eq_some_iff] at hread
      obtain ⟨⟨fields, more⟩, -, heq⟩ := hread
      obtain ⟨rfl, -⟩ := Prod.mk.inj (Option.some.inj heq); exact ⟨_, rfl⟩
  · cases hv

theorem loads_unclosed (h : ∃ t, s = lbrace :: t) (hopen : Unclosed s) : loads P.readFloat s = none := by
  cases hv : loads P.readFloat s with
  | none => rfl
  | some v =>
    obtain ⟨fields, rfl⟩ := loads_braced P h hv; exact absurd (closed_of_loads hv) hopen.not_closed

/-- What stands behind the last newline: nothing, a part that is no JSON, or a whole object. -/
inductive JournalTail where
  | nothing
  | part (text : List Char) (braced : ∃ t, text = lbrace :: t) (printable : ∀ c ∈ text, Printable c)
      (unclosed : Unclosed text)
  | object (line : JournalLine P) (object : ObjectText line.text)

variable {P}

def JournalTail.text : JournalTail P → List Char
  | .nothing => []
  | .part text _ _ _ => text
  | .object line _ => line.text

def JournalTail.records : JournalTail P → List Record
  | .nothing => []
  | .part _ _ _ _ => []
  | .object line _ => [line.record]

/-- The offset of a tail that is cut off before the next append, behind `size` bytes. -/
def JournalTail.offset (size : ℕ) : JournalTail P → Option ℕ
  | .nothing => none
  | .part _ _ _ _ => some size
  | .object _ _ => none

/-! ## §4 Files -/

def fileOf (lines : List (JournalLine P)) : List Char := lined (lines.map JournalLine.text)

theorem fileOf_append (lines more : List (JournalLine P)) :
    fileOf (lines ++ more) = fileOf lines ++ fileOf more := by
  rw [fileOf, map_append, lined_append]; rfl

theorem fileOf_record (h : r.Distinct) : fileOf [JournalLine.ofRecord P r h] = r.line P :=
  lined_singleton _

theorem printable_lines (lines : List (JournalLine P)) :
    ∀ line ∈ lines.map JournalLine.text, ∀ c ∈ line, Printable c := by
  intro line hline
  obtain ⟨l, -, rfl⟩ := mem_map.mp hline; exact l.printable

theorem printable_tail (tail : JournalTail P) : ∀ c ∈ tail.text, Printable c := by
  cases tail with
  | nothing => nofun
  | part text braced printable unclosed => exact printable
  | object line object => exact line.printable

theorem readLines_lines (size : ℕ) (ends : Bool) (lines : List (JournalLine P)) (rest : List (List Char)) :
    readLines P now size ends (lines.map JournalLine.text ++ rest) =
      (readLines P now size ends rest).map fun read => (lines.map JournalLine.record ++ read.1, read.2) := by
  induction lines with
  | nil =>
    show readLines P now size ends rest = _
    cases readLines P now size ends rest <;> rfl
  | cons line lines ih =>
    obtain ⟨v, hloads, hread⟩ := line.reads
    rw [map_cons, cons_append, readLines, if_neg (by rw [line.visible]; exact Bool.false_ne_true), hloads]
    simp only [hread now, ih]
    cases readLines P now size ends rest <;> rfl

theorem readLines_part (size : ℕ) {text : List Char} (braced : ∃ t, text = lbrace :: t)
    (unclosed : Unclosed text) : readLines P now size false [text] = .ok ([], some (size - text.length)) := by
  rw [readLines, if_neg (by rw [visible_of_braced braced]; exact Bool.false_ne_true),
    loads_unclosed P braced unclosed]
  rfl

theorem readJournal_file (lines : List (JournalLine P)) (tail : JournalTail P) :
    readJournal P now (fileOf lines ++ tail.text) =
      .ok (lines.map JournalLine.record ++ tail.records, tail.offset (fileOf lines).length) := by
  have hclean : ∀ c ∈ fileOf lines ++ tail.text, c.toNat ≠ 13 := by
    intro c hc
    rcases mem_append.mp hc with hc | hc
    · exact lined_no_return (printable_lines lines) hc
    · have hprintable := printable_tail tail c hc; exact fun heq => absurd hprintable.1 (by omega)
  rw [readJournal, universalNewlines_eq hclean, fileOf, splitLines_lined (printable_lines lines), readLines_lines]
  cases tail with
  | nothing =>
    show (readLines P now _ _ (splitLines [] [])).map _ = _; rfl
  | part text braced printable unclosed =>
    have hne : text ≠ [] := by
      obtain ⟨t, rfl⟩ := braced; exact cons_ne_nil _ _
    have hends : ((fileOf lines ++ text).getLast? == some newline) = false := by
      rw [getLast?_append_of_ne_nil _ hne, beq_eq_false_iff_ne]
      intro hlast; exact printable_ne_newline (printable _ (mem_of_getLast? hlast)) rfl
    show (readLines P now (fileOf lines ++ text).length _ (splitLines [] text)).map _ = _
    rw [splitLines_tail printable hne]
    show (readLines P now _ ((fileOf lines ++ text).getLast? == some newline) _).map _ = _
    rw [hends, readLines_part now _ braced unclosed, length_append, Nat.add_sub_cancel]; rfl
  | object line object =>
    have hne : line.text ≠ [] := fun hnil => by
      have hvisible := line.visible
      rw [hnil] at hvisible; cases hvisible
    have hone := @readLines_lines P now (fileOf lines ++ line.text).length
      ((fileOf lines ++ line.text).getLast? == some newline) [line] []
    show (readLines P now _ _ (splitLines [] line.text)).map _ = _
    rw [splitLines_tail line.printable hne]; exact (congrArg (Except.map _) hone).trans rfl

theorem readJournal_corrupt (lines : List (JournalLine P)) {bad : List Char}
    (braced : ∃ t, bad = lbrace :: t) (printable : ∀ c ∈ bad, Printable c) (unclosed : Unclosed bad)
    (rest : List Char) : readJournal P now (fileOf lines ++ (bad ++ newline :: rest)) =
    .error .dataIntegrityError := by
  have hlines : ∀ line ∈ lines.map JournalLine.text ++ [bad], ∀ c ∈ line, Printable c := by
    intro line hline
    rcases mem_append.mp hline with hline | hline
    · exact printable_lines lines line hline
    · rw [mem_singleton.mp hline]; exact printable
  have hfile : fileOf lines ++ (bad ++ newline :: rest) = lined (lines.map JournalLine.text ++ [bad]) ++ rest := by
    rw [lined_append, lined_singleton, fileOf]; simp
  have hsplit : splitLines [] (lined (lines.map JournalLine.text ++ [bad]) ++ universalNewlines rest) =
      lines.map JournalLine.text ++ bad :: splitLines [] (universalNewlines rest) := by
    rw [splitLines_lined hlines]; simp
  rw [hfile, readJournal, universalNewlines_append fun c hc => lined_no_return hlines hc, hsplit, readLines_lines,
    readLines, if_neg (by rw [visible_of_braced braced]; exact Bool.false_ne_true),
      loads_unclosed P braced unclosed]
  rw [if_neg]
  · rfl
  · rintro ⟨hnil, hends⟩
    rw [splitLines_eq_nil hnil, append_nil,
      getLast?_lined (append_ne_nil_of_right_ne_nil _ (cons_ne_nil _ _))] at hends
    exact hends rfl

end Lines

end CryptoPilot.Live
