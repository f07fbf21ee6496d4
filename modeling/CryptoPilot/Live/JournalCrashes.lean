/- # JournalCrashes — the order journal across process lifetimes.

A process dies in an append and leaves any front of its line; the next one loads the file.  A front
that is no JSON is a torn tail and is cut off before the next append.  A front that lacks only the
newline reads as the record, and the next append writes behind it: the two lines become one that is
no JSON. -/
import CryptoPilot.Live.JournalFileRuns

namespace CryptoPilot.Live

open CryptoPilot.Lib List
open CryptoPilot.Lib.JsonText (lbrace Printable)

section Lifetimes

variable (P : JournalTexts)

/-! ## §1 Runs of lifetimes -/

/-- A recording operation, which the process survives if its appends returned; or its end. -/
inductive LifeEvent where
  | record (step : JournalStep) (now : ℚ)
  | restart (now : ℚ)

/-- The journal after an event. -/
def JournalFile.live (s : JournalFile) : LifeEvent → Except Exc JournalFile
  | .record step now =>
    match s.call P step.call step.schema step.own with
    | (s, .error .other) => openJournal P now s.text
    | (s, _) => .ok s
  | .restart now => openJournal P now s.text

/-- The records of an event whose append completed, and the one whose append was interrupted. -/
def JournalFile.recorded (s : JournalFile) : LifeEvent → List Record × Option Record
  | .restart _ => ([], none)
  | .record step _ =>
    match step.call.newRecord s.journal with
    | .error _ => ([], none)
    | .ok r =>
      if s.journal.hasSchema then if step.own = .returned then ([r], none) else ([], some r)
      else if step.schema = .returned then
        if step.own = .returned then ([.schema, r], none) else ([.schema], some r)
      else ([], some .schema)

def Yields (text : List Char) (records : List Record) : Prop :=
  ∀ now, ∃ offset, readJournal P now text = .ok (records, offset)

/-- Every load of the run succeeds: it yields the records of the load before, those completed since,
and at most the interrupted one. -/
def Survives (s : JournalFile) (records : List Record) : List LifeEvent → Prop
  | [] => Yields P s.text records
  | e :: rest =>
    Yields P s.text records ∧ ∃ s' records', s.live P e = .ok s' ∧
      (records' = records ++ (s.recorded e).1 ∨
        records' = records ++ (s.recorded e).1 ++ (s.recorded e).2.toList) ∧ Survives s' records' rest

/-- An append that leaves something finds the file ended by a newline. -/
def FoundEnded (s : JournalFile) (o : AppendOutcome) : Prop :=
  Ended s.repaired ∨ o = .raisedEarly ∨ o = .raised 0

def EventClean (s : JournalFile) : LifeEvent → Prop
  | .restart _ => True
  | .record step _ =>
    match step.call.newRecord s.journal with
    | .error _ => True
    | .ok _ =>
      if s.journal.hasSchema then FoundEnded s step.own
      else FoundEnded s step.schema ∧
        (step.schema = .returned → FoundEnded (s.record P .schema .returned).1 step.own)

def RunClean (s : JournalFile) : List LifeEvent → Prop
  | [] => True
  | e :: rest => EventClean P s e ∧ ∀ s', s.live P e = .ok s' → RunClean s' rest

variable {P}

structure Filed (s : JournalFile) (lines : List (JournalLine P)) (tail : JournalTail P) : Prop where
  text : s.text = fileOf lines ++ tail.text
  torn : s.tornOffset = tail.offset (fileOf lines).length

def recordsIn (lines : List (JournalLine P)) (tail : JournalTail P) : List Record :=
  lines.map JournalLine.record ++ tail.records

theorem yields_file (lines : List (JournalLine P)) (tail : JournalTail P) :
    Yields P (fileOf lines ++ tail.text) (recordsIn lines tail) :=
  fun now => ⟨_, readJournal_file now lines tail⟩

theorem Yields.unique {text : List Char} {records records' : List Record} (h : Yields P text records)
    (h' : Yields P text records') : records = records' := by
  obtain ⟨offset, hread⟩ := h 0
  obtain ⟨offset', hread'⟩ := h' 0
  rw [hread] at hread'; cases hread'; rfl

theorem openJournal_file (now : ℚ) (lines : List (JournalLine P)) (tail : JournalTail P) :
    ∃ s, openJournal P now (fileOf lines ++ tail.text) = .ok s ∧ Filed s lines tail := by
  rw [openJournal, readJournal_file]; exact ⟨_, rfl, rfl, rfl⟩

variable {s : JournalFile} {lines : List (JournalLine P)} {tail : JournalTail P} {r : Record}

theorem Corrupt.not_yields (h : Corrupt P s) (records : List Record) : ¬Yields P s.text records := by
  intro hyields
  obtain ⟨-, lines, bad, rest, braced, printable, unclosed, htext⟩ := h
  obtain ⟨offset, hread⟩ := hyields 0
  rw [htext, readJournal_corrupt 0 lines braced printable unclosed rest] at hread; cases hread

theorem Filed.repaired (h : Filed s lines tail) :
    (s.repaired = fileOf lines ∧ tail.records = []) ∨
      ∃ (line : JournalLine P) (object : JsonLex.ObjectText line.text), tail = .object line object ∧
        s.repaired = fileOf lines ++ tail.text := by
  rw [JournalFile.repaired, h.torn, h.text]
  cases tail with
  | nothing =>
    refine .inl ⟨?_, rfl⟩
    show fileOf lines ++ [] = _
    rw [append_nil]
  | part text braced printable unclosed =>
    refine .inl ⟨?_, rfl⟩
    show (fileOf lines ++ text).take (fileOf lines).length = _
    rw [take_left]
  | object line object => exact .inr ⟨line, object, rfl, rfl⟩

/-! ## §2 One append -/

theorem Filed.returned (h : Filed s lines tail) (hr : r.Distinct) (hended : Ended s.repaired) :
    ∃ lines' : List (JournalLine P), Filed (s.record P r .returned).1 lines' .nothing ∧
      recordsIn lines' .nothing = recordsIn lines tail ++ [r] := by
  rcases h.repaired with ⟨hrepaired, hrecords⟩ | ⟨line, object, rfl, hrepaired⟩
  · refine ⟨lines ++ [JournalLine.ofRecord P r hr], ⟨?_, rfl⟩, ?_⟩
    · show s.repaired ++ r.line P = _
      rw [hrepaired, fileOf_append, fileOf_record]; exact (append_nil _).symm
    · rw [recordsIn, recordsIn, hrecords]; simp [JournalTail.records, JournalLine.ofRecord]
  · rw [hrepaired] at hended; exact absurd hended (not_ended_tail lines (by simp))

theorem Filed.returned_corrupt (h : Filed s lines tail) (hr : r.Distinct) (hended : ¬Ended s.repaired) :
    Corrupt P (s.record P r .returned).1 := by
  rcases h.repaired with ⟨hrepaired, -⟩ | ⟨line, object, rfl, hrepaired⟩
  · rw [hrepaired] at hended; exact absurd (ended_nothing lines) hended
  · have htail : JournalTail.object line object ≠ .nothing := nofun
    have hline := corrupt_line hr lines htail (s.journal.apply r); rwa [← hrepaired] at hline

variable {o : AppendOutcome} {step : JournalStep}

theorem Filed.interrupted (h : Filed s lines tail) (hr : r.Distinct) (ho : o ≠ .returned)
    (hclean : FoundEnded s o) :
    ∃ (lines' : List (JournalLine P)) (tail' : JournalTail P),
      (s.record P r o).1.text = fileOf lines' ++ tail'.text ∧
        (recordsIn lines' tail' = recordsIn lines tail ∨
          recordsIn lines' tail' = recordsIn lines tail ++ [r]) := by
  cases o with
  | returned => exact absurd rfl ho
  | raisedEarly => exact ⟨lines, tail, h.text, .inl rfl⟩
  | raised k =>
    rcases h.repaired with ⟨hrepaired, hrecords⟩ | ⟨line, object, rfl, hrepaired⟩
    · obtain ⟨lines', tail', htext, hread⟩ := file_take hr lines k
      refine ⟨lines', tail', ?_, ?_⟩
      · show s.repaired ++ (r.line P).take k = _
        rw [hrepaired, htext]
      · rw [recordsIn, recordsIn, hread, hrecords, append_nil]
        split
        · exact .inl (append_nil _)
        · exact .inr rfl
    · have hzero : k = 0 := by
        rcases hclean with hended | hearly | hzero
        · rw [hrepaired] at hended; exact absurd hended (not_ended_tail lines (by nofun))
        · cases hearly
        · exact AppendOutcome.raised.inj hzero
      subst hzero
      refine ⟨lines, .object line object, ?_, .inl rfl⟩
      show s.repaired ++ (r.line P).take 0 = _
      rw [hrepaired, take_zero, append_nil]

variable {records : List Record}

theorem Filed.interrupted_lost (h : Filed s lines tail) (hr : r.Distinct) (hclean : ¬FoundEnded s o)
    (hyields : Yields P (s.record P r o).1.text records) :
    records ≠ recordsIn lines tail ∧ records ≠ recordsIn lines tail ++ [r] := by
  have hended : ¬Ended s.repaired := fun hended => hclean (.inl hended)
  cases o with
  | raisedEarly => exact absurd (.inr (.inl rfl)) hclean
  | returned => exact absurd hyields ((h.returned_corrupt hr hended).not_yields _)
  | raised k =>
    have hzero : k ≠ 0 := fun hzero => hclean (.inr (.inr (congrArg _ hzero)))
    rcases h.repaired with ⟨hrepaired, -⟩ | ⟨line, object, rfl, hrepaired⟩
    · rw [hrepaired] at hended; exact absurd (ended_nothing lines) hended
    · have htail : JournalTail.object line object ≠ .nothing := nofun
      by_cases hk : k ≤ (r.json P).length
      · obtain ⟨tail', htext, hread⟩ := tail_take hr htail hzero hk
        have hfile : (s.record P r (.raised k)).1.text = fileOf lines ++ tail'.text := by
          show s.repaired ++ (r.line P).take k = _
          rw [hrepaired, ← htext, append_assoc]
        have hlost : records = lines.map JournalLine.record := by
          rw [hfile] at hyields
          have heq := hyields.unique (yields_file lines tail')
          rwa [recordsIn, hread, append_nil] at heq
        rw [hlost]
        constructor <;>
        · intro heq
          have hlength := congrArg List.length heq; simp [recordsIn, JournalTail.records] at hlength
      · have hline := corrupt_line hr lines htail s.journal
        rw [← hrepaired, ← take_line_of_lt (not_le.mp hk)] at hline
        exact absurd hyields (hline.not_yields _)

/-! ## §3 Runs -/

theorem newRecord_error {j : Journal} {c : JournalCall} {e : Exc} (h : c.newRecord j = .error e) :
    e = .valueError := by
  cases c with
  | beginAttempt context distinct | recordTerminal clientOrderId status now => cases h
  | recordSubmit clientOrderId symbol submitSeq attemptSeq side quantity reduceOnly legIndex now =>
    rw [JournalCall.newRecord, Journal.newSubmit] at h
    split_ifs at h <;> cases h <;> rfl
  | recordFill draft =>
    rw [JournalCall.newRecord, Journal.newFill] at h
    split_ifs at h
    all_goals try (cases h; rfl)
    split at h
    · split_ifs at h <;> cases h
      rfl
    · cases h

/-- The journal after one append: the process lives on if it returned. -/
def JournalFile.liveAppend (P : JournalTexts) (s : JournalFile) (r : Record) (now : ℚ) (o : AppendOutcome) :
    Except Exc JournalFile :=
  if o = .returned then .ok (s.record P r o).1 else openJournal P now (s.record P r o).1.text

def recordedAppend (r : Record) (o : AppendOutcome) : List Record × Option Record :=
  if o = .returned then ([r], none) else ([], some r)

theorem record_of_ne_returned (h : o ≠ .returned) : s.record P r o = ((s.record P r o).1, .error .other) := by
  cases o with
  | returned => exact absurd rfl h
  | raisedEarly | raised k => rfl

theorem record_of_returned : s.record P r .returned = ((s.record P r .returned).1, .ok ()) := rfl

variable {now : ℚ}

theorem text_openJournal {text : List Char} {s : JournalFile}
    (h : openJournal P now text = .ok s) : s.text = text := by
  rw [openJournal] at h
  cases hread : readJournal P now text with
  | error e => rw [hread] at h; cases h
  | ok read => rw [hread] at h; cases h; rfl

theorem liveAppend_cases (h : Filed s lines tail) (hr : r.Distinct) (now : ℚ) (o : AppendOutcome) :
    (FoundEnded s o ∧ ∃ (s' : JournalFile) (lines' : List (JournalLine P)) (tail' : JournalTail P),
        s.liveAppend P r now o = .ok s' ∧ Filed s' lines' tail' ∧
          (recordsIn lines' tail' = recordsIn lines tail ++ (recordedAppend r o).1 ∨
            recordsIn lines' tail' =
              recordsIn lines tail ++ (recordedAppend r o).1 ++ (recordedAppend r o).2.toList)) ∨
      ¬FoundEnded s o ∧ ∀ s' records, s.liveAppend P r now o = .ok s' →
        (records = recordsIn lines tail ++ (recordedAppend r o).1 ∨
          records = recordsIn lines tail ++ (recordedAppend r o).1 ++ (recordedAppend r o).2.toList) →
        ¬Yields P s'.text records := by
  by_cases ho : o = .returned
  · subst ho
    have hfound : FoundEnded s .returned ↔ Ended s.repaired := by
      simp [FoundEnded]
    rw [hfound]
    by_cases hended : Ended s.repaired
    · obtain ⟨lines', hkept, hrecords⟩ := h.returned hr hended
      exact .inl ⟨hended, _, lines', .nothing, rfl, hkept, .inl hrecords⟩
    · refine .inr ⟨hended, fun s' records hlive _ => ?_⟩
      cases hlive; exact (h.returned_corrupt hr hended).not_yields records
  · rw [JournalFile.liveAppend, recordedAppend, if_neg ho, if_neg ho]
    by_cases hclean : FoundEnded s o
    · obtain ⟨lines', tail', htext, hrecords⟩ := h.interrupted hr ho hclean
      obtain ⟨s', hopen, hkept⟩ := openJournal_file now lines' tail'
      refine .inl ⟨hclean, s', lines', tail', by rw [htext, hopen], hkept, ?_⟩
      rwa [append_nil]
    · refine .inr ⟨hclean, fun s' records hlive hrecords hyields => ?_⟩
      rw [text_openJournal hlive] at hyields
      obtain ⟨hne, hne'⟩ := h.interrupted_lost hr hclean hyields
      rw [append_nil] at hrecords; exact hrecords.elim hne hne'

/-- A call whose own record meets its own outcome: the next start takes up what the append left. -/
theorem live_of_call {s₀ : JournalFile} (hcall : s.call P step.call step.schema step.own = s₀.record P r step.own) :
    s.live P (.record step now) = s₀.liveAppend P r now step.own := by
  rw [JournalFile.live, hcall, JournalFile.liveAppend]
  by_cases ho : step.own = .returned
  · rw [if_pos ho, ho, record_of_returned]
  · rw [if_neg ho, record_of_ne_returned ho]

section

variable (hr : step.call.newRecord s.journal = .ok r)

include hr

theorem live_of_hasSchema (hschema : s.journal.hasSchema = true) :
    s.live P (.record step now) = s.liveAppend P r now step.own ∧
      s.recorded (.record step now) = recordedAppend r step.own := by
  have hcall : s.call P step.call step.schema step.own = s.record P r step.own := by
    simp only [JournalFile.call, hr, JournalFile.ensureV2Schema, hschema, if_true]
  refine ⟨live_of_call hcall, ?_⟩
  simp only [JournalFile.recorded, hr, hschema, if_true]; rfl

theorem live_of_marker (hschema : s.journal.hasSchema = false) (hmarker : step.schema = .returned) :
    s.live P (.record step now) = (s.record P .schema .returned).1.liveAppend P r now step.own ∧
      s.recorded (.record step now) = (.schema :: (recordedAppend r step.own).1,
        (recordedAppend r step.own).2) := by
  have hcall : s.call P step.call step.schema step.own =
      (s.record P .schema .returned).1.record P r step.own := by
    simp only [JournalFile.call, hr, JournalFile.ensureV2Schema, hschema, Bool.false_eq_true, if_false, hmarker]
    rfl
  refine ⟨live_of_call hcall, ?_⟩
  simp only [JournalFile.recorded, hr, hschema, Bool.false_eq_true, if_false, hmarker, if_true, recordedAppend]
  split <;> rfl

theorem live_of_no_marker (hschema : s.journal.hasSchema = false)
    (hmarker : step.schema ≠ .returned) :
    s.live P (.record step now) = s.liveAppend P .schema now step.schema ∧
      s.recorded (.record step now) = recordedAppend .schema step.schema := by
  have hcall : s.call P step.call step.schema step.own =
      ((s.record P .schema step.schema).1, .error .other) := by
    simp only [JournalFile.call, hr, JournalFile.ensureV2Schema, hschema, Bool.false_eq_true, if_false]
    rw [record_of_ne_returned hmarker]
  constructor
  · rw [JournalFile.live, hcall, JournalFile.liveAppend, if_neg hmarker]
  · simp only [JournalFile.recorded, hr, hschema, Bool.false_eq_true, if_false, if_neg hmarker, recordedAppend]

end

theorem text_liveAppend {s' : JournalFile} (h : s.liveAppend P r now o = .ok s') :
    s'.text = (s.record P r o).1.text := by
  rw [JournalFile.liveAppend] at h
  split at h
  · cases h; rfl
  · exact text_openJournal h

theorem foundEnded_returned : FoundEnded s .returned ↔ Ended s.repaired := by
  simp [FoundEnded]

theorem live_cases (h : Filed s lines tail) (e : LifeEvent) :
    (EventClean P s e ∧ ∃ (s' : JournalFile) (lines' : List (JournalLine P)) (tail' : JournalTail P),
        s.live P e = .ok s' ∧ Filed s' lines' tail' ∧
          (recordsIn lines' tail' = recordsIn lines tail ++ (s.recorded e).1 ∨
            recordsIn lines' tail' = recordsIn lines tail ++ (s.recorded e).1 ++ (s.recorded e).2.toList)) ∨
      ¬EventClean P s e ∧ ∀ s' records, s.live P e = .ok s' →
        (records = recordsIn lines tail ++ (s.recorded e).1 ∨
          records = recordsIn lines tail ++ (s.recorded e).1 ++ (s.recorded e).2.toList) →
        ¬Yields P s'.text records := by
  cases e with
  | restart now =>
    obtain ⟨s', hopen, hkept⟩ := openJournal_file now lines tail
    exact .inl ⟨trivial, s', lines, tail, by rw [JournalFile.live, h.text, hopen], hkept, .inl (append_nil _).symm⟩
  | record step now =>
    rw [EventClean]
    cases hnew : step.call.newRecord s.journal with
    | error e =>
      have hlive : s.live P (.record step now) = .ok s := by
        rw [JournalFile.live, JournalFile.call, hnew, newRecord_error hnew]
      have hrecorded : s.recorded (.record step now) = ([], none) := by
        rw [JournalFile.recorded, hnew]
      rw [hlive, hrecorded]; exact .inl ⟨trivial, s, lines, tail, rfl, h, .inl (append_nil _).symm⟩
    | ok r =>
      have hr := distinct_newRecord hnew
      have hmark : Record.Distinct .schema := trivial
      cases hschema : s.journal.hasSchema with
      | true =>
        obtain ⟨hlive, hrecorded⟩ := @live_of_hasSchema P s r step now hnew hschema
        rw [hlive, hrecorded]; exact liveAppend_cases h hr now step.own
      | false =>
        by_cases hmarker : step.schema = .returned
        · obtain ⟨hlive, hrecorded⟩ := @live_of_marker P s r step now hnew hschema hmarker
          rw [hlive, hrecorded, hmarker]
          by_cases hended : Ended s.repaired
          · obtain ⟨lines₁, hkept₁, hrecords₁⟩ := h.returned hmark hended
            have happend : ∀ xs : List Record,
                recordsIn lines₁ .nothing ++ xs = recordsIn lines tail ++ .schema :: xs := by
              intro xs
              rw [hrecords₁, append_assoc]; rfl
            rcases liveAppend_cases hkept₁ hr now step.own with ⟨hclean, hnext⟩ | ⟨hclean, hnext⟩
            · simp only [happend] at hnext
              exact .inl ⟨⟨foundEnded_returned.mpr hended, fun _ => hclean⟩, hnext⟩
            · simp only [happend] at hnext; exact .inr ⟨fun hall => hclean (hall.2 rfl), hnext⟩
          · have hcorrupt := (h.returned_corrupt hmark hended).record r step.own
            refine .inr ⟨fun hall => hended (foundEnded_returned.mp hall.1), fun s' records hlive _ => ?_⟩
            rw [text_liveAppend hlive]; exact hcorrupt.not_yields records
        · obtain ⟨hlive, hrecorded⟩ := @live_of_no_marker P s r step now hnew hschema hmarker
          rw [hlive, hrecorded]
          rcases liveAppend_cases h hmark now step.schema with ⟨hclean, hnext⟩ | ⟨hclean, hnext⟩
          · exact .inl ⟨⟨hclean, fun heq => absurd heq hmarker⟩, hnext⟩
          · exact .inr ⟨fun hall => hclean hall.1, hnext⟩

theorem Survives.yields {events : List LifeEvent} (h : Survives P s records events) :
    Yields P s.text records := by
  cases events with
  | nil => exact h
  | cons e rest => exact h.1

/-- **Lifetimes**: the journal of a file of readable lines survives a run of recording operations,
deaths and restarts exactly if every append that leaves something finds the file ended by a newline.
-/
theorem crash_consistent_iff {now : ℚ} (hopen : openJournal P now (fileOf lines ++ tail.text) = .ok s)
    (events : List LifeEvent) : Survives P s (recordsIn lines tail) events ↔ RunClean P s events := by
  have hkept : Filed s lines tail := by
    obtain ⟨s', hopen', hkept⟩ := openJournal_file now lines tail
    rw [hopen'] at hopen; cases hopen; exact hkept
  clear hopen
  induction events generalizing s lines tail with
  | nil =>
    refine ⟨fun _ => trivial, fun _ => ?_⟩
    rw [Survives, hkept.text]; exact yields_file lines tail
  | cons e rest ih =>
    have hyields : Yields P s.text (recordsIn lines tail) := by
      rw [hkept.text]; exact yields_file lines tail
    rcases live_cases hkept e with ⟨hclean, s', lines', tail', hlive, hkept', hrecords⟩ | ⟨hclean, hlost⟩
    · constructor
      · rintro ⟨-, t, records, ht, -, hrest⟩
        refine ⟨hclean, fun u hu => ?_⟩
        rw [hlive] at ht hu
        cases ht
        cases hu
        have hloaded : records = recordsIn lines' tail' := by
          refine hrest.yields.unique ?_
          rw [hkept'.text]; exact yields_file lines' tail'
        rw [hloaded] at hrest; exact (ih hkept').mp hrest
      · rintro ⟨-, hrest⟩; exact ⟨hyields, s', _, hlive, hrecords, (ih hkept').mpr (hrest s' hlive)⟩
    · constructor
      · rintro ⟨-, s', records', hlive, hrecords, hrest⟩
        exact absurd hrest.yields (hlost s' records' hlive hrecords)
      · exact fun hall => absurd hall.1 hclean

end Lifetimes

/-! ## §4 A death before the newline -/

section Death

/-- The fill is recorded; its append ends as given, and a load at the epoch follows a death. -/
def fillEvent (own : AppendOutcome) : LifeEvent := .record (recordFirstFill own) 0

def filledEvent : LifeEvent := .record ⟨.recordTerminal "cp-0-0" "FILLED" 0, .returned, .returned⟩ 0

theorem crash_consistent_fresh :
    Survives epochTexts freshJournal [] [fillEvent .returned, .restart 0, filledEvent] ↔
      RunClean epochTexts freshJournal [fillEvent .returned, .restart 0, filledEvent] :=
  @crash_consistent_iff epochTexts freshJournal [] .nothing 0 rfl _

def markerLine : JournalLine epochTexts :=
    JournalLine.ofRecord _ .schema (show Record.Distinct .schema from trivial)

def fillLine : JournalLine epochTexts :=
  JournalLine.ofRecord _ firstRecord (show Record.Distinct firstRecord from trivial)

def fillTail : JournalTail epochTexts :=
  .object fillLine (objectText_json _ (show Record.Distinct firstRecord from trivial))

theorem length_firstRecord : (firstRecord.json epochTexts).length = 338 := by decide +kernel

theorem live_fillEvent :
    freshJournal.live epochTexts (fillEvent (.raised 338)) =
      openJournal epochTexts 0 (fileOf [markerLine] ++ fillTail.text) := by
  have hmarker := @live_of_marker epochTexts freshJournal firstRecord (recordFirstFill (.raised 338)) 0
    (newRecord_firstFill rfl rfl rfl) rfl rfl
  have hline : fileOf [markerLine] = Record.line epochTexts .schema := fileOf_record _
  have hcut : (firstRecord.line epochTexts).take 338 = firstRecord.json epochTexts := by
    rw [take_line_of_le length_firstRecord.ge, ← length_firstRecord, take_length]
  rw [fillEvent, hmarker.1, hline, JournalFile.liveAppend]
  show openJournal epochTexts 0 (([] ++ Record.line epochTexts .schema) ++
    (firstRecord.line epochTexts).take 338) = _
  rw [hcut]; rfl

/-- The next process reads the fill, and its first append makes the journal unreadable. -/
theorem death_before_newline_loses_journal :
    ¬Survives epochTexts freshJournal [] [fillEvent (.raised 338), filledEvent] := by
  rintro ⟨-, s, records, hlive, -, -, s', records', hlive', -, hyields⟩
  rw [live_fillEvent, openJournal, readJournal_file] at hlive
  cases hlive
  have hnew := @live_of_hasSchema epochTexts
    ⟨fileOf [markerLine] ++ fillTail.text, Journal.load ([.schema] ++ [firstRecord]), none⟩
    (.terminal ⟨"cp-0-0", "FILLED", 0⟩) ⟨.recordTerminal "cp-0-0" "FILLED" 0, .returned, .returned⟩ 0 rfl rfl
  have hkept : Filed ⟨fileOf [markerLine] ++ fillTail.text, Journal.load ([.schema] ++ [firstRecord]), none⟩
      [markerLine] fillTail := ⟨rfl, rfl⟩
  have htail : fillTail ≠ .nothing := by simp [fillTail]
  have hcorrupt := hkept.returned_corrupt (r := .terminal ⟨"cp-0-0", "FILLED", 0⟩) trivial
    (not_ended_tail [markerLine] htail)
  have htext := hnew.1.symm.trans hlive'
  refine hcorrupt.not_yields records' ?_; rwa [← text_liveAppend htext]

end Death

end CryptoPilot.Live
