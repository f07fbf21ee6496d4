/- # CoverageRuns — which coverage logs can still be read.

A cut line is open in the sense of `JsonLex`, and whatever the next append puts behind it, complete
or cut, never closes it: one append that persisted a part of its line makes every later
`load_coverage` of the dataset raise.  The log is read as claimed exactly when no append left a part
of its line, save for a last one that lacks only its newline and repeats what the log already says.
-/
import CryptoPilot.Archive.Coverage

namespace CryptoPilot.Archive

open CryptoPilot.Lib List
open CryptoPilot.Lib.JsonText (dumps loads loads_dumps printable_dumps Printable Plain quoted)
open CryptoPilot.Lib.JsonLex (ObjectText Piece Unclosed objectText_dumps closed_of_loads unclosed_behind_object)

section Runs

variable (P : IsoTexts) {dataset : String}

/-! ## One line -/

theorem plain_optionalText (s : Option String) : Plain (optionalText s) := by
  cases s <;> simp [optionalText, Plain]

variable (r : CoverageRow) (rows : List CoverageRow)

theorem plain_rowPayload (t : ℤ) : Plain (rowPayload P r t) := by
  simp [rowPayload, Plain, JsonText.PlainFields, plain_optionalText]

theorem objectText_rowToJson (t : ℤ) : ObjectText (rowToJson P r t) :=
  objectText_dumps ((plain_rowPayload P r t).written _ P.readFloat) rfl fun _ => rfl

theorem rowToJson_ne_nil (t : ℤ) : rowToJson P r t ≠ [] := by
  obtain ⟨c, s, hs, -⟩ := (objectText_rowToJson P r t).lettered; exact cons_ne_nil _ _

theorem printable_rowToJson (t : ℤ) : ∀ c ∈ rowToJson P r t, Printable c :=
  printable_dumps _ ((plain_rowPayload P r t).written _ P.readFloat)

theorem readOptional_optionalText (s : Option String) : readOptional P (some (optionalText s)) = s := by
  cases s <;> simp [optionalText, readOptional, P.str_str]

theorem readStatus_text (s : CoverageStatus) : readStatus (some (.str s.text)) = some s := by
  cases s <;> decide

theorem parseCoverageLine_rowToJson {r : CoverageRow} {t : ℤ} (h : r.recordedAt = some t) :
    parseCoverageLine P (rowToJson P r t) = .ok r := by
  have hloads : loads P.readFloat (rowToJson P r t) = some (rowPayload P r t) :=
    loads_dumps ((plain_rowPayload P r t).written _ _)
  have hrows : ¬ (r.rows : ℤ) < 0 := by omega
  rw [parseCoverageLine, hloads]
  simp [hrows, rowPayload, readCoverageFields, requiredKeys, Record.get, readStatus_text, readOptional_optionalText,
    P.str_str, P.readDay_dayText, P.readStamp_stampText, ← h]

/-! ## The lines of the log -/

def CoverageAppend.json (e : CoverageAppend dataset) : List Char := rowToJson P e.row e.recordedAt

/-- The lines `load_coverage` sees, `current` being what earlier cut appends left. -/
def physicalLines (current : List Char) : List (CoverageAppend dataset) → List (List Char)
  | [] => if current = [] then [] else [current]
  | e :: es => if e.Completed P then (current ++ e.json P) :: physicalLines [] es else
      physicalLines (current ++ e.piece P) es

theorem printable_json (e : CoverageAppend dataset) : ∀ c ∈ e.json P, Printable c := printable_rowToJson P _ _

variable {e : CoverageAppend dataset} {current : List Char} {es : List (CoverageAppend dataset)}
  {before after : List (CoverageAppend dataset)}

theorem piece_of_completed (h : e.Completed P) : e.piece P = e.json P ++ [newline] :=
  take_of_length_le h

theorem piece_of_not_completed (h : ¬ e.Completed P) : e.piece P = (e.json P).take e.persisted := by
  have hle : e.persisted ≤ (e.json P).length := by
    have hlength : (e.line P).length = (e.json P).length + 1 := by
      rw [CoverageAppend.line, length_append]; rfl
    rw [CoverageAppend.Completed] at h; omega
  exact take_append_of_le_length hle

theorem mem_piece {c : Char} (h : c ∈ e.piece P) : Printable c ∨ c = newline := by
  have hline : c ∈ e.json P ++ [newline] := mem_of_mem_take h
  rcases mem_append.mp hline with h | h
  · exact Or.inl (printable_json P e c h)
  · exact Or.inr (mem_singleton.mp h)

theorem universalNewlines_coverageLog (es : List (CoverageAppend dataset)) :
    universalNewlines (coverageLog P es) = coverageLog P es := by
  refine universalNewlines_eq fun c hc => ?_
  obtain ⟨e, -, he⟩ := mem_flatMap.mp hc
  rcases mem_piece P he with ⟨hlow, -⟩ | rfl
  · omega
  · decide

theorem splitLines_coverageLog (current : List Char) (es : List (CoverageAppend dataset)) :
    splitLines current (coverageLog P es) = physicalLines P current es := by
  induction es generalizing current with
  | nil => rfl
  | cons e es ih =>
    have hlog : coverageLog P (e :: es) = e.piece P ++ coverageLog P es := flatMap_cons
    rw [hlog, physicalLines]
    by_cases h : e.Completed P
    · have hnewline : isLineBreak newline = true := rfl
      rw [if_pos h, piece_of_completed P h, append_assoc, splitLines_append (printable_json P e),
        singleton_append, splitLines, if_pos hnewline, ih]
    · have hprintable : ∀ c ∈ e.piece P, Printable c := by
        intro c hc
        rw [piece_of_not_completed P h] at hc; exact printable_json P e c (mem_of_mem_take hc)
      rw [if_neg h, splitLines_append hprintable, ih]

/-- `load_coverage` goes over the physical lines. -/
theorem loadCoverage_coverageLog (es : List (CoverageAppend dataset)) :
    loadCoverage P dataset (coverageLog P es) = (physicalLines P [] es).foldlM (loadLine P dataset) ∅ := by
  rw [loadCoverage, universalNewlines_coverageLog, splitLines_coverageLog]

/-! ## Rows in, rows out -/

def lastRow (rows : List CoverageRow) (key : String × ℤ) : Option CoverageRow :=
  (rows.filter fun r => r.key = key).getLast?

def completedRows (es : List (CoverageAppend dataset)) : List CoverageRow :=
  (es.filter fun e => e.Completed P).map CoverageAppend.row

/-- The log can be read, and says of every symbol and day what the last completed append said. -/
def CoverageSurvives (es : List (CoverageAppend dataset)) : Prop :=
  ∃ m, loadCoverage P dataset (coverageLog P es) = .ok m ∧ ∀ key, m.lookup key = lastRow (completedRows P es) key

def recordRows (rows : List CoverageRow) : CoverageMap := rows.foldl (fun m r => m.insert r.key r) ∅

theorem lastRow_concat (r : CoverageRow) (key : String × ℤ) :
    lastRow (rows ++ [r]) key = if r.key = key then some r else lastRow rows key := by
  rw [lastRow]
  by_cases h : r.key = key
  · simp [h]
  · simp [h, lastRow]

theorem lookup_recordRows (key : String × ℤ) : (recordRows rows).lookup key = lastRow rows key := by
  induction rows using reverseRecOn with
  | nil => rfl
  | append_singleton rows r ih =>
    rw [lastRow_concat, recordRows, foldl_concat]
    by_cases h : r.key = key
    · rw [if_pos h, ← h, AList.lookup_insert]
    · rw [if_neg h, AList.lookup_insert_ne (Ne.symm h)]; exact ih

theorem loadLine_json (m : CoverageMap) (e : CoverageAppend dataset) :
    loadLine P dataset m (e.json P) = .ok (m.insert e.row.key e.row) := by
  have hparse : parseCoverageLine P (e.json P) = .ok e.row := parseCoverageLine_rowToJson P e.recorded
  have hcheck : ¬ (e.row.dataset ≠ dataset ∨ e.row.recordedAt = none) := by
    rw [e.recorded]; simp [e.ofDataset]
  rw [loadLine, hparse]; exact if_neg hcheck

theorem foldlM_json (es : List (CoverageAppend dataset)) (rows : List CoverageRow) :
    (es.map fun e => e.json P).foldlM (loadLine P dataset) (recordRows rows)
      = .ok (recordRows (rows ++ es.map CoverageAppend.row)) := by
  induction es generalizing rows with
  | nil => rw [map_nil, map_nil, append_nil]; rfl
  | cons e es ih =>
    have hrow : (recordRows rows).insert e.row.key e.row = recordRows (rows ++ [e.row]) := by
      rw [recordRows, recordRows, foldl_concat]
    rw [map_cons, foldlM_cons, loadLine_json, hrow]
    refine (ih (rows ++ [e.row])).trans ?_
    rw [map_cons, append_assoc, singleton_append]

theorem closed_of_foldlM {lines : List (List Char)} {m m' : CoverageMap}
    (h : lines.foldlM (loadLine P dataset) m = .ok m') : ∀ line ∈ lines, JsonLex.run .start line = .closed := by
  induction lines generalizing m with
  | nil => nofun
  | cons line lines ih =>
    rw [foldlM_cons] at h
    cases hline : loadLine P dataset m line with
    | error exc =>
      rw [hline] at h; cases h
    | ok m₁ =>
      rw [hline] at h
      refine forall_mem_cons.mpr ⟨?_, ih h⟩
      cases hloads : loads P.readFloat line with
      | none => simp [loadLine, parseCoverageLine, hloads, bind, Except.bind] at hline
      | some v =>
        cases v with
        | obj fields => exact closed_of_loads hloads
        | _ => simp [loadLine, parseCoverageLine, hloads, bind, Except.bind] at hline

/-! ## Cut appends -/

def CoverageAppend.Torn (e : CoverageAppend dataset) : Prop := ¬ e.Completed P ∧ e.persisted ≠ 0

def NoTear (es : List (CoverageAppend dataset)) : Prop := ∀ e ∈ es, ¬ e.Torn P

/-- Only the last append that wrote something was cut: it lacks its newline and repeats the row of
its key. -/
def BareRepeat (es : List (CoverageAppend dataset)) : Prop :=
  ∃ before e after, es = before ++ e :: after ∧ NoTear P before ∧ e.persisted = (e.json P).length ∧
    (∀ f ∈ after, f.persisted = 0) ∧ lastRow (completedRows P before) e.row.key = some e.row

theorem not_completed_of_zero (h : e.persisted = 0) : ¬ e.Completed P := by
  rw [CoverageAppend.Completed, h, CoverageAppend.line]; simp

theorem piece_of_zero (h : e.persisted = 0) : e.piece P = [] := by
  rw [CoverageAppend.piece, h, take_zero]

theorem objectText_json (e : CoverageAppend dataset) : ObjectText (e.json P) := objectText_rowToJson P _ _

theorem piece_json (e : CoverageAppend dataset) : Piece (e.json P) :=
  ⟨rowToJson_ne_nil P _ _, e.json P, objectText_json P e, prefix_rfl⟩

theorem piece_of_torn (h : e.Torn P) : Piece (e.piece P) := by
  rw [piece_of_not_completed P h.1]
  refine ⟨fun hnil => ?_, e.json P, objectText_json P e, take_prefix _ _⟩
  rcases take_eq_nil_iff.mp hnil with hzero | hempty
  · exact h.2 hzero
  · exact rowToJson_ne_nil P _ _ hempty

theorem physicalLines_noTear {before : List (CoverageAppend dataset)} (h : NoTear P before)
    (rest : List (CoverageAppend dataset)) :
    physicalLines P [] (before ++ rest)
      = (before.filter fun e => e.Completed P).map (fun e => e.json P) ++ physicalLines P [] rest := by
  induction before with
  | nil => rfl
  | cons e before ih =>
    have ih' := ih fun f hf => h f (mem_cons_of_mem e hf)
    rw [cons_append, physicalLines]
    by_cases he : e.Completed P
    · rw [if_pos he, ih', filter_cons_of_pos (by simpa using he)]; rfl
    · have hzero : e.persisted = 0 := by
        by_contra hne; exact h e mem_cons_self ⟨he, hne⟩
      rw [if_neg he, piece_of_zero P hzero, nil_append, ih', filter_cons_of_neg (by simpa using he)]

theorem physicalLines_not_closed (hne : current ≠ []) (h : Unclosed current) (es : List (CoverageAppend dataset)) :
    ∃ line ∈ physicalLines P current es, JsonLex.run .start line ≠ .closed := by
  induction es generalizing current with
  | nil => exact ⟨current, by rw [physicalLines, if_neg hne]; exact mem_singleton_self _, h.not_closed⟩
  | cons e es ih =>
    rw [physicalLines]
    by_cases he : e.Completed P
    · rw [if_pos he]; exact ⟨_, mem_cons_self, (h.append (piece_json P e)).not_closed⟩
    · rw [if_neg he]
      by_cases hzero : e.persisted = 0
      · rw [piece_of_zero P hzero, append_nil]; exact ih hne h
      · exact ih (append_ne_nil_of_left_ne_nil hne _) (h.append (piece_of_torn P ⟨he, hzero⟩))

theorem physicalLines_behind_object (h : ObjectText current) (hes : ∃ f ∈ es, f.persisted ≠ 0) :
    ∃ line ∈ physicalLines P current es, JsonLex.run .start line ≠ .closed := by
  induction es with
  | nil => obtain ⟨f, hf, -⟩ := hes; cases hf
  | cons e es ih =>
    rw [physicalLines]
    by_cases he : e.Completed P
    · rw [if_pos he]
      exact ⟨_, mem_cons_self, (unclosed_behind_object h (piece_json P e)).not_closed⟩
    · rw [if_neg he]
      by_cases hzero : e.persisted = 0
      · rw [piece_of_zero P hzero, append_nil]
        obtain ⟨f, hf, hne⟩ := hes
        rcases mem_cons.mp hf with rfl | hf
        · exact absurd hzero hne
        · exact ih ⟨f, hf, hne⟩
      · have hpiece : Piece (e.piece P) := piece_of_torn P ⟨he, hzero⟩
        exact physicalLines_not_closed P (append_ne_nil_of_right_ne_nil _ hpiece.1)
          (unclosed_behind_object h hpiece) es

theorem physicalLines_of_zero (hne : current ≠ [])
    (h : ∀ f ∈ es, f.persisted = 0) : physicalLines P current es = [current] := by
  induction es with
  | nil => rw [physicalLines, if_neg hne]
  | cons e es ih =>
    have hzero : e.persisted = 0 := h e mem_cons_self
    rw [physicalLines, if_neg (not_completed_of_zero P hzero), piece_of_zero P hzero, append_nil]
    exact ih fun f hf => h f (mem_cons_of_mem e hf)

theorem completedRows_of_zero (h : ∀ f ∈ es, f.persisted = 0) : completedRows P es = [] := by
  have hnone : ∀ f ∈ es, ¬ (decide (f.Completed P) = true) := by
    intro f hf; simpa using not_completed_of_zero P (h f hf)
  rw [completedRows, filter_eq_nil_iff.mpr hnone, map_nil]

theorem exists_first_tear (h : ¬ NoTear P es) :
    ∃ before e after, es = before ++ e :: after ∧ NoTear P before ∧ e.Torn P := by
  induction es with
  | nil => exact absurd (forall_mem_nil _) h
  | cons f es ih =>
    by_cases hf : f.Torn P
    · exact ⟨[], f, es, rfl, forall_mem_nil _, hf⟩
    · have hes : ¬ NoTear P es := fun hes => h (forall_mem_cons.mpr ⟨hf, hes⟩)
      obtain ⟨before, e, after, rfl, hbefore, he⟩ := ih hes
      exact ⟨f :: before, e, after, rfl, forall_mem_cons.mpr ⟨hf, hbefore⟩, he⟩

/-! ## What survives -/

theorem loadCoverage_bare
    (hbefore : NoTear P before) (he : e.persisted = (e.json P).length) (hafter : ∀ f ∈ after, f.persisted = 0) :
    loadCoverage P dataset (coverageLog P (before ++ e :: after))
      = .ok (recordRows (completedRows P before ++ [e.row])) := by
  have hcut : ¬ e.Completed P := by
    rw [CoverageAppend.Completed, CoverageAppend.line, he, CoverageAppend.json]; simp
  have hpiece : e.piece P = e.json P := by
    rw [piece_of_not_completed P hcut, he, take_length]
  have hlines : physicalLines P [] (before ++ e :: after)
      = (before.filter (fun e => e.Completed P) ++ [e]).map fun e => e.json P := by
    rw [physicalLines_noTear P hbefore, physicalLines, if_neg hcut, nil_append, hpiece,
      physicalLines_of_zero P (piece_json P e).1 hafter, map_append]
    rfl
  rw [loadCoverage_coverageLog, hlines]
  refine (foldlM_json P _ []).trans ?_
  rw [nil_append, map_append, completedRows, map_singleton]

theorem completedRows_bare
    (he : ¬ e.Completed P) (hafter : ∀ f ∈ after, f.persisted = 0) :
    completedRows P (before ++ e :: after) = completedRows P before := by
  have hafter' : completedRows P after = [] := completedRows_of_zero P hafter
  rw [completedRows] at hafter' ⊢
  rw [filter_append, filter_cons_of_neg (by simpa using he), map_append, hafter', append_nil, completedRows]

theorem bare_of_loads {m : CoverageMap} (hbefore : NoTear P before) (he : e.Torn P)
    (h : loadCoverage P dataset (coverageLog P (before ++ e :: after)) = .ok m) :
    e.persisted = (e.json P).length ∧ ∀ f ∈ after, f.persisted = 0 := by
  rw [loadCoverage_coverageLog, physicalLines_noTear P hbefore, physicalLines, if_neg he.1] at h
  have hclosed : ∀ line ∈ physicalLines P (e.piece P) after, JsonLex.run .start line = .closed :=
    fun line hline => closed_of_foldlM P h line (mem_append_right _ hline)
  have hpiece : Piece (e.piece P) := piece_of_torn P he
  have hcut : e.piece P = (e.json P).take e.persisted := piece_of_not_completed P he.1
  have hwhole : e.piece P = e.json P := by
    by_contra hne
    have hfront : e.piece P <+: e.json P := hcut ▸ take_prefix _ _
    obtain ⟨line, hline, hopen⟩ := physicalLines_not_closed P hpiece.1
      ((objectText_json P e).unclosed_of_cut hfront hpiece.1 hne) after
    exact hopen (hclosed line hline)
  refine ⟨?_, fun f hf => ?_⟩
  · have hlong : (e.json P).length ≤ e.persisted := take_eq_self_iff _ |>.mp (hcut ▸ hwhole)
    have hshort : ¬ (e.json P).length + 1 ≤ e.persisted := by
      have hnot := he.1
      rw [CoverageAppend.Completed, CoverageAppend.line, length_append] at hnot; exact hnot
    omega
  · by_contra hne
    rw [hwhole] at hclosed
    obtain ⟨line, hline, hopen⟩ := physicalLines_behind_object P (objectText_json P e) ⟨f, hf, hne⟩
    exact hopen (hclosed line hline)

/-- The coverage log survives the appends exactly when none was torn, or the only torn one lacks its
newline, is the last that wrote, and says nothing new. -/
theorem coverage_survives_iff (es : List (CoverageAppend dataset)) :
    CoverageSurvives P es ↔ NoTear P es ∨ BareRepeat P es := by
  constructor
  · rintro ⟨m, hm, hlookup⟩
    by_cases htear : NoTear P es
    · exact Or.inl htear
    right
    obtain ⟨before, e, after, rfl, hbefore, he⟩ := exists_first_tear P htear
    obtain ⟨hlength, hafter⟩ := bare_of_loads P hbefore he hm
    refine ⟨before, e, after, rfl, hbefore, hlength, hafter, ?_⟩
    rw [loadCoverage_bare P hbefore hlength hafter] at hm
    cases hm
    have hkey := hlookup e.row.key
    rw [lookup_recordRows, lastRow_concat, if_pos rfl, completedRows_bare P he.1 hafter] at hkey
    exact hkey.symm
  · rintro (hclean | ⟨before, e, after, rfl, hbefore, hlength, hafter, hrepeat⟩)
    · refine ⟨recordRows (completedRows P es), ?_, lookup_recordRows _⟩
      have hlines : physicalLines P [] es = (es.filter fun e => e.Completed P).map fun e => e.json P := by
        have h := physicalLines_noTear P hclean []
        rw [append_nil] at h
        rw [h, physicalLines, if_pos rfl, append_nil]
      rw [loadCoverage_coverageLog, hlines]; exact foldlM_json P _ []
    · refine ⟨_, loadCoverage_bare P hbefore hlength hafter, fun key => ?_⟩
      have hcut : ¬ e.Completed P := by
        rw [CoverageAppend.Completed, CoverageAppend.line, hlength, CoverageAppend.json]; simp
      rw [lookup_recordRows, lastRow_concat, completedRows_bare P hcut hafter]
      split
      next heq => rw [← heq, hrepeat]
      next => rfl

end Runs

/-! ## A torn append -/

section Torn

def tabledText (value : ℤ) (text : String) (n : ℤ) :
    String := if n = value then text else String.ofList (intDigits n)

def readTabled (value : ℤ) (text s : String) : Option ℤ :=
  if s = text then some value
  else match loads (fun _ => .nan) s.toList with
    | some (.int n) => some n
    | _ => none

theorem readTabled_tabledText {value : ℤ} {text : String} (h : loads (fun _ => .nan) text.toList = none) (n : ℤ) :
    readTabled value text (tabledText value text n) = some n := by
  have hloads : loads (fun _ => .nan) (String.ofList (intDigits n)).toList = some (.int n) := by
    have hplain : Plain (.int n) := trivial
    rw [String.toList_ofList]; exact loads_dumps (hplain.written (fun _ => []) _)
  rw [tabledText]
  by_cases hn : n = value
  · rw [if_pos hn, readTabled, if_pos rfl, hn]
  · have htext : String.ofList (intDigits n) ≠ text := by
      intro heq
      rw [heq, h] at hloads; cases hloads
    rw [if_neg hn, readTabled, if_neg htext, hloads]

def newYearTexts : IsoTexts where
  dayText := tabledText 20454 "2026-01-01"
  readDay := readTabled 20454 "2026-01-01"
  readDay_dayText := readTabled_tabledText (by decide)
  stampText := tabledText 1767225600000000000 "2026-01-01T00:00:00+00:00"
  readStamp v := match v with
    | .str s => (readTabled 1767225600000000000 "2026-01-01T00:00:00+00:00" s).map some
    | _ => none
  readStamp_stampText t := by
    show (readTabled _ _ (tabledText _ _ t)).map some = some (some t)
    rw [readTabled_tabledText (by decide)]; rfl
  str := Json.strOr
  str_str := Json.strOr_str
  readFloat _ := .nan

/-- An append for the first of January 2026 of which some bytes persisted. -/
def newYearAppend (symbol : String) (persisted : ℕ) : CoverageAppend "aggTrades" where
  row :=
    { dataset := "aggTrades", symbol := symbol, day := 20454, status := .ok, rawSha256 := some "5e1f", rows := 12
      recordedAt := some 1767225600000000000, detail := none }
  recordedAt := 1767225600000000000
  recorded := rfl
  ofDataset := rfl
  persisted := persisted

/-- Forty bytes of one symbol's line take the next symbol's complete line with them. -/
theorem torn_append_loses_log :
    ¬ CoverageSurvives newYearTexts [newYearAppend "BTCUSDT" 40, newYearAppend "ETHUSDT" 400] := by
  rintro ⟨m, hm, -⟩
  have htorn : (newYearAppend "BTCUSDT" 40).Torn newYearTexts := ⟨by decide +kernel, by decide⟩
  have hnone : NoTear newYearTexts ([] : List (CoverageAppend "aggTrades")) := forall_mem_nil _
  have hzero : (newYearAppend "ETHUSDT" 400).persisted = 0 :=
    (bare_of_loads newYearTexts hnone htorn hm).2 _ (mem_singleton_self _)
  exact absurd hzero (by decide)

end Torn

end CryptoPilot.Archive
