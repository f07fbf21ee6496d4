/- # LedgerFile — the ledger as a file.

`save_ledger` writes one JSON object, its keys sorted, flat positions and missing values left out;
`load_ledger` reads it, and puts the snapshots in time order.  What is loaded is what was saved, up
to the order of a dict's entries (`LedgerState.Same`), wherever the fields agree as the decoder
demands (`Storable`): `load_save`, which gives `LedgerState.saved` and `LedgerState.loaded`. -/
import CryptoPilot.Live.JournalLines
import CryptoPilot.Live.Ledger

namespace CryptoPilot.Live

open CryptoPilot.Lib List
open CryptoPilot.Lib.JsonText (dumps loads loads_dumps Plain PlainFields PlainItems)

/-! ## Texts -/

/-- The conversions of the ledger beside those of the journal: `Decimal(str(raw))`, `_parse_utc`,
and the instant of `funding_accrued_through`, which may be naive. -/
structure LedgerTexts extends JournalTexts where
  decimal : Json → Option ℚ
  decimal_text : ∀ q, decimal (.str (decimalText q)) = some q
  utc : Json → Option ℚ
  utc_iso : ∀ t, utc (.str (iso t)) = some t
  stamp : Json → Option ℚ
  stamp_iso : ∀ t, stamp (.str (iso t)) = some t

section File

variable (P : LedgerTexts)

/-! ## Saving -/

/-- The entries of a dict as `json.dumps(…, sort_keys=True)` lists them. -/
def sortedEntries (d : Dict ℚ) : List (Sigma fun _ : String => ℚ) :=
  d.entries.insertionSort fun a b => a.1 ≤ b.1

/-- A dict of numbers, each written by `text`. -/
def dictJson (text : ℚ → String) (d : Dict ℚ) : Json := .obj ((sortedEntries d).map fun e => (e.1, .str (text e.2)))

/-- An entry of `position_history`. -/
def PositionSnapshot.json (snap : PositionSnapshot) : Json :=
  .obj [("effective_from", .str (P.iso snap.effectiveFrom)), ("positions", dictJson P.decimalText snap.positions)]

def instantJson (t : Option ℚ) : Option Json := t.map fun t => .str (P.iso t)

/-- The keys of the payload in order, each with its value if it is written. -/
def LedgerState.rows (s : LedgerState) : List (String × Option Json) :=
  [("cash_usdt", s.cashUsdt.map fun q => .str (P.decimalText q)),
    ("derisk_reasons", s.deriskSince.map fun _ => .arr ((s.deriskReasons.insertionSort fun a b => a ≤ b).map .str)),
    ("derisk_since", instantJson P s.deriskSince),
    ("equity_high_water_mark", some (.str (P.decimalText s.equityHighWaterMark))),
    ("funding_accrual_started_at", instantJson P s.fundingAccrualStartedAt),
    ("funding_accrued_through", instantJson P s.fundingAccruedThrough),
    ("funding_backfilled_through", instantJson P s.fundingBackfilledThrough),
    ("funding_watermarks", if s.fundingWatermarks.entries =
      [] then none else some (dictJson P.iso s.fundingWatermarks)),
    ("journal_applied_fill_seq", some (.int s.journalAppliedFillSeq)),
    ("journal_recorded_fill_seq", some (.int s.journalRecordedFillSeq)),
    ("last_executed_decision_time", instantJson P s.lastExecutedDecisionTime),
    ("position_history", if s.positionHistory = [] then none else some (.arr (s.positionHistory.map (·.json P)))),
    ("positions", some (dictJson P.decimalText (Dict.dropDefault s.positions 0)))]

def writtenRows (rows : List (String × Option Json)) : List (String × Json) :=
  rows.filterMap fun row => row.2.map fun v => (row.1, v)

/-- `save_ledger`: the text of the file. -/
def saveLedgerText (s : LedgerState) : List Char := dumps P.floatText (.obj (writtenRows (s.rows P)))

/-! ## Loading -/

/-- `_parse_positions`, and the same of watermarks: an object whose values all read. -/
def readDict (read : Json → Option ℚ) : Json → Option (Dict ℚ)
  | .obj fields => (fields.mapM fun f => (read f.2).map fun q => (f.1, q)).map Dict.ofPairs
  | _ => none

/-- An entry of `position_history`. -/
def readSnapshot : Json → Option PositionSnapshot
  | .obj fields => do
    let effectiveFrom ← (← Lib.Record.get fields "effective_from") |> P.utc
    let positions ← (← Lib.Record.get fields "positions") |> readDict P.decimal
    some ⟨effectiveFrom, positions⟩
  | _ => none

/-- `position_history`, in the order of the file. -/
def readHistory : Json → Option (List PositionSnapshot)
  | .arr items => items.mapM (readSnapshot P)
  | _ => none

/-- `_parse_watermark`; a missing one is `-1`. -/
def readSeq : Option Json → Option ℤ
  | none => some (-1)
  | some (.bool _) => none
  | some v => (P.int v).bind fun n => if n < -1 then none else some n

/-- `tuple(sorted({str(item) for item in raw}))`. -/
def readReasons : Json → Option (List String)
  | .arr items => some (sortedReasons (items.map P.str))
  | _ => none

/-- The body of `load_ledger`, `none` where it raises. -/
def readLedger (fields : Lib.Record) : Option LedgerState :=
  match Lib.Record.get fields "positions" with
  | none => (readDict P.decimal (.obj fields)).map fun positions => { positions := positions }
  | some positionsRaw => do
    let hwm ← P.decimal ((Lib.Record.get fields "equity_high_water_mark").getD (.str "0"))
    let cash ← optional P.decimal (Lib.Record.get fields "cash_usdt")
    let accruedThrough ← optional P.stamp (getValue fields "funding_accrued_through")
    let lastExecuted ← optional P.utc (getValue fields "last_executed_decision_time")
    let accrualStarted ← optional P.utc (getValue fields "funding_accrual_started_at")
    let backfilled ← optional P.utc (getValue fields "funding_backfilled_through")
    let positions ← readDict P.decimal positionsRaw
    let watermarks ← readDict P.utc ((Lib.Record.get fields "funding_watermarks").getD (.obj []))
    let history ← readHistory P ((Lib.Record.get fields "position_history").getD (.arr []))
    let applied ← readSeq P (Lib.Record.get fields "journal_applied_fill_seq")
    let recorded ← readSeq P (Lib.Record.get fields "journal_recorded_fill_seq")
    let since ← optional P.utc (getValue fields "derisk_since")
    let reasons ← readReasons P ((Lib.Record.get fields "derisk_reasons").getD (.arr []))
    if recorded > applied then none
    else if since = none ∧ reasons ≠ [] then none
    else
      some
        { positions := positions, equityHighWaterMark := hwm, cashUsdt := cash
          fundingAccruedThrough := accruedThrough, lastExecutedDecisionTime := lastExecuted
          fundingWatermarks := watermarks
          positionHistory := history.insertionSort fun a b => a.effectiveFrom ≤ b.effectiveFrom
          fundingAccrualStartedAt := accrualStarted, fundingBackfilledThrough := backfilled
          journalAppliedFillSeq := applied, journalRecordedFillSeq := recorded
          deriskSince := since, deriskReasons := reasons }

/-- `load_ledger` on a file. -/
def loadLedgerText (text : List Char) : Except Exc LedgerState :=
  match loads P.readFloat text with
  | some (.obj fields) =>
    match readLedger P fields with
    | some s => .ok s
    | none => .error .dataIntegrityError
  | _ => .error .dataIntegrityError

end File

/-! ## Equal ledgers -/

structure PositionSnapshot.Same (x y : PositionSnapshot) : Prop where
  effectiveFrom : x.effectiveFrom = y.effectiveFrom
  positions : x.positions.entries.Perm y.positions.entries

structure LedgerState.Same (a b : LedgerState) : Prop where
  positions : a.positions.entries.Perm b.positions.entries
  equityHighWaterMark : a.equityHighWaterMark = b.equityHighWaterMark
  cashUsdt : a.cashUsdt = b.cashUsdt
  fundingAccruedThrough : a.fundingAccruedThrough = b.fundingAccruedThrough
  lastExecutedDecisionTime : a.lastExecutedDecisionTime = b.lastExecutedDecisionTime
  fundingWatermarks : a.fundingWatermarks.entries.Perm b.fundingWatermarks.entries
  positionHistory : List.Forall₂ PositionSnapshot.Same a.positionHistory b.positionHistory
  fundingAccrualStartedAt : a.fundingAccrualStartedAt = b.fundingAccrualStartedAt
  fundingBackfilledThrough : a.fundingBackfilledThrough = b.fundingBackfilledThrough
  journalAppliedFillSeq : a.journalAppliedFillSeq = b.journalAppliedFillSeq
  journalRecordedFillSeq : a.journalRecordedFillSeq = b.journalRecordedFillSeq
  deriskSince : a.deriskSince = b.deriskSince
  deriskReasons : a.deriskReasons = b.deriskReasons

/-- The fields agree with one another as `load_ledger` demands. -/
structure LedgerState.Storable (s : LedgerState) : Prop where
  recorded : -1 ≤ s.journalRecordedFillSeq
  counted : s.journalRecordedFillSeq ≤ s.journalAppliedFillSeq
  flagged : s.deriskSince = none → s.deriskReasons = []
  reasons : sortedReasons s.deriskReasons = s.deriskReasons

/-! ## Written payloads -/

section Rows

variable {rows : List (String × Option Json)} {key : String}

theorem get_writtenRows (h : (rows.map Prod.fst).Nodup) :
    Lib.Record.get (writtenRows rows) key = (rows.find? fun row => row.1 = key).bind Prod.snd := by
  induction rows with
  | nil => rfl
  | cons row rest ih =>
    obtain ⟨name, value⟩ := row
    rw [map_cons, nodup_cons] at h
    have hrest := ih h.2
    by_cases hkey : name = key
    · rw [find?_cons_of_pos (by simpa using hkey)]
      cases value with
      | some v => simp [writtenRows, Lib.Record.get, hkey]
      | none =>
        -- the key is missing in the rest too
        have hnot : rest.find? (fun row => row.1 = key) = none := by
          rw [find?_eq_none]
          intro row hrow heq
          have hname : row.1 = key := by simpa using heq
          exact h.1 (mem_map.mpr ⟨row, hrow, hname.trans hkey.symm⟩)
        rw [hnot] at hrest; simpa [writtenRows] using hrest
    · rw [find?_cons_of_neg (by simpa using hkey), ← hrest]
      cases value with
      | some v => simp [writtenRows, Lib.Record.get, hkey]
      | none => simp [writtenRows]

theorem plainFields_iff {fields : List (String × Json)} : PlainFields fields ↔ ∀ f ∈ fields, Plain f.2 := by
  induction fields with
  | nil => simp [PlainFields]
  | cons f rest ih => simp [PlainFields, ih]

theorem plainItems_iff {items : List Json} : PlainItems items ↔ ∀ v ∈ items, Plain v := by
  induction items with
  | nil => simp [PlainItems]
  | cons v rest ih => simp [PlainItems, ih]

theorem plain_writtenRows (h : (rows.map Prod.fst).Nodup) (hplain : ∀ row ∈ rows, ∀ v ∈ row.2, Plain v) :
    Plain (.obj (writtenRows rows)) := by
  refine ⟨plainFields_iff.mpr fun f hf => ?_, ?_⟩
  · obtain ⟨row, hrow, hf⟩ := mem_filterMap.mp hf
    obtain ⟨v, hv, rfl⟩ := Option.map_eq_some_iff.mp hf; exact hplain row hrow v hv
  · refine h.sublist ?_
    clear h hplain
    induction rows with
    | nil => exact List.Sublist.refl _
    | cons row rest ih =>
      obtain ⟨name, value⟩ := row
      cases value with
      | none => simpa [writtenRows] using ih.cons name
      | some v => simpa [writtenRows] using ih.cons_cons name

end Rows

/-! ## The round trip of a file -/

section RoundTrip

variable (P : LedgerTexts)

theorem plain_dictJson (text : ℚ → String) (d : Dict ℚ) : Plain (dictJson text d) := by
  refine ⟨plainFields_iff.mpr fun f hf => ?_, ?_⟩
  · obtain ⟨e, -, rfl⟩ := mem_map.mp hf; trivial
  · rw [map_map]; exact ((perm_insertionSort _ d.entries).map Sigma.fst).nodup_iff.mpr d.keys_nodup

variable {read : Json → Option ℚ}

theorem readDict_dictJson {text : ℚ → String} (h : ∀ q, read (.str (text q)) = some q)
    (d : Dict ℚ) : ∃ d', readDict read (dictJson text d) = some d' ∧ d.entries.Perm d'.entries := by
  have hsorted : (sortedEntries d).Perm d.entries := perm_insertionSort _ d.entries
  have hkeys : (((sortedEntries d).map fun e => (e.1, e.2)).map Prod.fst).Nodup := by
    rw [map_map]; exact (hsorted.map Sigma.fst).nodup_iff.mpr d.keys_nodup
  have hread : ((sortedEntries d).map fun e => (e.1, JsonTree.str (text e.2))).mapM
      (fun f => (read f.2).map fun q => (f.1, q)) = some ((sortedEntries d).map fun e => (e.1, e.2)) := by
    rw [option_mapM_eq_some, forall₂_map_left_iff, forall₂_map_right_iff, forall₂_same]
    intro e _
    rw [h]; rfl
  refine ⟨Dict.ofPairs ((sortedEntries d).map fun e => (e.1, e.2)), ?_, ?_⟩
  · rw [dictJson, readDict, hread]; rfl
  · have hpairs := Dict.entries_ofPairs hkeys
    rw [map_map] at hpairs
    have hid : (sortedEntries d).map ((fun p : String × ℚ => (⟨p.1, p.2⟩ : Sigma fun _ : String => ℚ)) ∘
        fun e => (e.1, e.2)) = sortedEntries d := map_id _
    rw [hid] at hpairs; exact (hpairs.trans hsorted).symm

theorem readSnapshot_json (snap : PositionSnapshot) :
    ∃ snap', readSnapshot P (snap.json P) = some snap' ∧ snap.Same snap' := by
  obtain ⟨positions, hread, hperm⟩ := readDict_dictJson P.decimal_text snap.positions
  refine ⟨⟨snap.effectiveFrom, positions⟩, ?_, rfl, hperm⟩
  simp [PositionSnapshot.json, readSnapshot, Lib.Record.get, P.utc_iso, hread]

theorem readHistory_json (history : List PositionSnapshot) :
    ∃ history', readHistory P (.arr (history.map (·.json P))) = some history' ∧
      List.Forall₂ PositionSnapshot.Same history history' := by
  induction history with
  | nil => exact ⟨[], rfl, .nil⟩
  | cons snap rest ih =>
    obtain ⟨rest', hrest, hsame⟩ := ih
    obtain ⟨snap', hsnap, hsame'⟩ := readSnapshot_json P snap
    refine ⟨snap' :: rest', ?_, .cons hsame' hsame⟩
    rw [readHistory] at hrest ⊢
    rw [map_cons, mapM_cons, hsnap, hrest]; rfl

theorem readSeq_int {n : ℤ} (h : -1 ≤ n) : readSeq P (some (.int n)) = some n := by
  rw [readSeq, P.int_int, Option.bind_some, if_neg (by omega)]; exact nofun

theorem readReasons_sorted {reasons : List String} (h : sortedReasons reasons = reasons) :
    readReasons P (.arr ((reasons.insertionSort fun a b => a ≤ b).map .str)) = some reasons := by
  have hpairwise : reasons.Pairwise fun a b => a ≤ b := by
    rw [← h]; exact pairwise_insertionSort _ _
  have hstr : (reasons.map JsonTree.str).map P.str = reasons := by
    rw [map_map]; exact (map_congr_left fun text _ => P.str_str text).trans (map_id reasons)
  rw [hpairwise.insertionSort_eq, readReasons, hstr, h]

theorem present_instantJson (t : Option ℚ) : present (instantJson P t) = instantJson P t := by
  cases t <;> rfl

theorem nodup_rows (s : LedgerState) : ((s.rows P).map Prod.fst).Nodup := by
  simp [LedgerState.rows]

theorem plain_rows (s : LedgerState) : Plain (.obj (writtenRows (s.rows P))) := by
  refine plain_writtenRows (nodup_rows P s) ?_
  have hinstant : ∀ t, ∀ v ∈ instantJson P t, Plain v := by
    intro t v hv
    obtain ⟨t, -, rfl⟩ := Option.map_eq_some_iff.mp hv; trivial
  have hstrings : ∀ reasons : List String, Plain (.arr (reasons.map .str)) := by
    intro reasons
    refine plainItems_iff.mpr fun v hv => ?_
    obtain ⟨text, -, rfl⟩ := mem_map.mp hv; trivial
  have hhistory : Plain (.arr (s.positionHistory.map (·.json P))) := by
    refine plainItems_iff.mpr fun v hv => ?_
    obtain ⟨snap, -, rfl⟩ := mem_map.mp hv
    exact ⟨⟨trivial, plain_dictJson P.decimalText snap.positions, trivial⟩, by simp⟩
  intro row hrow v hv
  simp only [LedgerState.rows, mem_cons, not_mem_nil, or_false] at hrow
  rcases hrow with rfl | rfl | rfl | rfl | rfl | rfl | rfl | rfl | rfl | rfl | rfl | rfl | rfl
  · obtain ⟨q, -, rfl⟩ := Option.map_eq_some_iff.mp hv; trivial
  · obtain ⟨t, -, rfl⟩ := Option.map_eq_some_iff.mp hv; exact hstrings _
  · exact hinstant _ v hv
  · cases hv; trivial
  · exact hinstant _ v hv
  · exact hinstant _ v hv
  · exact hinstant _ v hv
  · split_ifs at hv
    · cases hv
    · cases hv; exact plain_dictJson P.iso _
  · cases hv; trivial
  · cases hv; trivial
  · exact hinstant _ v hv
  · split_ifs at hv
    · cases hv
    · cases hv; exact hhistory
  · cases hv; exact plain_dictJson P.decimalText _

theorem readDict_optional (d : Dict ℚ) :
    ∃ d', readDict P.utc ((if d.entries = [] then none else some (dictJson P.iso d)).getD (.obj [])) = some d' ∧
      d.entries.Perm d'.entries := by
  split_ifs with hempty
  · exact ⟨∅, rfl, by rw [hempty]; exact List.Perm.refl _⟩
  · exact readDict_dictJson P.utc_iso d

theorem readHistory_optional (history : List PositionSnapshot) :
    ∃ history', readHistory P ((if history =
      [] then none else some (.arr (history.map (·.json P)))).getD (.arr [])) =
        some history' ∧ List.Forall₂ PositionSnapshot.Same history history' := by
  split_ifs with hempty
  · exact ⟨[], rfl, by rw [hempty]; exact .nil⟩
  · exact readHistory_json P history

theorem optional_instant (h : ∀ t, read (.str (P.iso t)) = some t) (t : Option ℚ) :
    optional read (instantJson P t) = some t :=
  optional_map h t

theorem readLedger_rows {s : LedgerState} (h : s.Storable) {positions watermarks : Dict ℚ}
    {history : List PositionSnapshot}
    (hpositions : readDict P.decimal (dictJson P.decimalText (Dict.dropDefault s.positions 0)) = some positions)
    (hwatermarks : readDict P.utc ((if s.fundingWatermarks.entries = [] then none
      else some (dictJson P.iso s.fundingWatermarks)).getD (.obj [])) = some watermarks)
    (hhistory : readHistory P ((if s.positionHistory = [] then none
      else some (.arr (s.positionHistory.map (·.json P)))).getD (.arr [])) = some history) :
    readLedger P (writtenRows (s.rows P)) = some { s with
      positions := positions, fundingWatermarks := watermarks
      positionHistory := history.insertionSort fun a b => a.effectiveFrom ≤ b.effectiveFrom } := by
  have happlied := readSeq_int P (h.recorded.trans h.counted)
  have hrecorded := readSeq_int P h.recorded
  have hcash : optional P.decimal (s.cashUsdt.map fun q => .str (P.decimalText q)) = some s.cashUsdt :=
    optional_map P.decimal_text _
  have hreasons : readReasons P ((s.deriskSince.map fun _ => JsonTree.arr ((s.deriskReasons.insertionSort
      fun a b => a ≤ b).map .str)).getD (.arr [])) = some s.deriskReasons := by
    cases hsince : s.deriskSince with
    | none => rw [h.flagged hsince]; rfl
    | some t => exact readReasons_sorted P h.reasons
  have hflag : ¬(s.deriskSince = none ∧ s.deriskReasons ≠ []) := fun hbad => hbad.2 (h.flagged hbad.1)
  have hcounted : ¬s.journalRecordedFillSeq > s.journalAppliedFillSeq := not_lt.mpr h.counted
  simp only [readLedger, getValue, get_writtenRows (nodup_rows P s)]
  simp [LedgerState.rows, hpositions, hwatermarks, hhistory, happlied, hrecorded, hcash, hreasons, hflag, hcounted,
    present_instantJson, optional_instant P P.utc_iso, optional_instant P P.stamp_iso, P.decimal_text]


theorem same_sort {history history' : List PositionSnapshot}
    (h : List.Forall₂ PositionSnapshot.Same history history') :
    List.Forall₂ PositionSnapshot.Same (history.insertionSort fun a b => a.effectiveFrom ≤ b.effectiveFrom)
      (history'.insertionSort fun a b => a.effectiveFrom ≤ b.effectiveFrom) := by
  have hinsert : ∀ {x y : PositionSnapshot} {l l' : List PositionSnapshot}, x.Same y →
      List.Forall₂ PositionSnapshot.Same l l' → List.Forall₂ PositionSnapshot.Same
        (l.orderedInsert (fun a b => a.effectiveFrom ≤ b.effectiveFrom) x)
        (l'.orderedInsert (fun a b => a.effectiveFrom ≤ b.effectiveFrom) y) := by
    intro x y l l' hxy hl
    induction hl with
    | nil => exact .cons hxy .nil
    | @cons z w l l' hzw hl ih =>
      rw [orderedInsert, orderedInsert, hxy.effectiveFrom, hzw.effectiveFrom]
      split_ifs
      · exact .cons hxy (.cons hzw hl)
      · exact .cons hzw ih
  induction h with
  | nil => exact .nil
  | cons hxy _ ih => exact hinsert hxy ih

/-- **The file of a ledger**: it loads, as the ledger that was saved. -/
theorem load_save {s : LedgerState} (h : s.Storable) :
    ∃ s', loadLedgerText P (saveLedgerText P s) = .ok s' ∧ ∃ t, s.saved.loaded = .ok t ∧ t.Same s' := by
  obtain ⟨positions, hpositions, hperm⟩ :=
    @readDict_dictJson P.decimal P.decimalText P.decimal_text (Dict.dropDefault s.positions 0)
  obtain ⟨watermarks, hwatermarks, hmarks⟩ := readDict_optional P s.fundingWatermarks
  obtain ⟨history, hhistory, hsame⟩ := readHistory_optional P s.positionHistory
  have hread := readLedger_rows P h hpositions hwatermarks hhistory
  have hloads := loads_dumps ((plain_rows P s).written P.floatText P.readFloat)
  have hload : ∀ t, readLedger P (writtenRows (s.rows P)) = some t →
      loadLedgerText P (saveLedgerText P s) = .ok t := by
    intro t ht
    rw [loadLedgerText, saveLedgerText, hloads]; simp only [ht]
  exact ⟨_, hload _ hread, _, if_neg (not_lt.mpr h.counted),
    hperm, rfl, rfl, rfl, rfl, hmarks, same_sort hsame, rfl, rfl, rfl, rfl, rfl, rfl⟩

end RoundTrip

end CryptoPilot.Live
