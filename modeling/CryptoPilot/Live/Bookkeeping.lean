/- # Bookkeeping — committing fills and writing their evidence, write by write.

`Disk` is everything the bookkeeping keeps on disk.  Each durable operation takes its outcome from a
script: it completes, it raises (with a part of it possibly on disk), or the process dies at it. -/
import Mathlib.Data.List.Nodup
import CryptoPilot.Live.TaxRecords

namespace CryptoPilot.Live

open CryptoPilot.Lib List
open CryptoPilot.Lib.Proc (Along)

/-! ## The disk -/

inductive IoResult where
  | done
  | raised
  | killed
  deriving DecidableEq, Repr

/-- The outcome of one durable operation. -/
structure IoStep where
  landed : ℕ
  result : IoResult
  deriving DecidableEq, Repr

/-- The files of the bookkeeping. -/
structure Disk where
  journal : Journal := Journal.empty
  ledger : LedgerState := {}
  fillRows : List FillEvent := []
  taxRows : List TaxRecord := []
  reconciliations : List CashReconciliation := []
  script : List IoStep := []

abbrev BookM (α : Type) : Type := Proc Exc Disk α

/-- The outcome of the next operation; the process ends with its script. -/
def nextIo : BookM IoStep := do
  let b ← Proc.get
  match b.script with
  | [] => Proc.throw .killed
  | io :: rest => do
    Proc.modify fun b => { b with script := rest }
    pure io

def finishIo : IoResult → BookM Unit
  | .done => pure ()
  | .raised => Proc.throw .other
  | .killed => Proc.throw .killed

/-- A read, a directory creation or an audit line: it leaves no trace in `Disk`. -/
def touch : BookM Unit := do
  let io ← nextIo
  finishIo io.result

/-- `save_ledger`: one atomic replace, which may be followed by a failure to sync. -/
def saveLedger (s : LedgerState) : BookM Unit := do
  let io ← nextIo
  if io.result = .done ∨ 0 < io.landed then
    Proc.modify fun b => { b with ledger := s.saved }
    finishIo io.result
  else finishIo io.result

def loadLedger : BookM LedgerState := do
  touch
  let b ← Proc.get
  Proc.ofExcept b.ledger.loaded

/-- `try: … except Exception: …` around a step whose failure ends the work: `none` is the handler.
-/
def attempted {α : Type} (x : BookM α) : BookM (Option α) :=
  Proc.tryCatch (some <$> x) fun e =>
    if e.isException then
      Proc.tryCatch (do touch; pure none) fun e' =>
        if e'.isException then pure none else Proc.throw e'
    else Proc.throw e

/-! ## The per-fill ledger -/

def fillReasons : List String :=
  ["maker_fill", "backstop_taker", "timeout_taker", "residual", "obsolete", "immediate_taker",
   "orphan_settlement", "recovered_fill", "venue_force_close"]

/-- The month file of a fill row: `fills_<YYYYMM>.parquet`. -/
def FillEvent.month (ev : FillEvent) : ℤ := monthKey ev.timestamp

def FillEvent.key (ev : FillEvent) : Option (ℤ × String) := ev.fillId.map fun fid => (ev.month, fid)

/-- `_dedupe_batch`: the first event of each identity. -/
def dedupeBatch (seen : List String) : List FillEvent → List FillEvent
  | [] => []
  | ev :: rest =>
    match ev.fillId with
    | none => ev :: dedupeBatch seen rest
    | some fid =>
      if fid ∈ seen then dedupeBatch seen rest else ev :: dedupeBatch (fid :: seen) rest

def knownFillIds (rows : List FillEvent) (month : ℤ) : List String :=
  (rows.filter fun ev => decide (ev.month = month)).filterMap FillEvent.fillId

def freshFills (rows events : List FillEvent) (month : ℤ) : List FillEvent :=
  (dedupeBatch [] (events.filter fun ev => decide (ev.month = month))).filter fun ev =>
    match ev.fillId with
    | none => true
    | some fid => !decide (fid ∈ knownFillIds rows month)

def fillMonths (events : List FillEvent) : List ℤ :=
  (events.map FillEvent.month).dedup.insertionSort (· ≤ ·)

/-- Extend one month file: read it, and replace it if a row is new. -/
def appendMonth (events : List FillEvent) (month : ℤ) : BookM Unit := do
  if (dedupeBatch [] (events.filter fun ev => decide (ev.month = month))).any
      (fun ev => !decide (ev.liquidity = "maker" ∨ ev.liquidity = "taker")) then
    Proc.throw .valueError
  else do
    touch
    let b ← Proc.get
    if freshFills b.fillRows events month = [] then pure ()
    else do
      let io ← nextIo
      if io.result = .done ∨ 0 < io.landed then
        Proc.modify fun b => { b with fillRows := b.fillRows ++ freshFills b.fillRows events month }
        finishIo io.result
      else finishIo io.result

def appendFills (events : List FillEvent) : BookM Unit :=
  if events = [] then pure ()
  else if events.any fun ev => !fillReasons.contains ev.reason then Proc.throw .valueError
  else Proc.forEach (fillMonths events) (appendMonth events)

/-- `append_tax_records`: every record is checked before the first row is written. -/
def appendTaxRecords (records : List TaxRecord) : BookM Unit := do
  Proc.forEach records fun r => Proc.ofExcept (validateTaxRecord r)
  touch
  let io ← nextIo
  if io.result = .done then
    Proc.modify fun b => { b with taxRows := b.taxRows ++ rowsToAppend b.taxRows records }
  else do
    Proc.modify fun b =>
      { b with taxRows := b.taxRows ++ (rowsToAppend b.taxRows records).take io.landed }
    finishIo io.result

/-! ## `_commit_and_record` -/

/-- The part of `LiveSettings` that the bookkeeping reads. -/
structure LiveSettings where
  mode : ExecutionMode
  notionalEquityUsdt : ℚ
  cashReconcileToleranceUsdt : ℚ
  recordRunId : String
  delistingSettlementFeeBps : ℚ

/-- The arguments of `_commit_and_record`. -/
structure CommitCall where
  fallbackAttempt : AttemptContext
  equity : Option ℚ
  executedDecisionTime : Option ℚ
  fundingRecords : List TaxRecord := []
  settlementRecords : List TaxRecord := []
  reconcileCashBefore : Option ℚ := none

def LiveSettings.commitConfig (st : LiveSettings) (equity executed : Option ℚ) : CommitConfig where
  equity := equity
  trackCash := st.mode.suppressesMutations
  startingCapital := st.notionalEquityUsdt
  executedDecisionTime := executed

def CommitCall.config (call : CommitCall) (st : LiveSettings) : CommitConfig :=
  st.commitConfig call.equity call.executedDecisionTime

def commitJournalFills (c : CommitConfig) (base : LedgerState) (fills : List JournalFill) :
    BookM LedgerState := do
  match ← Proc.ofExcept (commitFold c base fills) with
  | none => pure base
  | some s => do
    saveLedger s
    pure s

def stampExecuted (base : LedgerState) (call : CommitCall) : LedgerState :=
  { base with
    equityHighWaterMark := match call.equity with
      | some equity => max base.equityHighWaterMark equity
      | none => base.equityHighWaterMark,
    lastExecutedDecisionTime := call.executedDecisionTime.or base.lastExecutedDecisionTime }

def stampChanges (base : LedgerState) (call : CommitCall) : Bool :=
  (match call.equity with
    | some equity => decide (base.equityHighWaterMark < equity)
    | none => false) ||
  (call.executedDecisionTime.isSome && !decide (base.lastExecutedDecisionTime = call.executedDecisionTime))

/-- The first half of `_commit_and_record`: apply every fill above the applied watermark. -/
def commitPending (st : LiveSettings) (base : LedgerState) (call : CommitCall) : BookM LedgerState := do
  let b ← Proc.get
  let pending := b.journal.fillsAfter base.journalAppliedFillSeq
  if pending ≠ [] then commitJournalFills (call.config st) base pending
  else if stampChanges base call then do
    saveLedger (stampExecuted base call)
    pure (stampExecuted base call)
  else pure base

def freshJournalFills (j : Journal) (committed : LedgerState) : List JournalFill :=
  (j.fillsAfter committed.journalRecordedFillSeq).filter fun f =>
    decide (f.fillSeq ≤ committed.journalAppliedFillSeq)

/-- The records of the batch that this call's cash move includes: none of fills applied before. -/
def reconciledTrades (base : LedgerState) (fresh : List JournalFill) (batch : List TaxRecord) : List TaxRecord :=
  let appliedBefore := (fresh.filter fun f => decide (f.fillSeq ≤ base.journalAppliedFillSeq)).map
    fun f => simulatedTradeId f.fillSeq
  batch.filter fun r => !decide (r.recordId ∈ appliedBefore)

/-- The cash reconciliation of a batch, where both balances are known. -/
def reconcileBatch (st : LiveSettings) (base committed : LedgerState) (call : CommitCall)
    (fresh : List JournalFill) (batch : List TaxRecord) : Except Exc (Option CashReconciliation) :=
  match base.cashUsdt, committed.cashUsdt with
  | some baseCash, some cashAfter =>
    (reconcileCycleCash (call.reconcileCashBefore.getD baseCash) cashAfter
      (reconciledTrades base fresh batch ++ call.settlementRecords) call.fundingRecords
      st.cashReconcileToleranceUsdt).map some
  | _, _ => .ok none

def reconcileCash (st : LiveSettings) (base committed : LedgerState) (call : CommitCall)
    (fresh : List JournalFill) (batch : List TaxRecord) : BookM Unit := do
  match ← Proc.ofExcept (reconcileBatch st base committed call fresh batch) with
  | none => pure ()
  | some r => do
    Proc.modify fun b => { b with reconciliations := b.reconciliations ++ [r] }
    touch

def recordTrades (st : LiveSettings) (events : List FillEvent) : BookM (List TaxRecord) := do
  touch
  let batch ← Proc.ofExcept (simulatedTaxRecords events st.mode.value)
  if batch = [] then pure batch
  else do
    appendTaxRecords batch
    pure batch

/-- `mark_fills_recorded`. -/
def markRecorded (base : LedgerState) (through : ℤ) : BookM LedgerState := do
  match ← Proc.ofExcept (markFillsRecorded base through) with
  | none => pure base
  | some s => do
    saveLedger s
    pure s

/-- The last step: the recorded watermark; a failure is repaired by the next call. -/
def markFresh (committed : LedgerState) (fresh : List JournalFill) : BookM LedgerState := do
  match fresh.getLast? with
  | none => pure committed
  | some last => do
    let marked ← attempted (markRecorded committed last.fillSeq)
    pure (marked.getD committed)

/-- The second half of `_commit_and_record`: evidence for fills above the recorded watermark. -/
def recordEvidence (st : LiveSettings) (base committed : LedgerState) (call : CommitCall)
    (j : Journal) : BookM LedgerState := do
  let fresh := freshJournalFills j committed
  if fresh = [] then pure committed
  else do
    let events := fillEventsFromJournal j fresh call.fallbackAttempt
    match ← attempted (do touch; appendFills events) with
    | none => pure committed
    | some _ =>
      if st.mode.suppressesMutations then do
        match ← attempted (recordTrades st events) with
        | none => pure committed
        | some batch => do
          reconcileCash st base committed call fresh batch
          markFresh committed fresh
      else markFresh committed fresh

def commitAndRecord (st : LiveSettings) (base : LedgerState) (call : CommitCall) :
    BookM LedgerState := do
  let committed ← commitPending st base call
  let b ← Proc.get
  recordEvidence st base committed call b.journal

/-! ## Programs that only write -/

/-- A preorder that the operations of this module move along; no row of evidence is ever removed. -/
class DiskOrder (R : Disk → Disk → Prop) : Prop extends IsPreorder Disk R where
  io : ∀ d script, R d { d with script := script }
  fillRows : ∀ {d d'}, R d d' → d.fillRows <+: d'.fillRows
  taxRows : ∀ {d d'}, R d d' → d.taxRows <+: d'.taxRows

/-- Only the script has moved on. -/
def SameDisk (d d' : Disk) : Prop := ∃ script, d' = { d with script := script }

instance : DiskOrder SameDisk where
  refl d := ⟨d.script, rfl⟩
  trans := by
    rintro d _ _ ⟨script, rfl⟩ ⟨script', rfl⟩; exact ⟨script', rfl⟩
  io _ script := ⟨script, rfl⟩
  fillRows := by
    rintro d _ ⟨script, rfl⟩; exact prefix_refl _
  taxRows := by
    rintro d _ ⟨script, rfl⟩; exact prefix_refl _

section Operations

variable {R : Disk → Disk → Prop} [DiskOrder R] {d : Disk}

theorem nextIo_along : Along R nextIo d fun _ d' => ∃ script, d' = { d with script := script } := by
  refine Along.readState ?_
  cases d.script with
  | nil => exact Along.raise
  | cons io rest => exact ⟨DiskOrder.io d rest, rest, rfl⟩

theorem finishIo_along {r : IoResult} : Along R (finishIo r) d fun _ d' => r = .done ∧ d' = d := by
  cases r with
  | done => exact Along.ret ⟨rfl, rfl⟩
  | raised | killed => exact Along.raise

theorem touch_along : Along R touch d fun _ d' => ∃ script, d' = { d with script := script } := by
  refine Along.bind nextIo_along fun io d' _ hd' => ?_
  refine Along.mono finishIo_along fun _ d'' _ h => ?_
  rw [h.2]; exact hd'

theorem saveLedger_along {s : LedgerState}
    (hsave : ∀ script, R { d with script := script } { d with script := script, ledger := s.saved }) :
    Along R (saveLedger s) d fun _ d' => ∃ script, d' = { d with script := script, ledger := s.saved } := by
  refine Along.bind nextIo_along fun io d' _ hd' => ?_
  obtain ⟨script, rfl⟩ := hd'
  refine Along.branch (fun _ => ?_) fun hnot => ?_
  · -- the replace is on disk whether or not the operation then fails
    refine Along.bind (Along.update (hsave script)) fun _ d' _ hd' => ?_
    subst hd'; exact Along.mono finishIo_along fun _ d'' _ h => ⟨script, h.2⟩
  · refine Along.mono finishIo_along fun _ d'' _ h => ?_
    exact absurd (Or.inl h.1) hnot

theorem loadLedger_along : Along R loadLedger d fun s d' =>
    d.ledger.loaded = .ok s ∧ ∃ script, d' = { d with script := script } := by
  refine Along.bind touch_along fun _ d' _ hd' => ?_
  obtain ⟨script, rfl⟩ := hd'
  refine Along.readState ?_
  rw [Along, Proc.wp_ofExcept]
  exact ⟨fun s hs => ⟨refl_of R _, hs, script, rfl⟩, fun _ _ => refl_of R _⟩

theorem attempted_along {α : Type} {x : BookM α} {Q : α → Disk → Prop} (h : Along R x d Q) :
    Along R (attempted x) d fun r d' => ∀ a, r = some a → Q a d' := by
  refine Along.catching (Along.map (Along.mono h fun a d' _ hq b hb => ?_)) fun e d' _ => ?_
  · cases hb; exact hq
  · refine Along.branch (fun _ => ?_) fun _ => Along.raise
    refine Along.catching (Along.bind touch_along fun _ _ _ _ => Along.ret nofun) fun e' d'' _ => ?_
    exact Along.branch (fun _ => Along.ret nofun) fun _ => Along.raise

end Operations

/-! ## The rows of the per-fill ledger -/

def FillKeysDistinct (rows : List FillEvent) : Prop := (rows.filterMap FillEvent.key).Nodup

theorem dedupeBatch_ids (events : List FillEvent) : ∀ seen : List String,
    ((dedupeBatch seen events).filterMap FillEvent.fillId).Nodup ∧
      ∀ fid ∈ (dedupeBatch seen events).filterMap FillEvent.fillId, fid ∉ seen := by
  induction events with
  | nil =>
    intro seen; simp [dedupeBatch]
  | cons ev rest ih =>
    intro seen
    rw [dedupeBatch]
    cases hid : ev.fillId with
    | none => simpa [filterMap_cons, hid] using ih seen
    | some fid =>
      by_cases hseen : fid ∈ seen
      · simpa [hseen] using ih seen
      · obtain ⟨hnodup, hnot⟩ := ih (fid :: seen)
        simp only [hseen, if_false, filterMap_cons, hid]
        refine ⟨nodup_cons.mpr ⟨fun h => hnot fid h mem_cons_self, hnodup⟩, ?_⟩
        intro fid' hfid'
        rcases mem_cons.mp hfid' with rfl | hfid'
        · exact hseen
        · exact fun h => hnot fid' hfid' (mem_cons_of_mem fid h)

variable {ev : FillEvent} {rows events : List FillEvent}

theorem mem_of_mem_dedupeBatch : ∀ {events : List FillEvent} {seen : List String},
    ev ∈ dedupeBatch seen events → ev ∈ events := by
  intro events
  induction events with
  | nil =>
    intro seen h; cases h
  | cons e rest ih =>
    intro seen h
    rw [dedupeBatch] at h
    split at h
    · rcases mem_cons.mp h with rfl | h
      · exact mem_cons_self
      · exact mem_cons_of_mem e (ih h)
    · split_ifs at h with hseen
      · exact mem_cons_of_mem e (ih h)
      · rcases mem_cons.mp h with rfl | h
        · exact mem_cons_self
        · exact mem_cons_of_mem e (ih h)

theorem dedupeBatch_keeps : ∀ {events : List FillEvent} {seen : List String},
    ev ∈ events → (∀ fid, ev.fillId = some fid → fid ∉ seen) →
      ∃ ev' ∈ dedupeBatch seen events, ev'.fillId = ev.fillId := by
  intro events
  induction events with
  | nil =>
    intro seen h; cases h
  | cons e rest ih =>
    intro seen h hfresh
    rw [dedupeBatch]
    cases hid : e.fillId with
    | none =>
      rcases mem_cons.mp h with rfl | h
      · exact ⟨ev, mem_cons_self, rfl⟩
      · obtain ⟨ev', hev', heq⟩ := ih h hfresh; exact ⟨ev', mem_cons_of_mem e hev', heq⟩
    | some fid =>
      by_cases hseen : fid ∈ seen
      · simp only [hseen, if_true]
        rcases mem_cons.mp h with rfl | h
        · exact absurd hseen (hfresh fid hid)
        · exact ih h hfresh
      · simp only [hseen, if_false]
        by_cases hsame : ev.fillId = some fid
        · exact ⟨e, mem_cons_self, hid.trans hsame.symm⟩
        · rcases mem_cons.mp h with rfl | h
          · exact absurd hid hsame
          · have hfresh' : ∀ fid', ev.fillId = some fid' → fid' ∉ fid :: seen := by
              intro fid' hfid' hmem
              rcases mem_cons.mp hmem with rfl | hmem
              · exact hsame hfid'
              · exact hfresh fid' hfid' hmem
            obtain ⟨ev', hev', heq⟩ := ih h hfresh'; exact ⟨ev', mem_cons_of_mem e hev', heq⟩

theorem mem_freshFills {month : ℤ} (h : ev ∈ freshFills rows events month) :
    ev ∈ events ∧ ev.month = month ∧ ∀ fid, ev.fillId = some fid → fid ∉ knownFillIds rows month := by
  rw [freshFills, mem_filter] at h
  have hmem := mem_filter.mp (mem_of_mem_dedupeBatch h.1)
  refine ⟨hmem.1, of_decide_eq_true hmem.2, fun fid hfid hknown => ?_⟩
  have hcond := h.2
  rw [hfid] at hcond; simp [hknown] at hcond

variable {rows : List FillEvent}

theorem mem_knownFillIds {month : ℤ} {fid : String} :
    fid ∈ knownFillIds rows month ↔ (month, fid) ∈ rows.filterMap FillEvent.key := by
  simp only [knownFillIds, mem_filterMap, mem_filter, decide_eq_true_eq, FillEvent.key,
    Option.map_eq_some_iff, Prod.mk.injEq]
  constructor
  · rintro ⟨row, ⟨hrow, hmonth⟩, hid⟩; exact ⟨row, hrow, fid, hid, hmonth, rfl⟩
  · rintro ⟨row, hrow, fid', hid, hmonth, rfl⟩; exact ⟨row, ⟨hrow, hmonth⟩, hid⟩

/-- **Extending a month keeps identities distinct.** -/
theorem fillKeysDistinct_append (events : List FillEvent) (month : ℤ) (h : FillKeysDistinct rows) :
    FillKeysDistinct (rows ++ freshFills rows events month) := by
  rw [FillKeysDistinct, filterMap_append, nodup_append]
  refine ⟨h, ?_, ?_⟩
  · -- within the extension: the identities are those of a deduplicated batch
    have hids : ((freshFills rows events month).filterMap FillEvent.fillId).Nodup :=
      (dedupeBatch_ids _ []).1.sublist (filter_sublist.filterMap _)
    have hkeys : (freshFills rows events month).filterMap FillEvent.key
        = ((freshFills rows events month).filterMap FillEvent.fillId).map fun fid => (month, fid) := by
      rw [map_filterMap]
      refine filterMap_congr fun ev hev => ?_
      rw [FillEvent.key, (mem_freshFills hev).2.1]
    rw [hkeys]; exact hids.map fun a b hab => (Prod.mk.inj hab).2
  · rintro key hold key' hnew rfl
    obtain ⟨ev, hev, hkey⟩ := mem_filterMap.mp hnew
    obtain ⟨fid, hfid, rfl⟩ := Option.map_eq_some_iff.mp hkey
    obtain ⟨-, hmonth, hnot⟩ := mem_freshFills hev
    rw [hmonth] at hold; exact hnot fid hfid (mem_knownFillIds.mpr hold)

/-- **An extended month holds every event of the batch.** -/
theorem key_mem_of_freshFills (hev : ev ∈ events) :
    ev.key ∈ (rows ++ freshFills rows events ev.month).map FillEvent.key := by
  have hbucket : ev ∈ events.filter fun e => decide (e.month = ev.month) := mem_filter.mpr ⟨hev, decide_eq_true rfl⟩
  obtain ⟨ev', hev', hid⟩ := @dedupeBatch_keeps ev _ [] hbucket fun _ _ => not_mem_nil
  have hmonth : ev'.month = ev.month := of_decide_eq_true (mem_filter.mp (mem_of_mem_dedupeBatch hev')).2
  have hkey : ev'.key = ev.key := by rw [FillEvent.key, FillEvent.key, hid, hmonth]
  rw [map_append, mem_append]
  by_cases hfresh : ev' ∈ freshFills rows events ev.month
  · exact Or.inr (hkey ▸ mem_map_of_mem hfresh)
  · left
    rw [freshFills, mem_filter, not_and] at hfresh
    have hcond := hfresh hev'
    cases hfid : ev'.fillId with
    | none => simp [hfid] at hcond
    | some fid =>
      have hknown : fid ∈ knownFillIds rows ev.month := by simpa [hfid] using hcond
      obtain ⟨row, hrow, hrowkey⟩ := mem_filterMap.mp (mem_knownFillIds.mp hknown)
      refine mem_map.mpr ⟨row, hrow, ?_⟩
      rw [hrowkey, ← hkey, FillEvent.key, hfid, hmonth]; rfl

section Appending

variable {R : Disk → Disk → Prop} [DiskOrder R] {d : Disk} {events : List FillEvent}

theorem appendMonth_along {month : ℤ}
    (hfills : ∀ script, R { d with script := script }
      { d with script := script, fillRows := d.fillRows ++ freshFills d.fillRows events month }) :
    Along R (appendMonth events month) d fun _ d' =>
      ∀ ev ∈ events, ev.month = month → ev.key ∈ d'.fillRows.map FillEvent.key := by
  refine Along.branch (fun _ => Along.raise) fun _ => ?_
  refine Along.bind touch_along fun _ d' _ hd' => ?_
  obtain ⟨script, rfl⟩ := hd'
  refine Along.readState ?_
  have hall : ∀ ev ∈ events, ev.month = month →
      ev.key ∈ (d.fillRows ++ freshFills d.fillRows events month).map FillEvent.key := by
    rintro ev hev rfl; exact key_mem_of_freshFills hev
  refine Along.branch (fun hnone => ?_) fun _ => ?_
  · refine Along.ret ?_
    rw [hnone, append_nil] at hall; exact hall
  · refine Along.bind nextIo_along fun io d' _ hd' => ?_
    obtain ⟨script', rfl⟩ := hd'
    refine Along.branch (fun _ => ?_) fun hnot => ?_
    · refine Along.bind (Along.update (hfills script')) fun _ d' _ hd' => ?_
      refine Along.mono finishIo_along fun _ d'' _ h => ?_
      rw [h.2, hd']; exact hall
    · exact Along.mono finishIo_along fun _ _ _ h => absurd (Or.inl h.1) hnot

/-- **`append_fills`**: month by month; when it returns, every event has its row. -/
theorem appendFills_along
    (hfills : ∀ d' month, R d d' → R d'
      { d' with fillRows := d'.fillRows ++ freshFills d'.fillRows events month }) :
    Along R (appendFills events) d fun _ d' =>
      ∀ ev ∈ events, ev.key ∈ d'.fillRows.map FillEvent.key := by
  refine Along.branch (fun hnil => Along.ret ?_) fun _ => ?_
  · rw [hnil]; exact forall_mem_nil _
  refine Along.branch (fun _ => Along.raise) fun _ => ?_
  have hloop := @Along.forEach_each Exc Disk ℤ R _ (appendMonth events)
    (fun month d' => ∀ ev ∈ events, ev.month = month → ev.key ∈ d'.fillRows.map FillEvent.key)
    (fillMonths events) ?_ d ?_
  · refine Along.mono hloop fun _ d' _ h ev hev => ?_
    refine h ev.month ?_ ev hev rfl
    rw [fillMonths, mem_insertionSort, mem_dedup]; exact mem_map_of_mem hev
  · intro month d' d'' hr h ev hev hmonth
    exact ((DiskOrder.fillRows hr).sublist.map _).subset (h ev hev hmonth)
  · intro month _ d' hr
    exact appendMonth_along fun script => hfills _ month (trans_of R hr (DiskOrder.io d' script))

/-- **`append_tax_records`**: whatever prefix of the new rows reaches the disk; all of them when it
returns. -/
theorem appendTaxRecords_along {records : List TaxRecord}
    (htax : ∀ script k, (∀ r ∈ records, r.Valid) → R { d with script := script } { d with
      script := script, taxRows := d.taxRows ++ (rowsToAppend d.taxRows records).take k }) :
    Along R (appendTaxRecords records) d fun _ d' => (∀ r ∈ records, r.Valid) ∧
      ∃ script, d' = { d with
        script := script, taxRows := d.taxRows ++ rowsToAppend d.taxRows records } := by
  have hcheck : ∀ {records : List TaxRecord}, Along R
      (Proc.forEach records fun r => Proc.ofExcept (validateTaxRecord r)) d
      fun _ d' => d' = d ∧ ∀ r ∈ records, r.Valid := by
    intro records
    induction records with
    | nil => exact Along.ret ⟨rfl, forall_mem_nil _⟩
    | cons r rest ih =>
      refine Along.fallible fun _ hr => ?_
      refine Along.mono ih fun _ d' _ h => ⟨h.1, fun r' hr' => ?_⟩
      rcases mem_cons.mp hr' with rfl | hr'
      · unfold validateTaxRecord at hr
        split at hr
        · assumption
        · cases hr
      · exact h.2 r' hr'
  refine Along.bind hcheck fun _ d' _ hd' => ?_
  obtain ⟨rfl, hvalid⟩ := hd'
  refine Along.bind touch_along fun _ d'' _ hd'' => ?_
  obtain ⟨script, rfl⟩ := hd''
  refine Along.bind nextIo_along fun io d'' _ hd'' => ?_
  obtain ⟨script', rfl⟩ := hd''
  refine Along.branch (fun _ => ?_) fun hnot => ?_
  · have hall := htax script' (rowsToAppend d'.taxRows records).length hvalid
    rw [take_length] at hall
    refine Along.mono (Along.update hall) fun _ d'' _ h => ?_
    exact ⟨hvalid, script', h⟩
  · refine Along.bind (Along.update (htax script' io.landed hvalid)) fun _ d'' _ _ => ?_
    exact Along.mono finishIo_along fun _ _ _ h => absurd h.1 hnot

end Appending

/-! ## What `_commit_and_record` writes -/

section Recording

variable (st : LiveSettings) (base : LedgerState) (call : CommitCall) (j : Journal)

inductive Committed : LedgerState → Prop
  | kept : Committed base
  | stamped : Committed (stampExecuted base call)
  | folded {s : LedgerState} (h : Commits (call.config st) base
      (pendingFills base.journalAppliedFillSeq (j.fillsAfter base.journalAppliedFillSeq)) s) : Committed s

def evidenceEvents (s : LedgerState) : List FillEvent :=
  fillEventsFromJournal j (freshJournalFills j s) call.fallbackAttempt

structure Evidenced (s : LedgerState) (d : Disk) : Prop where
  rows : ∀ ev ∈ evidenceEvents call j s, ev.key ∈ d.fillRows.map FillEvent.key
  trades : st.mode.suppressesMutations → ∃ records,
    simulatedTaxRecords (evidenceEvents call j s) st.mode.value = .ok records ∧
      ∀ r ∈ records, r.key ∈ d.taxRows.map TaxRecord.key

/-- The state with its recorded watermark advanced over its fresh fills. -/
def Marked (s s' : LedgerState) : Prop :=
  ∃ last, (freshJournalFills j s).getLast? = some last ∧
    markFillsRecorded s last.fillSeq = .ok (some s')

/-- **What a single write of `_commit_and_record` can be.** -/
inductive BookWrite : Disk → Disk → Prop
  /-- an operation that leaves no trace -/
  | io {d : Disk} (script : List IoStep) : BookWrite d { d with script := script }
  | commit {d : Disk} {s : LedgerState} (h : Committed st base call j s) :
      BookWrite d { d with ledger := s.saved }
  | fills {d : Disk} {s : LedgerState} (h : Committed st base call j s) (month : ℤ) :
      BookWrite d { d with
        fillRows := d.fillRows ++ freshFills d.fillRows (evidenceEvents call j s) month }
  | trades {d : Disk} {s : LedgerState} {records : List TaxRecord} (h : Committed st base call j s)
      (simulated : st.mode.suppressesMutations)
      (built : simulatedTaxRecords (evidenceEvents call j s) st.mode.value = .ok records) (k : ℕ) :
      BookWrite d { d with taxRows := d.taxRows ++ (rowsToAppend d.taxRows records).take k }
  | reconcile {d : Disk} {s : LedgerState} {records : List TaxRecord} {r : CashReconciliation}
      (h : Committed st base call j s) (simulated : st.mode.suppressesMutations)
      (built : simulatedTaxRecords (evidenceEvents call j s) st.mode.value = .ok records)
      (computed : reconcileBatch st base s call (freshJournalFills j s) records = .ok (some r)) :
      BookWrite d { d with reconciliations := d.reconciliations ++ [r] }
  | mark {d : Disk} {s s' : LedgerState} (h : Committed st base call j s)
      (evidence : Evidenced st call j s d) (marked : Marked j s s') :
      BookWrite d { d with ledger := s'.saved }

abbrev BookWrites : Disk → Disk → Prop := Relation.ReflTransGen (BookWrite st base call j)

/-- **What a single write of its second half can be**, for a committed state. -/
inductive EvidenceWrite (s : LedgerState) : Disk → Disk → Prop
  | io {d : Disk} (script : List IoStep) : EvidenceWrite s d { d with script := script }
  | fills {d : Disk} (month : ℤ) : EvidenceWrite s d { d with
      fillRows := d.fillRows ++ freshFills d.fillRows (evidenceEvents call j s) month }
  | trades {d : Disk} {records : List TaxRecord} (simulated : st.mode.suppressesMutations)
      (built : simulatedTaxRecords (evidenceEvents call j s) st.mode.value = .ok records) (k : ℕ) :
      EvidenceWrite s d { d with taxRows := d.taxRows ++ (rowsToAppend d.taxRows records).take k }
  | reconcile {d : Disk} {records : List TaxRecord} {r : CashReconciliation}
      (simulated : st.mode.suppressesMutations)
      (built : simulatedTaxRecords (evidenceEvents call j s) st.mode.value = .ok records)
      (computed : reconcileBatch st base s call (freshJournalFills j s) records = .ok (some r)) :
      EvidenceWrite s d { d with reconciliations := d.reconciliations ++ [r] }
  | mark {d : Disk} {s' : LedgerState} (evidence : Evidenced st call j s d) (marked : Marked j s s') :
      EvidenceWrite s d { d with ledger := s'.saved }

abbrev EvidenceWrites (s : LedgerState) : Disk → Disk → Prop :=
  Relation.ReflTransGen (EvidenceWrite st base call j s)

/-- What `_commit_and_record` returns: the committed state, with or without its evidence marked. -/
def Recorded (s : LedgerState) (d : Disk) : Prop :=
  Committed st base call j s ∨
    ∃ committed, Committed st base call j committed ∧ Evidenced st call j committed d ∧
      Marked j committed s

end Recording

section Recording

variable {st : LiveSettings} {base : LedgerState} {call : CommitCall} {j : Journal} {d d' : Disk}

/-- The journal stays, and rows are only added. -/
def Framed (d d' : Disk) : Prop :=
  d'.journal = d.journal ∧ d.fillRows <+: d'.fillRows ∧ d.taxRows <+: d'.taxRows

variable {R : Disk → Disk → Prop}

theorem framed_of_steps (hstep : ∀ {d d'}, R d d' → Framed d d') 
    (h : Relation.ReflTransGen R d d') :
    Framed d d' := by
  induction h with
  | refl => exact ⟨rfl, prefix_refl _, prefix_refl _⟩
  | tail _ hw ih =>
    have hframe := hstep hw
    exact ⟨hframe.1.trans ih.1, ih.2.1.trans hframe.2.1, ih.2.2.trans hframe.2.2⟩

theorem BookWrite.frame (h : BookWrite st base call j d d') : Framed d d' := by
  cases h with
  | fills h month => exact ⟨rfl, prefix_append _ _, prefix_refl _⟩
  | trades h simulated built k => exact ⟨rfl, prefix_refl _, prefix_append _ _⟩
  | _ => exact ⟨rfl, prefix_refl _, prefix_refl _⟩

theorem BookWrites.frame (h : BookWrites st base call j d d') : Framed d d' :=
  framed_of_steps BookWrite.frame h

instance : DiskOrder (BookWrites st base call j) where
  refl _ := .refl
  trans _ _ _ := .trans
  io _ script := .single (.io script)
  fillRows h := (BookWrites.frame h).2.1
  taxRows h := (BookWrites.frame h).2.2

variable {s : LedgerState}

theorem EvidenceWrite.bookWrite (hs : Committed st base call j s)
    (h : EvidenceWrite st base call j s d d') : BookWrite st base call j d d' := by
  cases h with
  | io script => exact .io script
  | fills month => exact .fills hs month
  | trades simulated built k => exact .trades hs simulated built k
  | reconcile simulated built computed => exact .reconcile hs simulated built computed
  | mark evidence marked => exact .mark hs evidence marked

theorem EvidenceWrites.bookWrites (hs : Committed st base call j s)
    (h : EvidenceWrites st base call j s d d') : BookWrites st base call j d d' := by
  induction h with
  | refl => exact .refl
  | tail _ hw ih => exact ih.tail (hw.bookWrite hs)

theorem EvidenceWrite.frame (h : EvidenceWrite st base call j s d d') : Framed d d' := by
  cases h with
  | fills month => exact ⟨rfl, prefix_append _ _, prefix_refl _⟩
  | trades simulated built k => exact ⟨rfl, prefix_refl _, prefix_append _ _⟩
  | _ => exact ⟨rfl, prefix_refl _, prefix_refl _⟩

theorem EvidenceWrites.frame (h : EvidenceWrites st base call j s d d') : Framed d d' :=
  framed_of_steps EvidenceWrite.frame h

instance {s : LedgerState} : DiskOrder (EvidenceWrites st base call j s) where
  refl _ := .refl
  trans _ _ _ := .trans
  io _ script := .single (.io script)
  fillRows h := (EvidenceWrites.frame h).2.1
  taxRows h := (EvidenceWrites.frame h).2.2

theorem Evidenced.mono [DiskOrder R] (h : Evidenced st call j s d) (hw : R d d') :
    Evidenced st call j s d' where
  rows ev hev := ((DiskOrder.fillRows hw).sublist.map _).subset (h.rows ev hev)
  trades hmode := by
    obtain ⟨records, hbuilt, hkeys⟩ := h.trades hmode
    exact ⟨records, hbuilt, fun r hr => ((DiskOrder.taxRows hw).sublist.map _).subset (hkeys r hr)⟩

def CaughtUp (j : Journal) (s : LedgerState) : Prop := ∀ f ∈ j.fills, f.fillSeq ≤ s.journalAppliedFillSeq

theorem Commits.caughtUp {c : CommitConfig} (h : Commits c base (pendingFills base.journalAppliedFillSeq
      (j.fillsAfter base.journalAppliedFillSeq)) s) : CaughtUp j s := by
  intro f hf
  rw [h.applied]
  by_cases hle : f.fillSeq ≤ base.journalAppliedFillSeq
  · omega
  · have hlt : base.journalAppliedFillSeq < f.fillSeq := not_le.mp hle
    have hpending : f ∈ pendingFills base.journalAppliedFillSeq
        (j.fillsAfter base.journalAppliedFillSeq) := by
      rw [pendingFills, mem_insertionSort, mem_filter, Journal.fillsAfter, mem_filter]
      exact ⟨⟨hf, decide_eq_true hlt⟩, decide_eq_true hlt⟩
    exact (consecutive_bounds h.runs hpending).2

theorem caughtUp_of_fillsAfter_eq_nil (h : j.fillsAfter s.journalAppliedFillSeq = []) : CaughtUp j s := by
  intro f hf
  by_contra hlt
  have hmem : f ∈ j.fillsAfter s.journalAppliedFillSeq := mem_filter.mpr ⟨hf, decide_eq_true (not_le.mp hlt)⟩
  rw [h] at hmem; cases hmem

/-- **The first half of `_commit_and_record`** returns a state that has applied every fill, and
leaves that state on disk. -/
theorem commitPending_along : Along (BookWrites st base call d.journal) (commitPending st base call) d
    fun s d' => Committed st base call d.journal s ∧ CaughtUp d.journal s ∧
      ((s = base ∧ d'.ledger = d.ledger) ∨ d'.ledger = s.saved) := by
  refine Along.readState ?_
  refine Along.branch (fun hpending => ?_) fun hnone => ?_
  · -- pending fills: an exception, or the folded state saved
    refine Along.fallible fun r hr => ?_
    rcases commitFold_cases (call.config st) base (d.journal.fillsAfter base.journalAppliedFillSeq)
      with ⟨hnil, -⟩ | ⟨herr, -⟩ | ⟨s, hsome, hcommits⟩
    · obtain ⟨f, hf⟩ := exists_mem_of_ne_nil _ hpending
      have hmem : f ∈ pendingFills base.journalAppliedFillSeq
          (d.journal.fillsAfter base.journalAppliedFillSeq) := by
        rw [pendingFills, mem_insertionSort, mem_filter]; exact ⟨hf, (mem_filter.mp hf).2⟩
      rw [hnil] at hmem; cases hmem
    · rw [herr] at hr; cases hr
    · rw [hsome] at hr
      cases hr
      have hcommitted : Committed st base call d.journal s := .folded hcommits
      refine Along.bind (saveLedger_along fun script => .single (.commit hcommitted)) fun _ d' _ hd' => ?_
      obtain ⟨script, rfl⟩ := hd'; exact Along.ret ⟨hcommitted, hcommits.caughtUp, Or.inr rfl⟩
  · have hcaught : CaughtUp d.journal base := caughtUp_of_fillsAfter_eq_nil (not_not.mp hnone)
    refine Along.branch (fun _ => ?_) fun _ => Along.ret ⟨.kept, hcaught, Or.inl ⟨rfl, rfl⟩⟩
    refine Along.bind (saveLedger_along fun script => .single (.commit .stamped)) fun _ d' _ hd' => ?_
    obtain ⟨script, rfl⟩ := hd'; exact Along.ret ⟨.stamped, hcaught, Or.inr rfl⟩

theorem recordTrades_along (hmode : st.mode.suppressesMutations) :
    Along (EvidenceWrites st base call j s) (recordTrades st (evidenceEvents call j s)) d fun batch d' =>
      simulatedTaxRecords (evidenceEvents call j s) st.mode.value = .ok batch ∧
        ∀ r ∈ batch, r.key ∈ d'.taxRows.map TaxRecord.key := by
  refine Along.bind touch_along fun _ d' _ _ => ?_
  refine Along.fallible fun batch hbuilt => ?_
  refine Along.branch (fun hnil => Along.ret ⟨hbuilt, ?_⟩) fun _ => ?_
  · rw [hnil]; exact forall_mem_nil _
  · refine Along.bind (appendTaxRecords_along fun script k _ => .single (.trades hmode hbuilt k))
      fun _ d'' _ hd'' => ?_
    obtain ⟨-, script, rfl⟩ := hd''; exact Along.ret ⟨hbuilt, fun r hr => key_mem_append hr⟩

theorem reconcileCash_along {batch : List TaxRecord} (hmode : st.mode.suppressesMutations)
    (hbuilt : simulatedTaxRecords (evidenceEvents call j s) st.mode.value = .ok batch) :
    Along (EvidenceWrites st base call j s)
      (reconcileCash st base s call (freshJournalFills j s) batch) d fun _ _ => True := by
  refine Along.fallible fun r hr => ?_
  cases r with
  | none => exact Along.ret trivial
  | some r =>
    refine Along.bind (Along.update (.single (.reconcile hmode hbuilt hr))) fun _ d' _ _ => ?_
    exact Along.mono touch_along fun _ _ _ _ => trivial

def EvidenceKept (st : LiveSettings) (call : CommitCall) (j : Journal) (s s' : LedgerState) (d : Disk) : Prop :=
  s' = s ∨ (Evidenced st call j s d ∧ Marked j s s')

theorem markFresh_along (hev : Evidenced st call j s d) :
    Along (EvidenceWrites st base call j s) (markFresh s (freshJournalFills j s)) d fun s' d' =>
      EvidenceKept st call j s s' d' := by
  unfold markFresh
  cases hlast : (freshJournalFills j s).getLast? with
  | none => exact Along.ret (Or.inl rfl)
  | some last =>
    have hmark : Along (EvidenceWrites st base call j s) (markRecorded s last.fillSeq) d fun s' d' =>
        EvidenceKept st call j s s' d' := by
      refine Along.fallible fun r hr => ?_
      cases r with
      | none => exact Along.ret (Or.inl rfl)
      | some s' =>
        have hmarked : Marked j s s' := ⟨last, hlast, hr⟩
        have hev' : ∀ script, Evidenced st call j s { d with script := script } := fun _ =>
          ⟨hev.rows, hev.trades⟩
        refine Along.bind (saveLedger_along fun script => .single (.mark (hev' script) hmarked))
          fun _ d' hw _ => ?_
        exact Along.ret (Or.inr ⟨hev.mono hw, hmarked⟩)
    refine Along.bind (attempted_along hmark) fun r d' hw hr => ?_
    cases r with
    | none => exact Along.ret (Or.inl rfl)
    | some s' => exact Along.ret (hr s' rfl)

theorem recordEvidence_along :
    Along (EvidenceWrites st base call j s) (recordEvidence st base s call j) d fun s' d' =>
      EvidenceKept st call j s s' d' := by
  refine Along.branch (fun _ => Along.ret (Or.inl rfl)) fun _ => ?_
  have hrows : Along (EvidenceWrites st base call j s)
      (do touch; appendFills (evidenceEvents call j s)) d fun _ d' =>
        ∀ ev ∈ evidenceEvents call j s, ev.key ∈ d'.fillRows.map FillEvent.key :=
    Along.bind touch_along fun _ d' _ _ =>
      appendFills_along fun d'' month _ => .single (.fills month)
  refine Along.bind (attempted_along hrows) fun r d' _ hr => ?_
  cases r with
  | none => exact Along.ret (Or.inl rfl)
  | some _ =>
    have hrows := hr () rfl
    refine Along.branch (fun hmode => ?_) fun hmode => ?_
    · refine Along.bind (attempted_along (recordTrades_along hmode)) fun r d'' hw hr => ?_
      cases r with
      | none => exact Along.ret (Or.inl rfl)
      | some batch =>
        obtain ⟨hbuilt, hkeys⟩ := hr batch rfl
        have hev : Evidenced st call j s d'' :=
          ⟨fun ev hev => ((DiskOrder.fillRows hw).sublist.map _).subset (hrows ev hev),
            fun _ => ⟨batch, hbuilt, hkeys⟩⟩
        refine Along.bind (reconcileCash_along hmode hbuilt) fun _ d₃ hw' _ => ?_
        exact markFresh_along (hev.mono hw')
    · exact markFresh_along ⟨hrows, fun hm => absurd hm hmode⟩

/-- **`_commit_and_record` is its writes**: on every exit the disk was reached through `BookWrite`s,
and a state that it returns is the committed one, perhaps with complete evidence. -/
theorem commitAndRecord_along : Along (BookWrites st base call d.journal)
    (commitAndRecord st base call) d fun s d' => Recorded st base call d.journal s d' := by
  refine Along.bind commitPending_along fun s d' hw hs => ?_
  refine Along.readState ?_
  rw [(BookWrites.frame hw).1]
  refine Along.mono (recordEvidence_along.coarsen fun d'' hw' => EvidenceWrites.bookWrites hs.1 hw') ?_
  rintro s' d'' - (rfl | ⟨hev, hmarked⟩)
  · exact Or.inl hs.1
  · exact Or.inr ⟨s, hs.1, hev, hmarked⟩

end Recording

end CryptoPilot.Live
