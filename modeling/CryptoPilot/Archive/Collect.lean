/- # Collect — one run of `execute_plan`.

A run merges the days of its plans into the month partitions, the months of one symbol one after the
other and the symbols side by side. -/
import CryptoPilot.Archive.Coverage
import CryptoPilot.Archive.Partition
import CryptoPilot.Lib.Interleave

namespace CryptoPilot.Archive

open CryptoPilot.Lib

inductive ArchiveDataset where
  | metrics
  | bookDepth
  | aggTrades
  deriving DecidableEq, Repr

def ArchiveDataset.name : ArchiveDataset → String
  | .metrics => "metrics"
  | .bookDepth => "bookDepth"
  | .aggTrades => "aggTrades"

inductive PartitionKind where
  | derived
  | slice
  deriving DecidableEq, Repr

structure CollectionPlan where
  dataset : ArchiveDataset
  symbol : String
  days : List ℤ
  sliceHours : Option (ℤ × ℤ)
  pendingDays : List ℤ := []
  sealedDays : List ℤ := []
  deriving DecidableEq, Repr

section Collect

variable (ρ σ : Type) [Timed ρ] [Timed σ]

/-! ## What a day's file gives -/

/-- The frames derived from the file of a day, sorted and inside the day. -/
structure DerivedDay (day : ℤ) where
  frame : List ρ
  slice : ℤ × ℤ → List σ
  sha : String
  frame_inside : ∀ r ∈ frame, rowDay r = day
  frame_sorted : SortedRows frame
  slice_inside : ∀ window, ∀ r ∈ slice window, rowDay r = day
  slice_sorted : ∀ window, SortedRows (slice window)

/-- What `fetch_verified_zip` and `_derive_zip` answer. -/
inductive Fetched (day : ℤ) where
  | derived (d : DerivedDay ρ σ day)
  | missing
  | defective (detail sha : String)
  | failed (detail : String)

/-- What the run of a month meets: the files, the failures of its writes with their texts, the
coverage appends that reach the log, the clock, and the batches of the file reader. -/
structure MonthEnv where
  fetched : ∀ day, Fetched ρ σ day
  stagingFails : ℤ → Option String
  derivedFails : Option String
  slicesFail : Option String
  appended : ℤ → Bool
  now : ℤ → ℤ
  chunking : Chunking σ

structure MonthWork where
  plan : CollectionPlan
  month : Month
  days : List ℤ
  env : MonthEnv ρ σ

/-! ## The archive of a symbol -/

/-- A derivation of a day, and whether a coverage row was appended for it. -/
structure Derivation where
  frame : List ρ
  sliced : Option (List σ)
  recorded : Bool

/-- The partitions of a symbol and its rows in the coverage logs. -/
structure SymbolArchive where
  derived : ArchiveDataset → Month → Option (List ρ)
  slice : ArchiveDataset → Month → Option (List σ)
  log : ArchiveDataset → List CoverageRow
  latest : ArchiveDataset → ℤ → Option (Derivation ρ σ)

/-- One file operation; `derive` only notes what was derived. -/
inductive ArchiveOp where
  | derive (dataset : ArchiveDataset) (day : ℤ) (frame : List ρ) (sliced : Option (List σ))
  | append (dataset : ArchiveDataset) (row : CoverageRow)
  | putDerived (dataset : ArchiveDataset) (month : Month) (rows : Option (List ρ))
  | putSlice (dataset : ArchiveDataset) (month : Month) (rows : List σ)

variable {ρ σ}

def SymbolArchive.row (s : SymbolArchive ρ σ) (dataset : ArchiveDataset) (day : ℤ) : Option CoverageRow :=
  ((s.log dataset).filter fun r => r.day = day).getLast?

def setEntry {κ α : Type} [DecidableEq κ] (f : ArchiveDataset → κ → α) (dataset : ArchiveDataset) (k : κ) (v : α) :
    ArchiveDataset → κ → α :=
  fun dataset' k' => if dataset' = dataset ∧ k' = k then v else f dataset' k'

def SymbolArchive.apply (s : SymbolArchive ρ σ) : ArchiveOp ρ σ → SymbolArchive ρ σ
  | .derive dataset day frame sliced =>
    { s with
      latest := setEntry s.latest dataset day (some { frame := frame, sliced := sliced, recorded := false }) }
  | .append dataset row =>
    { s with
      log := fun dataset' => if dataset' = dataset then s.log dataset ++ [row] else s.log dataset'
      latest := setEntry s.latest dataset row.day
        ((s.latest dataset row.day).map fun d => { d with recorded := true }) }
  | .putDerived dataset month rows => { s with derived := setEntry s.derived dataset month rows }
  | .putSlice dataset month rows => { s with slice := setEntry s.slice dataset month (some rows) }

def SymbolArchive.empty : SymbolArchive ρ σ :=
  { derived := fun _ _ => none, slice := fun _ _ => none, log := fun _ => [], latest := fun _ _ => none }

/-! ## `gather_month` -/

inductive OutcomeStatus where
  | ok
  | failed
  deriving DecidableEq, Repr

/-- `_Outcome`. -/
structure DayOutcome where
  day : ℤ
  status : OutcomeStatus
  info : String
  rows : ℕ
  deriving DecidableEq, Repr

variable (ρ σ) in
/-- What `gather_month` returns, and the operations it did. -/
structure Gathered where
  derived : List (ℤ × List ρ) := []
  slices : List (ℤ × List σ) := []
  outcomes : List DayOutcome := []
  ops : List (ArchiveOp ρ σ) := []

/-- `record`; a row that does not reach the log leaves no operation. -/
def recordOps (w : MonthWork ρ σ) (day : ℤ) (status : CoverageStatus) (sha : Option String) (rows : ℕ)
    (detail : Option String) : List (ArchiveOp ρ σ) :=
  if w.env.appended day then
    [.append w.plan.dataset
      { dataset := w.plan.dataset.name, symbol := w.plan.symbol, day := day, status := status, rawSha256 := sha
        rows := rows, recordedAt := some (w.env.now day), detail := detail }]
  else []

/-- One turn of `gather_month`, in front of what the later days give. -/
def gatherDay (w : MonthWork ρ σ) (day : ℤ) (later : Gathered ρ σ) : Gathered ρ σ :=
  match w.env.fetched day with
  | .missing => later
  | .failed detail =>
    { later with outcomes := { day := day, status := .failed, info := detail, rows := 0 } :: later.outcomes }
  | .defective detail sha =>
    { later with ops := recordOps w day .defective (some sha) 0 (some detail) ++ later.ops }
  | .derived d =>
    let sliced := w.plan.sliceHours.map d.slice
    let ops := .derive w.plan.dataset day d.frame sliced :: later.ops
    let outcomes := { day := day, status := .ok, info := d.sha, rows := d.frame.length } :: later.outcomes
    match sliced with
    | none => { later with derived := (day, d.frame) :: later.derived, outcomes := outcomes, ops := ops }
    | some slice =>
      match w.env.stagingFails day with
      | some detail =>
        { later with
          outcomes := { day := day, status := .failed, info := detail, rows := 0 } :: later.outcomes
          ops := ops }
      | none =>
        { derived := (day, d.frame) :: later.derived, slices := (day, slice) :: later.slices
          outcomes := outcomes, ops := ops }

def gatherMonth (w : MonthWork ρ σ) (days : List ℤ) : Gathered ρ σ := days.foldr (gatherDay w) {}

/-! ## `commit_month` -/

abbrev Sealed : Type := ArchiveDataset → PartitionKind → Month → Bool

def rowOutsideMonthDetail : String := "DataIntegrityError: partition row outside partition month"

/-- The check at the start of `commit_month`. -/
def sealedMonth (isSealed : Sealed) (w : MonthWork ρ σ) (g : Gathered ρ σ) (s : SymbolArchive ρ σ) : Bool :=
  (!g.derived.isEmpty && (s.derived w.plan.dataset w.month).isNone && isSealed w.plan.dataset .derived w.month) ||
    (!g.slices.isEmpty && (s.slice w.plan.dataset w.month).isNone && isSealed w.plan.dataset .slice w.month)

/-- The derived write of `commit_month`: what it leaves, or why it failed. -/
def writeDerived (w : MonthWork ρ σ) (g : Gathered ρ σ) (s : SymbolArchive ρ σ) :
    Except String (List (ArchiveOp ρ σ)) :=
  if g.derived.isEmpty then .ok []
  else
    match w.env.derivedFails with
    | some detail => .error detail
    | none =>
      match mergeDayBatch w.month (s.derived w.plan.dataset w.month) g.derived with
      | .error .rowOutsideMonth => .error rowOutsideMonthDetail
      | .ok none => .ok []
      | .ok (some rows) => .ok [.putDerived w.plan.dataset w.month (some rows)]

/-- `commit_month`: its operations, and the failure detail if it failed. -/
def commitMonth (isSealed : Sealed) (w : MonthWork ρ σ) (g : Gathered ρ σ) (s : SymbolArchive ρ σ) :
    List (ArchiveOp ρ σ) × Option String :=
  if sealedMonth isSealed w g s then ([], some "sealed_month")
  else
    match writeDerived w g s with
    | .error detail => ([], some detail)
    | .ok written =>
      if g.slices.isEmpty then (written, none)
      else
        match w.env.slicesFail with
        | some detail =>
          -- the backup of the derived partition is put back, or the partition removed when there was none
          if g.derived.isEmpty then (written, some detail)
          else (written ++ [.putDerived w.plan.dataset w.month (s.derived w.plan.dataset w.month)], some detail)
        | none =>
          (written ++ [.putSlice w.plan.dataset w.month
            (mergeSliceFiles w.env.chunking (s.slice w.plan.dataset w.month) g.slices)], none)

/-! ## `run_month` and `run_group` -/

def outcomeOps (w : MonthWork ρ σ) (detail : Option String) (o : DayOutcome) : List (ArchiveOp ρ σ) :=
  match o.status, detail with
  | .failed, _ => recordOps w o.day .failed none 0 (some o.info)
  | .ok, some detail => recordOps w o.day .failed none 0 (some detail)
  | .ok, none => recordOps w o.day .ok (some o.info) o.rows none

/-- `run_month`. -/
def monthOps (isSealed : Sealed) (w : MonthWork ρ σ) (s : SymbolArchive ρ σ) : List (ArchiveOp ρ σ) :=
  let g := gatherMonth w w.days
  let commit := commitMonth isSealed w g s
  g.ops ++ commit.1 ++ g.outcomes.flatMap (outcomeOps w commit.2)

def symbolOps (isSealed : Sealed) : List (MonthWork ρ σ) → SymbolArchive ρ σ → List (ArchiveOp ρ σ)
  | [], _ => []
  | w :: works, s =>
    let ops := monthOps isSealed w s
    ops ++ symbolOps isSealed works (Interleave.execute SymbolArchive.apply s ops)

/-- The months of a plan's days, as the sorted days name them. -/
def monthGroups (days : List ℤ) : List (Month × List ℤ) :=
  let sorted := days.dedup.insertionSort (· ≤ ·)
  (sorted.map monthOf).eraseDups.map fun month => (month, sorted.filter fun day => monthOf day = month)

/-- `run_group`: the months of a plan; a month that the deadline stops meets nothing. -/
def groupWorks (plan : CollectionPlan) (env : Month → Option (MonthEnv ρ σ)) : List (MonthWork ρ σ) :=
  (monthGroups plan.days).filterMap fun g =>
    (env g.1).map fun e => { plan := plan, month := g.1, days := g.2, env := e }

/-- `run_symbol`: the plans of a symbol in their order. -/
def symbolWorks (plans : List (CollectionPlan × (Month → Option (MonthEnv ρ σ)))) (symbol : String) :
    List (MonthWork ρ σ) :=
  (plans.filter fun p => p.1.symbol = symbol).flatMap fun p => groupWorks p.1 p.2

/-- `sealed_months` for one symbol: a row with data and no partition of its month. -/
def sealedMonths (s : SymbolArchive ρ σ) : Sealed := fun dataset kind month =>
  ((s.log dataset).any fun r => decide (monthOf r.day = month) &&
      match s.row dataset r.day with
      | some row => decide (row.status = .ok ∧ 0 < row.rows)
      | none => false) &&
    match kind with
    | .derived => (s.derived dataset month).isNone
    | .slice => decide (dataset = .aggTrades) && (s.slice dataset month).isNone

/-! ## Runs of many symbols -/

/-- What one process does for a symbol, from its archive at the start. -/
def runScript (plans : List (CollectionPlan × (Month → Option (MonthEnv ρ σ)))) (symbol : String)
    (s : SymbolArchive ρ σ) : List (ArchiveOp ρ σ) :=
  symbolOps (sealedMonths s) (symbolWorks plans symbol) s

/-- The archives that runs of `execute_plan` lead to. -/
inductive Collected : (String → SymbolArchive ρ σ) → Prop
  | empty : Collected fun _ => SymbolArchive.empty
  | run {archive : String → SymbolArchive ρ σ} (h : Collected archive)
      (plans : List (CollectionPlan × (Month → Option (MonthEnv ρ σ)))) (trace : List (String × ArchiveOp ρ σ))
      (ht : Interleave.Interleaving (fun symbol => runScript plans symbol (archive symbol)) trace) :
      Collected (Interleave.interleaved SymbolArchive.apply archive trace)

end Collect

end CryptoPilot.Archive
