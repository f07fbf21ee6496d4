/- # Import — merging one archive root into another.

`import_archive` goes over the months in which the source has `ok` days that the destination has
not.  Where the destination has a partition, the wanted days of the source are merged into it; where
it has none, the file of the source is copied. -/
import CryptoPilot.Archive.CollectRuns

namespace CryptoPilot.Archive

open CryptoPilot.Lib
open CryptoPilot.Lib.Interleave (execute)

/-- The exceptions of `import_archive`. -/
inductive ImportExc where
  | rowsNotSorted
  | rowOutsideMonth
  | invalidArchiveSymbol (symbol : String)
  | osError (detail : String)
  deriving DecidableEq, Repr

structure ImportReport where
  monthsCopied : ℕ
  monthsMerged : ℕ
  monthsSkippedSealed : ℕ
  monthsSkippedConflict : ℕ
  daysRecorded : ℕ
  deriving DecidableEq, Repr

/-- An archive root: the symbols in its coverage, and the archive of each symbol. -/
structure ArchiveRoot (ρ : Type) where
  symbols : List String
  archive : String → SymbolArchive ρ ρ
  covered : ∀ symbol, symbol ∉ symbols → ∀ dataset, (archive symbol).log dataset = []

section Import

variable {ρ : Type} [Timed ρ]

def SymbolArchive.partition (s : SymbolArchive ρ ρ) : PartitionKind → ArchiveDataset → Month → Option (List ρ)
  | .derived => s.derived
  | .slice => s.slice

def SymbolArchive.withPartition (s : SymbolArchive ρ ρ) (kind : PartitionKind) (dataset : ArchiveDataset)
    (month : Month) (rows : Option (List ρ)) : SymbolArchive ρ ρ :=
  match kind with
  | .derived => { s with derived := setEntry s.derived dataset month rows }
  | .slice => { s with slice := setEntry s.slice dataset month rows }

/-- What a call meets: failures of staging, of the n-th replace of a month and of coverage appends,
and the reader's batches. -/
structure ImportEnv (ρ : Type) where
  stagingFails : ArchiveDataset → String → Month → PartitionKind → Option String
  replaceFails : ArchiveDataset → String → Month → Option (ℕ × String)
  appendFails : ArchiveDataset → String → ℤ → Option String
  now : ArchiveDataset → String → ℤ → ℤ
  chunking : Chunking ρ

/-- `_chunks`, `previous` being the last key of the batches so far. -/
def chunksFrom (month : Month) (previous : Option ℤ) : List (List ρ) → Except ImportExc (List (ℤ × List ρ))
  | [] => .ok []
  | batch :: rest =>
    if ¬ SortedRows batch ∨ (batch.head?.any fun r => previous.any fun p => decide (Timed.stamp r < p)) then
      .error .rowsNotSorted
    else if batch.any fun r => decide (rowMonth r ≠ month) then .error .rowOutsideMonth
    else do
      let later ← chunksFrom month (batch.getLast?.map Timed.stamp <|> previous) rest
      .ok (dayGroups batch ++ later)

def chunks (C : Chunking ρ) (month : Month) (rows : List ρ) : Except ImportExc (List (ℤ × List ρ)) :=
  chunksFrom month none (C.cut rows)

/-- `_stage_merge`: the rows of the merged tables. -/
def stageMerge (C : Chunking ρ) (month : Month) (source dest : List ρ) (wanted : List ℤ) :
    Except ImportExc (List ρ) := do
  let kept ← chunks C month dest
  let incoming ← chunks C month source
  .ok (((kept.filter fun t => t.1 ∉ wanted).merge (incoming.filter fun t => t.1 ∈ wanted)
    fun a b => decide (a.1 ≤ b.1)).flatMap Prod.snd)

def kindsOf (dataset : ArchiveDataset) : List PartitionKind :=
  if dataset = .aggTrades then [.derived, .slice] else [.derived]

/-- One turn of the staging loop of `_write_month`. -/
def stageKind (env : ImportEnv ρ) (dataset : ArchiveDataset) (symbol : String) (month : Month) (wanted : List ℤ)
    (source dest : SymbolArchive ρ ρ) (kind : PartitionKind) : Except ImportExc (PartitionKind × List ρ) := do
  let rows := (source.partition kind dataset month).getD []
  let _ ← chunks env.chunking month rows
  match env.stagingFails dataset symbol month kind with
  | some detail => .error (.osError detail)
  | none =>
    match dest.partition kind dataset month with
    | some existing => do
      let merged ← stageMerge env.chunking month rows existing wanted
      .ok (kind, merged)
    | none => .ok (kind, rows)

def putAll (dataset : ArchiveDataset) (month : Month) (dest : SymbolArchive ρ ρ)
    (staged : List (PartitionKind × List ρ)) : SymbolArchive ρ ρ :=
  staged.foldl (fun s t => s.withPartition t.1 dataset month (some t.2)) dest

/-- `_commit`: when the n-th replace fails, what was replaced is put back. -/
def commitStaged (dataset : ArchiveDataset) (month : Month) (staged : List (PartitionKind × List ρ))
    (replaceFails : Option (ℕ × String)) (dest : SymbolArchive ρ ρ) : Except ImportExc Unit × SymbolArchive ρ ρ :=
  match replaceFails with
  | some (n, detail) =>
    if n < staged.length then
      let committed := staged.take n
      (.error (.osError detail), committed.reverse.foldl
        (fun s t => s.withPartition t.1 dataset month (dest.partition t.1 dataset month))
        (putAll dataset month dest committed))
    else (.ok (), putAll dataset month dest staged)
  | none => (.ok (), putAll dataset month dest staged)

/-- The `ok` days of a month in the coverage of a source, in the order of the log. -/
def okDaysOf (source : SymbolArchive ρ ρ) (dataset : ArchiveDataset) (month : Month) : List ℤ :=
  (((source.log dataset).map CoverageRow.day).dedup).filter fun day =>
    decide (monthOf day = month) && match source.row dataset day with
      | some row => decide (row.status = .ok)
      | none => false

def okDay (s : SymbolArchive ρ ρ) (dataset : ArchiveDataset) (day : ℤ) : Bool :=
  match s.row dataset day with
  | some row => decide (row.status = .ok)
  | none => false

/-- What `import_archive` does with a month. -/
inductive MonthDecision where
  | skippedSealed (kinds : ℕ)
  | skippedConflict (kinds : ℕ)
  | nothing
  | wanted (days : List ℤ)
  deriving DecidableEq, Repr

def decideMonth (C : Chunking ρ) (dataset : ArchiveDataset) (month : Month) (source dest : SymbolArchive ρ ρ) :
    Except ImportExc MonthDecision := do
  let days := okDaysOf source dataset month
  let kinds := kindsOf dataset
  let sealedCount := (kinds.filter fun kind => sealedMonths dest dataset kind month).length
  if sealedCount ≠ 0 then .ok (.skippedSealed sealedCount)
  else
    let overlap := days.filter fun day => okDay dest dataset day
    if overlap.any fun day => decide ((dest.row dataset day).bind CoverageRow.rawSha256
        ≠ (source.row dataset day).bind CoverageRow.rawSha256) then .ok (.skippedConflict kinds.length)
    else
      let wanted := days.filter fun day => day ∉ overlap
      if wanted = [] then .ok .nothing
      else if kinds.any fun kind => (source.partition kind dataset month).isNone then .ok .nothing
      else do
        let present ← chunks C month ((source.derived dataset month).getD [])
        let wanted := wanted.filter fun day =>
          decide (((source.row dataset day).map CoverageRow.rows).getD 0 = 0) || decide (day ∈ present.map Prod.fst)
        if wanted = [] then .ok .nothing else .ok (.wanted wanted)

def appendRows (env : ImportEnv ρ) (dataset : ArchiveDataset) (symbol : String) (source : SymbolArchive ρ ρ) :
    List ℤ → SymbolArchive ρ ρ → Except ImportExc Unit × SymbolArchive ρ ρ
  | [], dest => (.ok (), dest)
  | day :: days, dest =>
    match env.appendFails dataset symbol day, source.row dataset day with
    | some detail, _ => (.error (.osError detail), dest)
    | none, some row =>
      appendRows env dataset symbol source days
        (dest.apply (.append dataset { row with recordedAt := some (env.now dataset symbol day) }))
    | none, none => appendRows env dataset symbol source days dest

/-- One turn of the inner loop of `import_archive`; `start` is the archive when the coverage of the
dataset was loaded. -/
def importMonth (env : ImportEnv ρ) (dataset : ArchiveDataset) (symbol : String) (month : Month)
    (source start dest : SymbolArchive ρ ρ) (report : ImportReport) :
    Except ImportExc ImportReport × SymbolArchive ρ ρ :=
  match decideMonth env.chunking dataset month source start with
  | .error e => (.error e, dest)
  | .ok (.skippedSealed n) => (.ok { report with monthsSkippedSealed := report.monthsSkippedSealed + n }, dest)
  | .ok (.skippedConflict n) =>
    (.ok { report with monthsSkippedConflict := report.monthsSkippedConflict + n }, dest)
  | .ok .nothing => (.ok report, dest)
  | .ok (.wanted wanted) =>
    match (kindsOf dataset).mapM (stageKind env dataset symbol month wanted source dest) with
    | .error e => (.error e, dest)
    | .ok staged =>
      match commitStaged dataset month staged (env.replaceFails dataset symbol month) dest with
      | (.error e, dest') => (.error e, dest')
      | (.ok (), dest') =>
        match appendRows env dataset symbol source (wanted.insertionSort (· ≤ ·)) dest' with
        | (.error e, dest'') => (.error e, dest'')
        | (.ok (), dest'') =>
          let merged := ((kindsOf dataset).filter fun kind => (dest.partition kind dataset month).isSome).length
          (.ok { report with
            monthsCopied := report.monthsCopied + ((kindsOf dataset).length - merged)
            monthsMerged := report.monthsMerged + merged
            daysRecorded := report.daysRecorded + wanted.length }, dest'')

def setArchive (archive : String → SymbolArchive ρ ρ) (symbol : String) (s : SymbolArchive ρ ρ) :
    String → SymbolArchive ρ ρ :=
  Function.update archive symbol s

/-- The inner loop of `import_archive`. -/
def importMonths (env : ImportEnv ρ) (dataset : ArchiveDataset) (source start : String → SymbolArchive ρ ρ) :
    List (String × Month) → (String → SymbolArchive ρ ρ) → ImportReport →
      Except ImportExc ImportReport × (String → SymbolArchive ρ ρ)
  | [], dest, report => (.ok report, dest)
  | (symbol, month) :: groups, dest, report =>
    match importMonth env dataset symbol month (source symbol) (start symbol) (dest symbol) report with
    | (.error e, s) => (.error e, setArchive dest symbol s)
    | (.ok report, s) => importMonths env dataset source start groups (setArchive dest symbol s) report

/-- `is_perpetual_usdt`, and a symbol that is a file name of its own. -/
def validArchiveSymbol (symbol : String) : Bool :=
  ['U', 'S', 'D', 'T'].isSuffixOf symbol.toList && !symbol.toList.contains '_' && !symbol.toList.contains '/'

/-- The symbols with an `ok` day. -/
def okSymbols (source : ArchiveRoot ρ) (dataset : ArchiveDataset) : List String :=
  source.symbols.dedup.filter fun symbol =>
    ((source.archive symbol).log dataset).any fun r => okDay (source.archive symbol) dataset r.day

/-- The months with an `ok` day of a symbol, in order. -/
def okMonths (source : SymbolArchive ρ ρ) (dataset : ArchiveDataset) : List Month :=
  (((source.log dataset).map CoverageRow.day).filter fun day => okDay source dataset day).map monthOf |>.dedup
    |>.insertionSort fun a b => 12 * a.1 + a.2 ≤ 12 * b.1 + b.2

/-- `sorted(groups)`. -/
def importGroups (source : ArchiveRoot ρ) (dataset : ArchiveDataset) : List (String × Month) :=
  ((okSymbols source dataset).insertionSort (· ≤ ·)).flatMap fun symbol =>
    (okMonths (source.archive symbol) dataset).map fun month => (symbol, month)

/-- The outer loop of `import_archive`. -/
def importDatasets (env : ImportEnv ρ) (source : ArchiveRoot ρ) :
    List ArchiveDataset → (String → SymbolArchive ρ ρ) → ImportReport →
      Except ImportExc ImportReport × (String → SymbolArchive ρ ρ)
  | [], dest, report => (.ok report, dest)
  | dataset :: datasets, dest, report =>
    match (okSymbols source dataset).find? fun symbol => !validArchiveSymbol symbol with
    | some symbol => (.error (.invalidArchiveSymbol symbol), dest)
    | none =>
      match importMonths env dataset source.archive dest (importGroups source dataset) dest report with
      | (.error e, dest') => (.error e, dest')
      | (.ok report, dest') => importDatasets env source datasets dest' report

/-- `import_archive` of disjoint roots. -/
def importArchive (env : ImportEnv ρ) (source dest : ArchiveRoot ρ) (datasets : List ArchiveDataset) :
    Except ImportExc ImportReport × (String → SymbolArchive ρ ρ) :=
  importDatasets env source datasets.eraseDups dest.archive ⟨0, 0, 0, 0, 0⟩

end Import

end CryptoPilot.Archive
