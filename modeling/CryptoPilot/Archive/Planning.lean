/- # Planning — `plan_collection`.

A plan lists, for each dataset and symbol, the days that are wanted, not settled and in the bucket.
A wanted day of a month whose partition is gone, though the coverage has rows for it, is not
collected: it becomes a sealed day of the plan. -/
import CryptoPilot.Archive.Collect

namespace CryptoPilot.Archive

open CryptoPilot.Lib

/-- `DATASETS[...].first_day`. -/
def ArchiveDataset.firstDay : ArchiveDataset → ℤ
  | .metrics => 18506
  | .bookDepth => 19358
  | .aggTrades => 18140

/-- `MASK_POLICIES[...].start`. -/
def ArchiveDataset.maskStart : ArchiveDataset → ℤ
  | .metrics => 18628
  | .bookDepth => 19358
  | .aggTrades => 19358

def historyStart : ℤ := 18628

/-- The arguments of `plan_collection`, the day before the clock's, and what the bucket lists for a
symbol in a month, or whole (`none`). -/
structure PlanRequest where
  datasets : List ArchiveDataset
  symbols : ArchiveDataset → List String
  start : Option ℤ
  endDay : ℤ
  yesterday : ℤ
  sliceHours : ℤ × ℤ
  sliceSymbols : List String
  incrementalWindowDays : Option ℤ
  allowed : ArchiveDataset → Option (String → List ℤ)
  retryDefective : Bool
  listing : ArchiveDataset → String → Option Month → Option (List ℤ)

/-- The exceptions of `plan_collection`. -/
inductive PlanExc where
  | invalidSliceWindow
  | negativeIncrementalWindow
  deriving DecidableEq, Repr

section Planning

variable {ρ σ : Type} (req : PlanRequest) (dataset : ArchiveDataset) (symbol : String) (s : SymbolArchive ρ σ)

def PlanRequest.cappedEnd : ℤ := min req.endDay req.yesterday

def isSettled (day : ℤ) : Bool :=
  match s.row dataset day with
  | some row => decide (row.status = .ok) || (decide (row.status = .defective) && !req.retryDefective)
  | none => false

/-- The days with an `ok` row. -/
def okDays : List ℤ :=
  ((s.log dataset).map CoverageRow.day).filter fun day =>
    match s.row dataset day with
    | some row => decide (row.status = .ok)
    | none => false

def unmaskedFirstDay : ℤ :=
  match req.start with
  | some start => start
  | none =>
    let base := match (okDays dataset s).max? with
      | some last => last + 1
      | none =>
        match req.incrementalWindowDays with
        | some days => max dataset.firstDay (req.endDay - days)
        | none => dataset.firstDay
    max historyStart base

/-- The pool of `_candidate_days`, before settled days are left out. -/
def candidatePool : List ℤ :=
  match req.allowed dataset with
  | some allowMap =>
    let floor := match req.start with
      | some start => start
      | none => dataset.maskStart
    let floor := match req.incrementalWindowDays with
      | some days => max floor (req.endDay - days)
      | none => floor
    (allowMap symbol).dedup.filter fun day => decide (floor ≤ day ∧ day ≤ req.cappedEnd)
  | none =>
    let first := unmaskedFirstDay req dataset s
    (List.range (req.cappedEnd - first + 1).toNat).map fun offset => first + (offset : ℤ)

def candidateDays : List ℤ :=
  ((candidatePool req dataset symbol s).filter fun day => !isSettled req dataset s day).insertionSort (· ≤ ·)

def listDays (months : List Month) (wholeSymbol : Bool) : Option (List ℤ) :=
  if wholeSymbol then req.listing dataset symbol none
  else (months.mapM fun month => req.listing dataset symbol (some month)).map List.flatten

/-- `_plan_symbol`: the plan, `none` inside where nothing is to do, `none` outside where a listing
failed. -/
def planSymbol (candidates : List ℤ) (window : Option (ℤ × ℤ)) (allowWholeSymbol : Bool) :
    Option (Option CollectionPlan) := do
  let months := (candidates.map monthOf).eraseDups
  let listed ← listDays req dataset symbol months (allowWholeSymbol && decide (3 < months.length))
  let days := candidates.filter fun day => decide (day ∈ listed)
  let pending := ([0, 1, 2].map fun offset => req.cappedEnd - offset).filter fun day =>
    decide (req.yesterday - 2 ≤ day ∧ day ∈ candidates ∧ day ∉ listed)
  if days = [] ∧ pending = [] then some none
  else some (some
    { dataset := dataset, symbol := symbol, days := days, sliceHours := window, pendingDays := pending })

def PlanRequest.window : Option (ℤ × ℤ) :=
  if dataset = .aggTrades ∧ symbol ∈ req.sliceSymbols then some req.sliceHours else none

def sealedDay (day : ℤ) : Bool :=
  sealedMonths s dataset .derived (monthOf day) ||
    ((req.window dataset symbol).isSome && sealedMonths s dataset .slice (monthOf day))

def anySealed : Bool :=
  (s.log dataset).any fun r => sealedMonths s dataset .derived (monthOf r.day) ||
    ((req.window dataset symbol).isSome && sealedMonths s dataset .slice (monthOf r.day))

/-- One turn of the loop of `plan_collection`. -/
def planOne : Option (Option CollectionPlan) :=
  let candidates := candidateDays req dataset symbol s
  if candidates = [] then some none
  else do
    let window := req.window dataset symbol
    let sealedDays := candidates.filter fun day => sealedDay req dataset symbol s day
    let openDays := candidates.filter fun day => !sealedDay req dataset symbol s day
    let plan ← planSymbol req dataset symbol openDays window (!anySealed req dataset symbol s)
    match plan with
    | none =>
      if sealedDays = [] then some none
      else some (some { dataset := dataset, symbol := symbol, days := [], sliceHours := window
                        sealedDays := sealedDays })
    | some plan => some (some { plan with sealedDays := sealedDays })

end Planning

/-- `plan_collection`: `none` when a listing failed. -/
def planCollection {ρ σ : Type} (req : PlanRequest) (archive : String → SymbolArchive ρ σ) :
    Except PlanExc (Option (List CollectionPlan)) :=
  if ¬ (0 ≤ req.sliceHours.1 ∧ req.sliceHours.1 < req.sliceHours.2 ∧ req.sliceHours.2 ≤ 24) then
    .error .invalidSliceWindow
  else if req.incrementalWindowDays.any fun days => decide (days < 0) then .error .negativeIncrementalWindow
  else
    let turns := req.datasets.flatMap fun dataset =>
      ((req.symbols dataset).dedup.insertionSort (· ≤ ·)).map fun symbol => (dataset, symbol)
    .ok ((turns.mapM fun turn => planOne req turn.1 turn.2 (archive turn.2)).map List.reduceOption)

end CryptoPilot.Archive
