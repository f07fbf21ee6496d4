/- # SettleWindow — `CausalPortfolioState` as its arrays are settled.

`advance_to` and `apply_fill` are one event each; `scalarSettle` is the loop over them, bar by bar.
`settleWindow` takes all bars and fills at once: the levels before the fills by cumulative writes,
the charges as folds over the canonical column order, the cash by writing charges and fills into
computed slots. -/
import CryptoPilot.Engine.Contracts
import CryptoPilot.Lib.Slots

namespace CryptoPilot.Engine.Accounting

open CryptoPilot.Live (Exc)
open CryptoPilot.Lib List

/-- `CausalPortfolioState` over `n` columns; a mark is `none` until a finite one was seen. -/
structure CausalPortfolioState (n : ℕ) where
  cash : ℚ
  units : Fin n → ℚ
  lastMarks : Fin n → Option ℚ
  lastEventNs : Option ℤ

/-- `CausalWindowSettlement`: the gap bars with their witness columns, and the charge of each bar.
-/
structure CausalWindowSettlement (n : ℕ) where
  gaps : List (ℕ × Fin n)
  fundingCharged : List ℚ
  fillsApplied : ℕ
  backlogApplied : ℕ

structure QueuedFill where
  ns : ℤ
  column : ℤ
  quantity : ℚ
  price : ℚ
  feeBps : ℚ

def QueuedFill.delta (f : QueuedFill) : ℚ := f.quantity * f.price + f.feeBps / 10000 * |f.quantity| * f.price

/-- The arguments of `settle_window`. -/
structure WindowArrays where
  barNs : List ℤ
  columns : List ℤ
  marks : List (List (Option ℚ))
  fundingRates : List (List ℚ)
  fundingKnown : List (List Bool)
  fillNs : List ℤ
  fillColumns : List ℤ
  fillQuantities : List ℚ
  fillPrices : List ℚ
  fillFeeBps : List ℚ

section Events

variable {n : ℕ}

def column? (n : ℕ) (c : ℤ) : Option (Fin n) :=
  if h : 0 ≤ c ∧ c < n then some ⟨c.toNat, by omega⟩ else none

/-- `units[c] += quantity`.  Every caller has checked the column. -/
def CausalPortfolioState.join (state : CausalPortfolioState n) (f : QueuedFill) : CausalPortfolioState n :=
  match column? n f.column with
  | some c => { state with units := Function.update state.units c (state.units c + f.quantity) }
  | none => state

def CausalPortfolioState.applyFill (state : CausalPortfolioState n) (f : QueuedFill) : CausalPortfolioState n :=
  { state.join f with cash := state.cash - f.delta }

def heldUnknown (units : Fin n → ℚ) (known : Fin n → Bool) (c : Fin n) : Bool :=
  decide (qtyEps ≤ |units c|) && !known c

def chargeOf (units : Fin n → ℚ) (marks : Fin n → Option ℚ) (rates : Fin n → ℚ) : ℚ :=
  (finRange n).foldl (fun charged c => charged + rates c * units c * (marks c).getD 0) 0

/-- `advance_to`: mark, then funding. -/
def CausalPortfolioState.advanceTo (state : CausalPortfolioState n) (eventNs : ℤ) (marks : Fin n → Option ℚ)
    (rates : Fin n → ℚ) (known : Fin n → Bool) : CausalPortfolioState n × Except Exc ℚ :=
  if state.lastEventNs.any (fun t => decide (eventNs < t)) then (state, .error .dataIntegrityError)
  else
    let marked := { state with lastMarks := fun c => (marks c).or (state.lastMarks c) }
    if (finRange n).any (heldUnknown state.units known) then (marked, .error .dataIntegrityError)
    else
      let charged := chargeOf state.units marks rates
      ({ marked with cash := state.cash - charged, lastEventNs := some eventNs }, .ok charged)

end Events

/-! ## The loop over events -/

section Scalar

variable {n : ℕ} (cols : List (Fin n))

/-- The row of a plane over all columns, with the default outside the window. -/
def spread {α : Type} (row : List α) (default : α) (c : Fin n) : α :=
  match cols.idxOf? c with
  | some j => row.getD j default
  | none => default

/-- One bar of the loop: its gap column, its charge, then its fills. -/
def scalarBar (planes : List (Option ℚ) × List ℚ × List Bool) (bar : ℤ) (state : CausalPortfolioState n)
    (queue : List QueuedFill) : CausalPortfolioState n × Except Exc (List QueuedFill × ℚ × Option (Fin n)) :=
  let marks := spread cols planes.1 none
  let rates := spread cols planes.2.1 0
  let known := spread cols planes.2.2 true
  let gap := (finRange n).find? fun c =>
    decide (qtyEps ≤ |state.units c|) && (!known c || (marks c).isNone && decide (rates c ≠ 0))
  let advanced :=
    if gap.isSome then state.advanceTo bar marks (fun c => if known c then rates c else 0) (fun _ => true)
    else state.advanceTo bar marks rates known
  match advanced with
  | (state, .error e) => (state, .error e)
  | (state, .ok charged) =>
    ((queue.takeWhile fun f => f.ns == bar).foldl CausalPortfolioState.applyFill state,
      .ok (queue.dropWhile fun f => f.ns == bar, charged, gap))

def scalarBars : List ((List (Option ℚ) × List ℚ × List Bool) × ℤ) → ℕ → CausalPortfolioState n → List QueuedFill →
    CausalPortfolioState n × Except Exc (List ℚ × List (ℕ × Fin n))
  | [], _, state, _ => (state, .ok ([], []))
  | (planes, bar) :: rest, offset, state, queue =>
    match scalarBar cols planes bar state queue with
    | (state, .error e) => (state, .error e)
    | (state, .ok (queue, charged, gap)) =>
      match scalarBars rest (offset + 1) state queue with
      | (state, .error e) => (state, .error e)
      | (state, .ok (charges, gaps)) =>
        (state, .ok (charged :: charges, (gap.toList.map fun c => (offset, c)) ++ gaps))

def scalarSettle (planes : List (List (Option ℚ) × List ℚ × List Bool)) (bars : List ℤ) (queue : List QueuedFill)
    (state : CausalPortfolioState n) : CausalPortfolioState n × Except Exc (List ℚ × List (ℕ × Fin n)) :=
  let early := fun f : QueuedFill => decide (f.ns < bars.headD 0)
  scalarBars cols (planes.zip bars) 0 ((queue.takeWhile early).foldl CausalPortfolioState.join state)
    (queue.dropWhile early)

end Scalar

/-! ## The window at once -/

section Window

variable {n : ℕ}

/-- `np.searchsorted(xs, x, side="left")` of a sorted array. -/
def searchsorted {α : Type} [LinearOrder α] (xs : List α) (x : α) :
    ℕ := (xs.takeWhile fun y => decide (y < x)).length

def WindowArrays.fills (w : WindowArrays) : List QueuedFill :=
  (List.range w.fillNs.length).map fun i =>
    ⟨w.fillNs.getD i 0, w.fillColumns.getD i 0, w.fillQuantities.getD i 0, w.fillPrices.getD i 0,
      w.fillFeeBps.getD i 0⟩

def WindowArrays.sorted (w : WindowArrays) : List QueuedFill := w.fills.insertionSort fun f g => f.ns ≤ g.ns

/-- Row `i` of the planes. -/
def WindowArrays.planes (w : WindowArrays) (i : ℕ) : List (Option ℚ) × List ℚ × List Bool :=
  (w.marks.getD i [], w.fundingRates.getD i [], w.fundingKnown.getD i [])

def coerceBarNs (bars : List ℤ) (lastEventNs : Option ℤ) : Except Exc Unit :=
  if bars = [] then .error .dataIntegrityError
  else if ¬ bars.Pairwise (· < ·) then .error .dataIntegrityError
  else if lastEventNs.any (fun t => decide (bars.headD 0 < t)) then .error .dataIntegrityError
  else .ok ()

def coerceColumns (n : ℕ) (columns : List ℤ) : Except Exc (List (Fin n)) :=
  match columns.mapM (column? n) with
  | none => .error .dataIntegrityError
  | some cols => if cols.Nodup then .ok cols else .error .dataIntegrityError

def checkShapes (w : WindowArrays) : Except Exc Unit :=
  let rows := fun {α : Type} (plane : List (List α)) =>
    decide (plane.length = w.barNs.length) && plane.all fun row => decide (row.length = w.columns.length)
  if ¬ (rows w.marks && rows w.fundingRates && rows w.fundingKnown) then .error .dataIntegrityError
  else if ¬ (w.fillColumns.length = w.fillNs.length ∧ w.fillQuantities.length = w.fillNs.length ∧
      w.fillPrices.length = w.fillNs.length ∧ w.fillFeeBps.length = w.fillNs.length) then
    .error .dataIntegrityError
  else .ok ()

def locate (bars : List ℤ) (cols : List (Fin n)) (f : QueuedFill) : Option (ℕ × ℕ) :=
  (column? n f.column).bind fun c =>
    let pos := searchsorted bars f.ns
    if bars[pos]? = some f.ns then (cols.idxOf? c).map fun j => (pos, j) else none

abbrev Placed : Type := ℕ × ℕ × QueuedFill

def validateAppliedFills (bars : List ℤ) (cols : List (Fin n)) (applied : List QueuedFill) :
    Except Exc (List Placed) :=
  match applied.mapM fun f => (locate bars cols f).map fun p => (p.1, p.2, f) with
  | none => .error .dataIntegrityError
  | some placed => .ok placed

/-- A column of `_pre_fill_units`: every fill writes the level after it from the next bar on. -/
def preFillColumn (nb : ℕ) (start : ℚ) (fills : List Placed) : List ℚ :=
  (fills.foldl
    (fun acc p =>
      let level := acc.1 + p.2.2.quantity
      (level, if p.1 + 1 < nb then acc.2.take (p.1 + 1) ++ replicate (nb - (p.1 + 1)) level else acc.2))
    (start, replicate nb start)).2

/-- `_backlog_start` of a column. -/
def backlogStart (units : Fin n → ℚ) (backlog : List QueuedFill) (c : Fin n) : ℚ :=
  backlog.foldl (fun level f => if column? n f.column = some c then level + f.quantity else level) (units c)

def canonOrder (cols : List (Fin n)) : List ℕ :=
  (List.range cols.length).insertionSort fun i j => (cols[i]?.elim 0 Fin.val : ℕ) ≤ cols[j]?.elim 0 Fin.val

/-- `_fold_cash`: charges and fills at their slots, then one subtraction after the other. -/
def foldCash (cash : ℚ) (charges : List ℚ) (placed : List Placed) : ℚ :=
  let fillBar := placed.map fun p => p.1
  let barSlots := (List.range charges.length).map fun b => (b + searchsorted fillBar b, charges.getD b 0)
  let fillSlots := placed.zipIdx.map fun p => (p.1.1 + 1 + p.2, p.1.2.2.delta)
  (scatter (barSlots ++ fillSlots) (replicate (charges.length + placed.length) 0)).foldl (· - ·) cash

/-- `_last_finite_marks` of a column. -/
def lastFiniteMark (marks : List (List (Option ℚ))) (j : ℕ) (current : Option ℚ) : Option ℚ :=
  (marks.reverse.findSome? fun row => row.getD j none).or current

section Pass

variable (w : WindowArrays) (cols : List (Fin n)) (units : ℕ → ℕ → ℚ)

/-- Whether local column `j` is held at bar `i` with unknown or unpriceable funding. -/
def gapAt (i j : ℕ) : Bool :=
  let (marks, rates, known) := w.planes i
  decide (qtyEps ≤ |units i j|) && (!known.getD j true || (marks.getD j none).isNone && decide (rates.getD j 0 ≠ 0))

def gapWitness (i : ℕ) : Option ℕ := (canonOrder cols).find? (gapAt w units i)

/-- The charge of a bar.  On a gap bar the rates of unknown columns are zero. -/
def chargeAt (i : ℕ) : ℚ :=
  let (marks, rates, known) := w.planes i
  (canonOrder cols).foldl
    (fun charge j =>
      charge + (if (gapWitness w cols units i).isSome && !known.getD j true then 0 else rates.getD
        j 0) * units i j *
        (marks.getD j none).getD 0) 0

end Pass

def settleWindow (state : CausalPortfolioState n) (w : WindowArrays) :
    CausalPortfolioState n × Except Exc (CausalWindowSettlement n) :=
  match coerceBarNs w.barNs state.lastEventNs with
  | .error e => (state, .error e)
  | .ok _ =>
  match coerceColumns n w.columns with
  | .error e => (state, .error e)
  | .ok cols =>
  match checkShapes w with
  | .error e => (state, .error e)
  | .ok _ =>
  let nb := w.barNs.length
  let count := searchsorted (w.sorted.map QueuedFill.ns) (w.barNs.headD 0)
  let backlog := w.sorted.take count
  if ¬ backlog.all (fun f => (column? n f.column).isSome) then (state, .error .dataIntegrityError)
  else
  match validateAppliedFills w.barNs cols (w.sorted.drop count) with
  | .error e => (state, .error e)
  | .ok placed =>
  let rows := cols.zipIdx.map fun p =>
    preFillColumn nb (backlogStart state.units backlog p.1) (placed.filter fun q => q.2.1 == p.2)
  let units := fun i j => (rows.getD j []).getD i 0
  let charges := (List.range nb).map (chargeAt w cols units)
  let gaps := (List.range nb).filterMap fun i =>
    (gapWitness w cols units i).bind fun j => cols[j]?.map fun c => (i, c)
  -- nothing was changed up to here
  let joined := placed.foldl (fun s p => s.join p.2.2) (backlog.foldl CausalPortfolioState.join state)
  ({ cash := foldCash state.cash charges placed
     units := joined.units
     lastMarks := fun c =>
      match cols.idxOf? c with
      | some j => lastFiniteMark w.marks j (state.lastMarks c)
      | none => state.lastMarks c
     lastEventNs := some (w.barNs.getLastD 0) },
    .ok ⟨gaps, charges, placed.length, backlog.length⟩)

end Window

end CryptoPilot.Engine.Accounting
