/- # Frames — data frames, the liquidity roster and the rank books.

A frame has an index of instants (UTC nanoseconds), columns of symbols and a row of cells for each
instant.  A float cell is an exact number, or `none` where it is not a number. -/
import Mathlib.Data.List.Sort
import Mathlib.Algebra.Order.Field.Rat
import CryptoPilot.Lib.Dict
import CryptoPilot.Lib.Effect

namespace CryptoPilot.Strategy

open CryptoPilot.Lib

/-! ## Frames -/

/-- `pd.DataFrame`. -/
structure Frame (α : Type) where
  index : List ℤ
  columns : List String
  rows : List (List α)
  rows_length : rows.length = index.length
  row_length : ∀ row ∈ rows, row.length = columns.length

abbrev FloatFrame : Type := Frame (Option ℚ)

namespace Frame

variable {α : Type}

def tabulate (index : List ℤ) (columns : List String) (cell : ℕ → ℕ → α) : Frame α where
  index := index
  columns := columns
  rows := (List.range index.length).map fun i => (List.range columns.length).map (cell i)
  rows_length := by simp
  row_length := by simp

def shape (frame : Frame α) : ℕ × ℕ := (frame.index.length, frame.columns.length)

/-- `frame.iloc[-1:]`: the last instant and its row, if there is one. -/
def lastRow (frame : Frame α) : Option ℤ × Option (List α) := (frame.index.getLast?, frame.rows.getLast?)

def row (frame : Frame α) (i : ℕ) : List α := frame.rows.getD i []

def cell [Inhabited α] (frame : Frame α) (i j : ℕ) : α := (frame.row i).getD j default

def cellAt [Inhabited α] (frame : Frame α) (label : ℤ) (symbol : String) : α :=
  match frame.index.idxOf? label, frame.columns.idxOf? symbol with
  | some i, some j => frame.cell i j
  | _, _ => default

end Frame

inductive TargetsError
  | valueError
  | dataIntegrityError
  | keyError
  deriving DecidableEq

abbrev hourNs : ℤ := 3600 * 10 ^ 9

abbrev dayNs : ℤ := 24 * hourNs

/-- A grid of steps from whole ones, labels read to the `grain`. -/
def isGrid (grain step : ℤ) (index : List ℤ) : Bool :=
  index.all (fun t => t / grain * grain % step ==
    0) && (List.zipWith (fun a b => b - a) index index.tail).all (· == step)

/-- `_is_utc_hourly_grid`, which looks at no nanosecond field. -/
def isUtcHourlyGrid (index : List ℤ) : Bool := isGrid 1000 hourNs index

def isUtcMidnightDaily (index : List ℤ) : Bool := isGrid 1 dayNs index

/-! ## The roster -/

def liquidityFloorUsd : ℚ := 1000000

/-- The last `width` values up to position `i`: the window of `rolling(width)`. -/
def rollingWindow {α : Type} (width : ℕ) (values : List α) (i : ℕ) : List α :=
  (values.take (i + 1)).drop (i + 1 - width)

def medianOf (values : List ℚ) : ℚ :=
  let sorted := values.insertionSort (· ≤ ·)
  let n := sorted.length
  if n % 2 = 1 then sorted.getD (n / 2) 0 else (sorted.getD (n / 2 - 1) 0 + sorted.getD (n / 2) 0) / 2

/-- `rolling(30, min_periods=30).median()` at position `i`. -/
def medianTurnover (column : List (Option ℚ)) (i : ℕ) : Option ℚ :=
  let window := (rollingWindow 30 column i).filterMap id
  if window.length = 30 then some (medianOf window) else none

structure DailyCensus where
  close : FloatFrame
  quoteVolume : FloatFrame

namespace DailyCensus

variable (daily : DailyCensus)

def turnover (j : ℕ) : List (Option ℚ) := daily.quoteVolume.rows.map fun row => row.getD j none

def traded (i j : ℕ) : Bool :=
  (daily.close.cell i j).isSome && (daily.quoteVolume.cell i j).any fun q => decide (0 < q)

def tradedCount (i j : ℕ) : ℕ :=
  ((rollingWindow 90 (List.range daily.close.index.length) i).filter fun k => daily.traded k j).length

/-- `eligible_src`: traded, on 85 of the last 90 days, at a median turnover above the floor. -/
def eligible (i j : ℕ) : Bool :=
  daily.traded i j && decide (85 ≤ daily.tradedCount i j) &&
    (medianTurnover (daily.turnover j) i).any fun m => decide (liquidityFloorUsd ≤ m)

/-- The members of day `i`: the `breadth` most liquid symbols, eligible the day before and not
blocked, in the order of their turnover. -/
def ranked (breadth : ℕ) (blocked : ℕ → ℕ → Bool) (i : ℕ) : List ℕ :=
  if i = 0 then []
  else
    let candidates := (List.range daily.close.columns.length).filter fun j =>
      daily.eligible (i - 1) j && !blocked i j
    let median := fun j => (medianTurnover (daily.turnover j) (i - 1)).getD 0
    (candidates.insertionSort fun a b => median b ≤ median a).take breadth

end DailyCensus

/-- `build_pit_roster`, for a positive breadth. -/
def buildPitRoster (daily : DailyCensus) (census : List String) (breadth : ℕ)
    (blockedDecisions : Option (Frame Bool)) :
    Except TargetsError (Frame Bool) :=
  if census = [] ∨ "" ∈ census ∨ ¬ census.Nodup then .error .dataIntegrityError
  else if daily.close.columns ≠ census ∨ daily.quoteVolume.columns ≠ census ∨
      daily.close.index ≠ daily.quoteVolume.index then .error .dataIntegrityError
  else if isUtcMidnightDaily daily.close.index = false then .error .dataIntegrityError
  else if daily.close.rows.any (fun row => row.any fun c => c.any fun q => decide (q ≤ 0)) ||
      daily.quoteVolume.rows.any (fun row => row.any fun c => c.any fun q => decide (q < 0)) then
    .error .dataIntegrityError
  else match blockedDecisions with
    | some blocked =>
      if blocked.index ≠ daily.close.index ∨ blocked.columns ≠ census then .error .dataIntegrityError
      else .ok (Frame.tabulate daily.close.index census fun i j =>
        decide (j ∈ daily.ranked breadth (fun i j => blocked.cell i j) i))
    | none => .ok (Frame.tabulate daily.close.index census fun i j =>
      decide (j ∈ daily.ranked breadth (fun _ _ => false) i))

/-! ## Rank books -/

def averageRank (values : List ℚ) (x : ℚ) : ℚ :=
  (values.countP fun y => decide (y < x)) + ((values.countP fun y => decide (y = x)) + 1 : ℚ) / 2

/-- One row of `rank_weight_book`. -/
def rankWeightRow (signal : List (Option ℚ)) (eligible : List Bool) (sign : ℚ) (minSymbols : ℕ) : List ℚ :=
  let masked := List.zipWith (fun (s : Option ℚ) e => if e then s else none) signal eligible
  let ranks := masked.map fun s => s.map (averageRank (masked.filterMap id))
  let count := (masked.filterMap id).length
  let centered := ranks.map fun r => r.map fun r => (r - (count + 1) / 2) * sign
  let gross := (centered.map fun c => |c.getD 0|).sum
  if minSymbols ≤ eligible.count true then
    centered.map fun c => if 0 < gross then c.getD 0 / gross else 0
  else signal.map fun _ => 0

def bookDegenerateGrossRtol : ℚ := 1 / 10 ^ 12

/-- One row of `clip_names_preserving_gross`. -/
def clipRow (clip : ℚ) (row : List ℚ) : List ℚ :=
  let total := (row.map fun v => |v|).sum
  let values := row.map fun v => if |v| ≤ bookDegenerateGrossRtol * total then 0 else v
  let grossIn := (values.map fun v => |v|).sum
  let clipped := values.map fun v => if v < 0 then -min |v| clip else min |v| clip
  let held := (values.filter fun v => decide (v ≠ 0)).length
  let mean := if held = 0 then 0 else clipped.sum / held
  let centered := List.zipWith (fun v c => if v ≠ 0 then c - mean else 0) values clipped
  let grossCentered := (centered.map fun v => |v|).sum
  let scale := if 0 < grossCentered then grossIn / grossCentered else 0
  if values.all fun v => decide (|v| ≤ clip) then values else centered.map fun v => v * scale

end CryptoPilot.Strategy
