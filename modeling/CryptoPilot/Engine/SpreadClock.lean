/- # SpreadClock — what the liquidity clock makes of a partition that arrives in pieces.

The clock adds up the two-bar estimates of each piece, with the bar carried over from the piece
before, and settles them once the partition is over.  Its pairs are those of the whole bar range
(`Tracks`), after the pair that a bar carried in from an earlier partition may form.  Its bar count
is not: a bar on which two pieces overlap counts twice, and a column with two bars can pass for one
with the three that an estimate needs. -/
import Mathlib.Algebra.Order.BigOperators.Group.List
import Mathlib.Data.List.Range
import CryptoPilot.Engine.WindowStream

namespace CryptoPilot.Engine

open List

/-! ## §1 Pairs of adjacent bars -/

section Pairs

variable {β : Type}

def pairOf (x y : Option β) : Option (β × β) := x.bind fun x => y.map fun y => (x, y)

def adjacentPairs (bars : List (Option β)) : List (β × β) :=
  (bars.zip bars.tail).filterMap fun p => pairOf p.1 p.2

@[simp] theorem pairOf_none_left (y : Option β) : pairOf none y = none := rfl

@[simp] theorem pairOf_none_right (x : Option β) : pairOf x none = none := by
  cases x <;> rfl

theorem adjacentPairs_cons_cons (x y : Option β) (bars : List (Option β)) :
    adjacentPairs (x :: y :: bars) = (pairOf x y).toList ++ adjacentPairs (y :: bars) := by
  show filterMap _ ((x, y) :: (y :: bars).zip bars) = _
  rw [filterMap_cons]
  cases hpair : pairOf x y with
  | none | some p => simp [adjacentPairs]

theorem adjacentPairs_append_cons (bars : List (Option β)) (x : Option β) (later : List (Option β)) :
    adjacentPairs (bars ++ x :: later) = adjacentPairs (bars ++ [x]) ++ adjacentPairs (x :: later) := by
  induction bars with
  | nil => rfl
  | cons b bars ih =>
    cases bars with
    | nil =>
      show adjacentPairs (b :: x :: later) = adjacentPairs (b :: x :: []) ++ _
      rw [adjacentPairs_cons_cons, adjacentPairs_cons_cons]; simp [adjacentPairs]
    | cons c bars =>
      show adjacentPairs (b :: c :: (bars ++ x :: later)) = adjacentPairs (b :: c :: (bars ++ [x])) ++ _
      rw [adjacentPairs_cons_cons, adjacentPairs_cons_cons, append_assoc]
      exact congrArg ((pairOf b c).toList ++ ·) ih

theorem adjacentPairs_concat (bars : List (Option β)) (x : Option β) :
    adjacentPairs (bars ++ [x]) = adjacentPairs bars ++ (pairOf bars.getLast?.join x).toList := by
  induction bars with
  | nil => rfl
  | cons b bars ih =>
    cases bars with
    | nil =>
      show adjacentPairs (b :: x :: []) = adjacentPairs [b] ++ _
      rw [adjacentPairs_cons_cons]; simp [adjacentPairs]
    | cons c bars =>
      show adjacentPairs (b :: c :: (bars ++ [x])) = _
      rw [adjacentPairs_cons_cons, adjacentPairs_cons_cons, append_assoc]
      exact congrArg ((pairOf b c).toList ++ ·) ih

theorem adjacentPairs_append_replicate_none (bars : List (Option β)) :
    ∀ n : ℕ, adjacentPairs (bars ++ replicate n none) = adjacentPairs bars
  | 0 => by rw [replicate_zero, append_nil]
  | n + 1 => by
    rw [replicate_succ', ← append_assoc, adjacentPairs_concat, pairOf_none_right, Option.toList_none, append_nil]
    exact adjacentPairs_append_replicate_none bars n

end Pairs

theorem pairEstimates_eq (cfg : ReplayConfig) (bars : List (Option (ℚ × ℚ))) :
    pairEstimates cfg bars = (adjacentPairs bars).map fun p => cfg.pairSpread p.1 p.2 := by
  rw [adjacentPairs, map_filterMap]
  refine congrFun (congrArg filterMap (funext fun p => ?_)) _
  obtain ⟨x, y⟩ := p
  cases x <;> cases y <;> rfl

/-! ## §2 The clock over windows -/

/-- The configuration with another two-bar estimator, floored at zero. -/
def ReplayConfig.estimating (cfg : ReplayConfig) (estimator : ℚ × ℚ → ℚ × ℚ → ℚ) : ReplayConfig :=
  { cfg with pairSpread := fun x y => max (estimator x y) 0 }

/-- `corwin_schultz_half_spread_bps` of a column. -/
def corwinSchultzHalfSpreadBps (cfg : ReplayConfig) (bars : List (Option (ℚ × ℚ))) : Option ℚ :=
  combineHalfSpreadBps (pairEstimates cfg bars).sum (pairEstimates cfg bars).length
    (bars.filter Option.isSome).length

def consumeSpread (cfg : ReplayConfig) (spread : SpreadState) (w : Window) : SpreadState :=
  observeSpreadPartition cfg w (advanceSpreadClock cfg w.logicalPartition spread)

def freshSpread : SpreadState :=
  ⟨fun _ => none, none, fun _ => 0, fun _ => 0, fun _ => 0, fun _ => none, fun _ => none, fun _ => -1⟩

/-- The estimate that `_finalize_spread_partition` folds into the average of a column. -/
def pendingEstimate (spread : SpreadState) (s : String) : Option ℚ :=
  combineHalfSpreadBps (spread.pairSums s) (spread.pairCounts s) (spread.barCounts s)

structure SpreadState.Settled (spread : SpreadState) : Prop where
  sums : spread.pairSums = fun _ => 0
  counts : spread.pairCounts = fun _ => 0
  bars : spread.barCounts = fun _ => 0

theorem freshSpread_settled : freshSpread.Settled := ⟨rfl, rfl, rfl⟩

variable {cfg : ReplayConfig} {spread : SpreadState}

section

variable (hmodel : cfg.spec.corwinSchultz = true)

include hmodel

theorem finalizeSpreadPartition_settled (hpending : spread.pendingKey.isSome = true) :
    (finalizeSpreadPartition cfg spread).Settled := by
  rw [finalizeSpreadPartition, if_pos ⟨hmodel, hpending⟩]; exact ⟨rfl, rfl, rfl⟩

theorem consumeSpread_settled (h : spread.pendingKey = none → spread.Settled) (w : Window) :
    (consumeSpread cfg spread w).pendingKey = none → (consumeSpread cfg spread w).Settled := by
  unfold consumeSpread observeSpreadPartition
  rw [if_neg (by simp [hmodel])]
  cases hkey : w.logicalPartition with
  | none =>
    rw [show advanceSpreadClock cfg none spread = spread from if_neg (by simp)]
    exact fun hnone => ⟨(h hnone).sums, (h hnone).counts, (h hnone).bars⟩
  | some key => exact fun hnone => by cases hnone

theorem spreadRun_settled (ws : List Window) :
    (ws.foldl (consumeSpread cfg) freshSpread).pendingKey = none →
      (ws.foldl (consumeSpread cfg) freshSpread).Settled := by
  induction ws using reverseRecOn with
  | nil => exact fun _ => freshSpread_settled
  | append_singleton ws w ih =>
    rw [foldl_append]; exact consumeSpread_settled hmodel ih w

theorem advanceSpreadClock_settled (h : spread.pendingKey = none → spread.Settled) {key : ℕ × ℕ}
    (hnew : spread.pendingKey ≠ some key) : (advanceSpreadClock cfg (some key) spread).Settled := by
  unfold advanceSpreadClock
  cases hpending : spread.pendingKey with
  | none =>
    rw [if_neg (by simp)]; exact h hpending
  | some old =>
    rw [if_pos ⟨hmodel, rfl, rfl, hpending ▸ hnew⟩]
    exact finalizeSpreadPartition_settled hmodel (by rw [hpending]; rfl)

end

/-- Two clocks with the same pending partition and the same carried bars. -/
structure SpreadState.SameCarry (x y : SpreadState) : Prop where
  key : x.pendingKey = y.pendingKey
  high : x.carryHigh = y.carryHigh
  low : x.carryLow = y.carryLow
  ns : x.carryNs = y.carryNs

theorem advanceSpreadClock_keeps (cfg : ReplayConfig) (key : Option (ℕ × ℕ)) (spread : SpreadState) :
    (advanceSpreadClock cfg key spread).carryHigh = spread.carryHigh ∧
      (advanceSpreadClock cfg key spread).carryLow = spread.carryLow ∧
      (advanceSpreadClock cfg key spread).carryNs = spread.carryNs := by
  unfold advanceSpreadClock finalizeSpreadPartition
  split
  · split <;> exact ⟨rfl, rfl, rfl⟩
  · exact ⟨rfl, rfl, rfl⟩

variable {cfg cfg' : ReplayConfig} {x y : SpreadState}

section

variable (hspec : cfg.spec = cfg'.spec)

include hspec

theorem advanceSpreadClock_sameCarry (h : x.SameCarry y) (key : Option (ℕ × ℕ)) :
    (advanceSpreadClock cfg key x).SameCarry (advanceSpreadClock cfg' key y) := by
  obtain ⟨hhigh, hlow, hns⟩ := advanceSpreadClock_keeps cfg key x
  obtain ⟨hhigh', hlow', hns'⟩ := advanceSpreadClock_keeps cfg' key y
  refine ⟨?_, (hhigh.trans h.high).trans hhigh'.symm, (hlow.trans h.low).trans hlow'.symm,
    (hns.trans h.ns).trans hns'.symm⟩
  unfold advanceSpreadClock finalizeSpreadPartition
  rw [hspec, h.key]
  split
  · split <;> rfl
  · exact h.key

theorem consumeSpread_sameCarry (h : x.SameCarry y) (w : Window) :
    (consumeSpread cfg x w).SameCarry (consumeSpread cfg' y w) := by
  have hxy := advanceSpreadClock_sameCarry hspec h w.logicalPartition
  unfold consumeSpread observeSpreadPartition
  rw [hspec]
  split
  · exact hxy
  · split
    · exact ⟨hxy.key, hxy.high, hxy.low, hxy.ns⟩
    · refine ⟨rfl, funext fun s => ?_, funext fun s => ?_, funext fun s => ?_⟩
      · exact ite_congr rfl (fun _ => rfl) fun _ => congrFun hxy.high s
      · exact ite_congr rfl (fun _ => rfl) fun _ => congrFun hxy.low s
      · exact ite_congr rfl (fun _ => rfl) fun _ => congrFun hxy.ns s

theorem spreadRun_sameCarry (ws : List Window) (h : x.SameCarry y) :
    (ws.foldl (consumeSpread cfg) x).SameCarry (ws.foldl (consumeSpread cfg') y) := by
  induction ws generalizing x y with
  | nil => exact h
  | cons w ws ih => exact ih (consumeSpread_sameCarry hspec h w)

end

/-! ## §3 A partition in pieces -/

/-- A logical partition: its key, its bar clock and the highs and lows of its bars. -/
structure LogicalPartition where
  key : ℕ × ℕ
  start : ℤ
  step : ℤ
  high : ℤ → String → Option ℚ
  low : ℤ → String → Option ℚ
  step_pos : 0 < step

namespace LogicalPartition

variable (P : LogicalPartition)

def barAt (i : ℕ) : ℤ := P.start + i * P.step

def validAt (s : String) (i : ℕ) : Option (ℚ × ℚ) := validBar (P.high (P.barAt i) s) (P.low (P.barAt i) s)

/-- A window with the bars of the partition from one position on; it may leave columns out. -/
structure IsPiece (w : Window) (first length : ℕ) : Prop where
  key : w.logicalPartition = some P.key
  grid : w.grid = (range' first length).map P.barAt
  two : 2 ≤ length
  values : ∀ s ∈ w.symbols, ∀ b ∈ w.grid, w.high b s = P.high b s ∧ w.low b s = P.low b s

/-- Windows that cut the bars from `lo` to `hi`, each after the one before or overlapping it by one
bar. -/
inductive Cut : ℕ → List Window → ℕ → Prop
  | done (n : ℕ) : Cut n [] n
  | piece {lo hi first length : ℕ} {w : Window} {rest : List Window} (start : first = lo ∨ first + 1 = lo)
      (isPiece : P.IsPiece w first length) (cut : Cut (first + length) rest hi) : Cut lo (w :: rest) hi

def shows (ws : List Window) (s : String) (b : ℤ) : Bool := ws.any fun w => decide (s ∈ w.symbols ∧ b ∈ w.grid)

/-- The column at the bars of the whole range, masked where no piece shows it. -/
def wholeBars (ws : List Window) (s : String) (n : ℕ) : List (Option (ℚ × ℚ)) :=
  (List.range n).map fun i => if shows ws s (P.barAt i) then P.validAt s i else none

end LogicalPartition

def repeatedBars (s : String) : List Window → List Window → ℕ
  | _, [] => 0
  | seen, w :: rest =>
    (if s ∈ w.symbols ∧ LogicalPartition.shows seen s w.first = true ∧
        (validBar (w.high w.first s) (w.low w.first s)).isSome then 1 else 0) + repeatedBars s (seen ++ [w]) rest

/-- The pair of a bar carried in from before the partition with the first bar of the column. -/
def foreignPair (carried : SpreadState) (s : String) (ws : List Window) : Option ((ℚ × ℚ) × (ℚ × ℚ)) :=
  (ws.find? fun w => decide (s ∈ w.symbols)).bind fun w =>
    pairOf (adjacentCarry w s carried) (validBar (w.high w.first s) (w.low w.first s))

/-! ## §4 The bars of a piece -/

namespace LogicalPartition

variable {P : LogicalPartition} {s : String} {w : Window} {first length : ℕ}

theorem barAt_injective : Function.Injective P.barAt := by
  intro i j h
  have hmul : (i : ℤ) * P.step = j * P.step := by
    unfold barAt at h; omega
  exact Int.ofNat_inj.mp (mul_right_cancel₀ P.step_pos.ne' hmul)

theorem barAt_succ (i : ℕ) : P.barAt i + P.step = P.barAt (i + 1) := by
  unfold barAt
  push_cast; ring

namespace IsPiece

variable (h : P.IsPiece w first length)

include h

theorem barAt_mem_grid {i : ℕ} : P.barAt i ∈ w.grid ↔ first ≤ i ∧ i < first + length := by
  rw [h.grid, mem_map]
  constructor
  · rintro ⟨j, hj, heq⟩
    rw [← barAt_injective heq]; exact mem_range'_1.mp hj
  · exact fun hi => ⟨i, mem_range'_1.mpr hi, rfl⟩

theorem first_eq : w.first = P.barAt first := by
  have htwo := h.two
  obtain ⟨n, rfl⟩ : ∃ n, length = n + 1 := ⟨length - 1, by omega⟩
  rw [Window.first, h.grid, range'_succ, map_cons, headD_cons]

theorem barNs_eq : w.barNs = P.step := by
  have htwo := h.two
  obtain ⟨n, rfl⟩ : ∃ n, length = n + 2 := ⟨length - 2, by omega⟩
  rw [Window.barNs, h.grid, range'_succ, range'_succ, map_cons, map_cons, tail_cons,
    headD_cons, headD_cons, ← barAt_succ]
  omega

theorem last_eq : w.last = P.barAt (first + length - 1) := by
  have htwo := h.two
  obtain ⟨n, rfl⟩ : ∃ n, length = n + 1 := ⟨length - 1, by omega⟩
  rw [Window.last, h.grid, range'_concat, map_append, map_cons, map_nil, getLastD_concat]
  congr 1; omega

theorem validBar_eq (hs : s ∈ w.symbols) {i : ℕ} (hi : first ≤ i ∧ i < first + length) :
    validBar (w.high (P.barAt i) s) (w.low (P.barAt i) s) = P.validAt s i := by
  obtain ⟨hhigh, hlow⟩ := h.values s hs _ (h.barAt_mem_grid.mpr hi)
  rw [hhigh, hlow, validAt]

theorem spreadBars_eq (hs : s ∈ w.symbols) : spreadBars w s = (range' first length).map (P.validAt s) := by
  rw [spreadBars, h.grid, map_map]
  refine map_congr_left fun i hi => ?_
  exact h.validBar_eq hs (mem_range'_1.mp hi)

end IsPiece

theorem shows_append {seen : List Window} {b : ℤ} :
    shows (seen ++ [w]) s b = true ↔ shows seen s b = true ∨ s ∈ w.symbols ∧ b ∈ w.grid := by
  rw [shows, shows]; simp

end LogicalPartition

theorem repeatedBars_concat (s : String) (w : Window) : ∀ ws seen : List Window,
    repeatedBars s seen (ws ++ [w]) = repeatedBars s seen ws +
      (if s ∈ w.symbols ∧ LogicalPartition.shows (seen ++ ws) s w.first = true ∧
          (validBar (w.high w.first s) (w.low w.first s)).isSome then 1 else 0)
  | [], seen => by
    show (ite _ 1 0) + 0 = 0 + _
    rw [append_nil, add_zero, zero_add]
  | x :: ws, seen => by
    show (ite _ 1 0) + repeatedBars s (seen ++ [x]) (ws ++ [w]) = (ite _ 1 0) + repeatedBars s (seen ++ [x]) ws + _
    rw [repeatedBars_concat s w ws, append_assoc, add_assoc]; rfl

/-! ## §5 The clock tracks the whole range -/

section Tracks

variable {cfg : ReplayConfig} {P : LogicalPartition} {s : String} {carried : SpreadState}

/-- What the clock carries of a column: its last bar, or what was carried in. -/
inductive Carries (P : LogicalPartition) (s : String) (carried : SpreadState) (seen : List Window)
    (spread : SpreadState) : Prop
  | last (c : ℕ) (shown : LogicalPartition.shows seen s (P.barAt c) = true)
      (max : ∀ i, LogicalPartition.shows seen s (P.barAt i) = true → i ≤ c) (ns : spread.carryNs s = P.barAt c)
      (high : spread.carryHigh s = P.high (P.barAt c) s) (low : spread.carryLow s = P.low (P.barAt c) s)
  | foreign (unseen : ∀ w ∈ seen, s ∉ w.symbols) (ns : spread.carryNs s = carried.carryNs s)
      (high : spread.carryHigh s = carried.carryHigh s) (low : spread.carryLow s = carried.carryLow s)

/-- The clock has the pairs of the bars so far, after the one formed with a bar carried in, and
counts the bars with the repeated ones. -/
structure Tracks (cfg : ReplayConfig) (P : LogicalPartition) (s : String) (carried : SpreadState)
    (seen : List Window) (lo : ℕ) (spread : SpreadState) : Prop where
  pending : spread.pendingKey = none ∨ spread.pendingKey = some P.key
  sums : spread.pairSums s = (((foreignPair carried s seen).toList ++ adjacentPairs (P.wholeBars seen s lo)).map
    fun p => cfg.pairSpread p.1 p.2).sum
  counts : spread.pairCounts s =
    ((foreignPair carried s seen).toList ++ adjacentPairs (P.wholeBars seen s lo)).length
  bars : spread.barCounts s = ((P.wholeBars seen s lo).filter Option.isSome).length + repeatedBars s [] seen
  within : ∀ i, LogicalPartition.shows seen s (P.barAt i) = true → i < lo
  carry : Carries P s carried seen spread

variable {seen : List Window} {lo first length : ℕ} {spread : SpreadState} {w : Window}

section

variable (h : ∀ w ∈ seen, s ∉ w.symbols)

include h

theorem shows_eq_false_of_unseen {b : ℤ} : LogicalPartition.shows seen s b = false :=
  any_eq_false.mpr fun w hw => by simp [h w hw]

theorem wholeBars_of_unseen (n : ℕ) : P.wholeBars seen s n = replicate n none := by
  rw [LogicalPartition.wholeBars]
  refine eq_replicate_iff.mpr ⟨by rw [length_map, length_range], fun x hx => ?_⟩
  obtain ⟨i, -, rfl⟩ := mem_map.mp hx
  rw [shows_eq_false_of_unseen h]; rfl

theorem adjacentPairs_wholeBars_of_unseen (n : ℕ) :
    adjacentPairs (P.wholeBars seen s n) = [] := by
  rw [wholeBars_of_unseen h]; exact adjacentPairs_append_replicate_none [] n

end

theorem wholeBars_succ (seen : List Window) (s : String) (n : ℕ) : P.wholeBars seen s (n + 1) =
    P.wholeBars seen s n ++ [if LogicalPartition.shows seen s (P.barAt n) then P.validAt s n else none] := by
  rw [LogicalPartition.wholeBars, range_succ, map_append]; rfl

theorem wholeBars_piece (hw : P.IsPiece w first length) (hs : s ∈ w.symbols) :
    P.wholeBars (seen ++ [w]) s (first + length) = P.wholeBars seen s first ++ spreadBars w s := by
  rw [hw.spreadBars_eq hs, LogicalPartition.wholeBars, range_eq_range', ← range'_append_1 (s := 0),
    map_append, Nat.zero_add, LogicalPartition.wholeBars, range_eq_range']
  congr 1
  · refine map_congr_left fun i hi => ?_
    have hlt := (mem_range'_1.mp hi).2
    have hshows : LogicalPartition.shows (seen ++ [w]) s (P.barAt i) =
      LogicalPartition.shows seen s (P.barAt i) := by
      rw [Bool.eq_iff_iff, LogicalPartition.shows_append, hw.barAt_mem_grid]
      exact or_iff_left fun h => by omega
    rw [hshows]
  · refine map_congr_left fun i hi => ?_
    rw [if_pos (LogicalPartition.shows_append.mpr (.inr ⟨hs, hw.barAt_mem_grid.mpr (mem_range'_1.mp hi)⟩))]

theorem wholeBars_absent (hw : P.IsPiece w first length) (hs : s ∉ w.symbols) (hstart : first = lo ∨ first + 1 = lo)
    (hwithin : ∀ i, LogicalPartition.shows seen s (P.barAt i) = true → i < lo) :
    P.wholeBars (seen ++ [w]) s (first + length) =
      P.wholeBars seen s lo ++ replicate (first + length - lo) none := by
  have htwo := hw.two
  have hshows : ∀ b, LogicalPartition.shows (seen ++ [w]) s b = LogicalPartition.shows seen s b := by
    intro b
    rw [Bool.eq_iff_iff, LogicalPartition.shows_append]; exact or_iff_left fun h => hs h.1
  have hsplit : List.range (first + length) = List.range lo ++ range' lo (first + length - lo) := by
    rw [range_eq_range', range_eq_range', show first + length = lo + (first + length - lo) by omega,
      ← range'_append_1 (s := 0), Nat.zero_add]
    congr 2; omega
  rw [LogicalPartition.wholeBars, hsplit, map_append]
  congr 1
  · exact map_congr_left fun i _ => by rw [hshows]
  · refine eq_replicate_iff.mpr ⟨by rw [length_map, length_range'], fun x hx => ?_⟩
    obtain ⟨i, hi, rfl⟩ := mem_map.mp hx
    rw [hshows, if_neg]
    intro hshown
    have := hwithin i hshown
    have := (mem_range'_1.mp hi).1; omega

/-! ### The carried-in pair -/

theorem foreignPair_of_unseen (h : ∀ w ∈ seen, s ∉ w.symbols) : foreignPair carried s seen = none := by
  have hnone : (seen.find? fun w => decide (s ∈ w.symbols)) = none := find?_eq_none.mpr fun w hw => by simp [h w hw]
  rw [foreignPair, hnone]; rfl

theorem foreignPair_append_seen {x : Window} (hx : x ∈ seen) (hs : s ∈ x.symbols) :
    foreignPair carried s (seen ++ [w]) = foreignPair carried s seen := by
  have hsome : (seen.find? fun w => decide (s ∈ w.symbols)).isSome = true :=
    find?_isSome.mpr ⟨x, hx, decide_eq_true hs⟩
  rw [foreignPair, find?_append, Option.or_of_isSome hsome, foreignPair]

theorem foreignPair_append_absent (hs : s ∉ w.symbols) :
    foreignPair carried s (seen ++ [w]) = foreignPair carried s seen := by
  rw [foreignPair, find?_append, find?_singleton, if_neg (by simpa using hs), Option.or_none, foreignPair]

theorem foreignPair_append_first (h : ∀ x ∈ seen, s ∉ x.symbols) (hs : s ∈ w.symbols) :
    foreignPair carried s (seen ++ [w]) =
      pairOf (adjacentCarry w s carried) (validBar (w.high w.first s) (w.low w.first s)) := by
  have hnone : (seen.find? fun w => decide (s ∈ w.symbols)) = none := find?_eq_none.mpr fun x hx => by simp [h x hx]
  rw [foreignPair, find?_append, hnone, find?_singleton, if_pos (decide_eq_true hs)]; rfl

theorem wholeBars_getLast (seen : List Window) (s : String) (first : ℕ) :
    (P.wholeBars seen s first).getLast?.join =
      if 0 < first ∧ LogicalPartition.shows seen s (P.barAt (first - 1)) = true then P.validAt s (first - 1)
      else none := by
  cases first with
  | zero => rfl
  | succ n =>
    rw [wholeBars_succ, getLast?_concat]
    by_cases hshown : LogicalPartition.shows seen s (P.barAt n) = true
    · rw [if_pos hshown, if_pos ⟨Nat.succ_pos n, hshown⟩]; rfl
    · rw [if_neg hshown, if_neg fun h => hshown h.2]
      rfl

theorem adjacentPairs_wholeBars_of_new (hstart : first = lo ∨ first + 1 = lo)
    (hnew : ¬ LogicalPartition.shows seen s (P.barAt first) = true) :
    adjacentPairs (P.wholeBars seen s lo) = adjacentPairs (P.wholeBars seen s first) := by
  rcases hstart with rfl | rfl
  · rfl
  · rw [wholeBars_succ, if_neg hnew, adjacentPairs_concat, pairOf_none_right, Option.toList_none, append_nil]

theorem pairs_step (h : Tracks cfg P s carried seen lo spread) (hw : P.IsPiece w first length)
    (hs : s ∈ w.symbols) (hstart : first = lo ∨ first + 1 = lo) :
    (foreignPair carried s (seen ++ [w])).toList ++
        adjacentPairs (P.wholeBars (seen ++ [w]) s (first + length)) =
      ((foreignPair carried s seen).toList ++ adjacentPairs (P.wholeBars seen s lo)) ++
        adjacentPairs (adjacentCarry w s spread :: spreadBars w s) := by
  have htwo := hw.two
  obtain ⟨n, rfl⟩ : ∃ n, length = n + 1 := ⟨length - 1, by omega⟩
  have hfirst : validBar (w.high w.first s) (w.low w.first s) = P.validAt s first := by
    rw [hw.first_eq]; exact hw.validBar_eq hs (by omega)
  have hrows : spreadBars w s = P.validAt s first :: (range' (first + 1) n).map (P.validAt s) := by
    rw [hw.spreadBars_eq hs, range'_succ, map_cons]
  rw [wholeBars_piece hw hs, hrows, adjacentPairs_append_cons, adjacentPairs_concat, adjacentPairs_cons_cons,
    wholeBars_getLast, ← append_assoc, ← append_assoc, ← append_assoc]
  congr 1
  cases h.carry with
  | foreign hunseen hns hhigh hlow =>
    -- the first piece with the column: what was carried in may pair with its first bar
    have hadjacent : adjacentCarry w s spread = adjacentCarry w s carried := by
      rw [adjacentCarry, hns, hhigh, hlow, adjacentCarry]
    rw [foreignPair_append_first hunseen hs, foreignPair_of_unseen hunseen, hfirst, hadjacent,
      adjacentPairs_wholeBars_of_unseen hunseen, adjacentPairs_wholeBars_of_unseen hunseen,
      shows_eq_false_of_unseen hunseen]
    simp
  | last c hshown hmax hns hhigh hlow =>
    obtain ⟨x, hx, hsx⟩ : ∃ x ∈ seen, s ∈ x.symbols := by
      obtain ⟨x, hx, hmem⟩ := any_eq_true.mp hshown; exact ⟨x, hx, (of_decide_eq_true hmem).1⟩
    have hlt := h.within c hshown
    rw [foreignPair_append_seen hx hsx, append_assoc, append_assoc]
    have hadjacent : adjacentCarry w s spread = if c + 1 = first then P.validAt s c else none := by
      rw [adjacentCarry, hns, hhigh, hlow, hw.barNs_eq, hw.first_eq, LogicalPartition.barAt_succ]
      exact ite_congr (propext LogicalPartition.barAt_injective.eq_iff) (fun _ => rfl) fun _ => rfl
    rw [hadjacent]
    by_cases hagain : LogicalPartition.shows seen s (P.barAt first) = true
    · -- the overlap: the pair at the boundary is there already
      have hle := hmax first hagain
      obtain rfl : first + 1 = lo := by omega
      rw [if_neg (show ¬ c + 1 = first by omega), pairOf_none_left, Option.toList_none, append_nil,
        wholeBars_succ, if_pos hagain, adjacentPairs_concat, wholeBars_getLast]
    · rw [adjacentPairs_wholeBars_of_new hstart hagain]
      have hne : c ≠ first := fun heq => hagain (heq ▸ hshown)
      by_cases hc : c + 1 = first
      · rw [if_pos hc, if_pos ⟨by omega, by rwa [show first - 1 = c by omega]⟩, show first - 1 = c by omega]
      · rw [if_neg hc, if_neg]
        rintro ⟨hpos, hprior⟩
        have := hmax _ hprior; omega

theorem count_step (hw : P.IsPiece w first length) (hs : s ∈ w.symbols) (hstart : first = lo ∨ first + 1 = lo)
    (hwithin : ∀ i, LogicalPartition.shows seen s (P.barAt i) = true → i < lo) :
    ((P.wholeBars seen s lo).filter Option.isSome).length =
      ((P.wholeBars seen s first).filter Option.isSome).length +
        (if s ∈ w.symbols ∧ LogicalPartition.shows ([] ++ seen) s w.first = true ∧
          (validBar (w.high w.first s) (w.low w.first s)).isSome then 1 else 0) := by
  have htwo := hw.two
  rw [hw.first_eq, hw.validBar_eq hs (by omega)]
  rcases hstart with rfl | rfl
  · rw [if_neg fun h => absurd (hwithin _ h.2.1) (lt_irrefl _), Nat.add_zero]
  · rw [wholeBars_succ]
    by_cases hshown : LogicalPartition.shows seen s (P.barAt first) = true
    · cases hbar : P.validAt s first with
      | none => simp [hshown]
      | some x => simp [hshown, hs]
    · simp [hshown]

theorem advanceSpreadClock_of_pending {key : ℕ × ℕ} (h : spread.pendingKey = none ∨ spread.pendingKey = some key) :
    advanceSpreadClock cfg (some key) spread = spread := by
  refine if_neg fun hne => ?_
  rcases h with h | h
  · rw [h] at hne; exact absurd hne.2.2.1 (by simp)
  · exact hne.2.2.2 h

section

variable (hmodel : cfg.spec.corwinSchultz = true)

include hmodel

theorem consumeSpread_piece (hw : P.IsPiece w first length)
    (hpending : spread.pendingKey = none ∨ spread.pendingKey = some P.key) :
    consumeSpread cfg spread w =
      { spread with
        pendingKey := some P.key
        pairSums := fun s => if s ∈ w.symbols then
          spread.pairSums s + (pairEstimates cfg (adjacentCarry w s spread :: spreadBars w s)).sum
          else spread.pairSums s
        pairCounts := fun s => if s ∈ w.symbols then
          spread.pairCounts s + (pairEstimates cfg (adjacentCarry w s spread :: spreadBars w s)).length
          else spread.pairCounts s
        barCounts := fun s =>
          if s ∈ w.symbols then spread.barCounts s + ((spreadBars w s).filter Option.isSome).length
          else spread.barCounts s
        carryHigh := fun s => if s ∈ w.symbols then w.high w.last s else spread.carryHigh s
        carryLow := fun s => if s ∈ w.symbols then w.low w.last s else spread.carryLow s
        carryNs := fun s => if s ∈ w.symbols then w.last else spread.carryNs s } := by
  rw [consumeSpread, hw.key, advanceSpreadClock_of_pending hpending]
  unfold observeSpreadPartition
  rw [if_neg (by simp [hmodel]), hw.key]

/-- **One piece**: the clock goes on tracking the whole range. -/
theorem Tracks.step (h : Tracks cfg P s carried seen lo spread)
    (hw : P.IsPiece w first length) (hstart : first = lo ∨ first + 1 = lo) :
    Tracks cfg P s carried (seen ++ [w]) (first + length) (consumeSpread cfg spread w) := by
  have htwo := hw.two
  have hwithin : ∀ i, LogicalPartition.shows (seen ++ [w]) s (P.barAt i) = true → i < first + length := by
    intro i hi
    rcases LogicalPartition.shows_append.mp hi with hi | ⟨-, hi⟩
    · have := h.within i hi; omega
    · exact (hw.barAt_mem_grid.mp hi).2
  rw [consumeSpread_piece hmodel hw h.pending]
  by_cases hs : s ∈ w.symbols
  · have hpairs := pairs_step h hw hs hstart
    refine ⟨.inr rfl, ?_, ?_, ?_, hwithin, ?_⟩
    · simp only [if_pos hs]
      rw [hpairs, map_append, sum_append, h.sums, pairEstimates_eq]
    · simp only [if_pos hs]
      rw [hpairs, length_append, h.counts, pairEstimates_eq, length_map]
    · simp only [if_pos hs]
      rw [wholeBars_piece hw hs, filter_append, length_append, h.bars, repeatedBars_concat,
        count_step hw hs hstart h.within]
      omega
    · -- its last bar is carried on
      have hlast : P.barAt (first + length - 1) ∈ w.grid := hw.barAt_mem_grid.mpr (by omega)
      obtain ⟨hhigh, hlow⟩ := hw.values s hs _ hlast
      refine .last (first + length - 1) (LogicalPartition.shows_append.mpr (.inr ⟨hs, hlast⟩))
        (fun i hi => ?_) ?_ ?_ ?_
      · have := hwithin i hi; omega
      · simp only [if_pos hs, hw.last_eq]
      · simp only [if_pos hs, hw.last_eq, hhigh]
      · simp only [if_pos hs, hw.last_eq, hlow]
  · have hrepeated : repeatedBars s [] (seen ++ [w]) = repeatedBars s [] seen := by
      rw [repeatedBars_concat, if_neg fun h => hs h.1, Nat.add_zero]
    have hshows : ∀ b, LogicalPartition.shows (seen ++ [w]) s b = LogicalPartition.shows seen s b := by
      intro b
      rw [Bool.eq_iff_iff, LogicalPartition.shows_append]; exact or_iff_left fun h => hs h.1
    have hwhole := wholeBars_absent hw hs hstart h.within
    refine ⟨.inr rfl, ?_, ?_, ?_, hwithin, ?_⟩
    · simp only [if_neg hs]
      rw [foreignPair_append_absent hs, hwhole, adjacentPairs_append_replicate_none, h.sums]
    · simp only [if_neg hs]
      rw [foreignPair_append_absent hs, hwhole, adjacentPairs_append_replicate_none, h.counts]
    · simp only [if_neg hs]
      rw [hwhole, hrepeated, h.bars]; simp
    · cases h.carry with
      | last c hshown hmax hns hhigh hlow =>
        refine .last c (by rwa [hshows]) (fun i hi => hmax i (by rwa [hshows] at hi)) ?_ ?_ ?_
        · simp only [if_neg hs, hns]
        · simp only [if_neg hs, hhigh]
        · simp only [if_neg hs, hlow]
      | foreign hunseen hns hhigh hlow =>
        refine .foreign (fun x hx => ?_) ?_ ?_ ?_
        · rcases mem_append.mp hx with hx | hx
          · exact hunseen x hx
          · rwa [mem_singleton.mp hx]
        · simp only [if_neg hs, hns]
        · simp only [if_neg hs, hhigh]
        · simp only [if_neg hs, hlow]

/-- **A run of pieces**: the clock tracks the whole range at its end. -/
theorem Tracks.run {lo hi : ℕ} {ws : List Window} (hcut : P.Cut lo ws hi) :
    ∀ {seen : List Window} {spread : SpreadState}, Tracks cfg P s carried seen lo spread →
      Tracks cfg P s carried (seen ++ ws) hi (ws.foldl (consumeSpread cfg) spread) := by
  induction hcut with
  | done n =>
    intro seen spread h
    rw [append_nil]; exact h
  | @piece lo hi first length w rest hstart hw hcut ih =>
    intro seen spread h
    rw [append_cons]; exact ih (h.step hmodel hw hstart)

end

end Tracks

/-! ## §6 When the estimate is that of the whole range -/

section Estimates

variable {β : Type}

theorem combineHalfSpreadBps_some {sum : ℚ} {pairs bars : ℕ} (hpairs : 0 < pairs) (hbars : 3 ≤ bars) :
    combineHalfSpreadBps sum pairs bars = some (max 0 (min 100 (sum / pairs / 2 * 10000))) := if_pos ⟨hpairs, hbars⟩

theorem combineHalfSpreadBps_few {sum : ℚ} {pairs bars : ℕ} (hbars : bars < 3) :
    combineHalfSpreadBps sum pairs bars = none := if_neg fun h => by omega

variable {pairs : List β}

theorem sum_div_of_all_eq {p : β} (hne : pairs ≠ []) (h : ∀ q ∈ pairs, q = p) (est : β → ℚ) :
    (pairs.map est).sum / pairs.length = est p := by
  have hlen : (pairs.length : ℚ) ≠ 0 := Nat.cast_ne_zero.mpr (length_pos_iff.mpr hne).ne'
  have hconst : pairs.map est = replicate pairs.length (est p) := by
    rw [← map_const']; exact map_congr_left fun q hq => by rw [h q hq]
  rw [hconst, sum_replicate, nsmul_eq_mul]
  field_simp

variable [DecidableEq β]

theorem mean_moves {p q : β} (hq : q ∈ pairs) (hne : q ≠ p) {c : ℚ} (hc : 0 < c) :
    (c + (pairs.map fun x => if x = p then c else 0).sum) / (pairs.length + 1 : ℕ) ≠
      (pairs.map fun x => if x = p then c else 0).sum / pairs.length := by
  have hlen : (0 : ℚ) < pairs.length := Nat.cast_pos.mpr (length_pos_of_mem hq)
  have hlt : (pairs.map fun x => if x = p then c else 0).sum < (pairs.map fun _ => c).sum := by
    refine sum_lt_sum _ _ (fun x _ => ?_) ⟨q, hq, ?_⟩
    · split
      · exact le_rfl
      · exact hc.le
    · rw [if_neg hne]; exact hc
  rw [map_const', sum_replicate, nsmul_eq_mul] at hlt
  intro heq
  push_cast at heq
  rw [div_eq_div_iff (by positivity) hlen.ne'] at heq; nlinarith

theorem mean_bounds {p : β} (hne : pairs ≠ []) {c : ℚ} (hc : 0 < c) :
    0 ≤ (pairs.map fun x => if x = p then c else 0).sum / pairs.length ∧
      (pairs.map fun x => if x = p then c else 0).sum / pairs.length ≤ c := by
  have hlen : (0 : ℚ) < pairs.length := Nat.cast_pos.mpr (length_pos_iff.mpr hne)
  have hle : (pairs.map fun x => if x = p then c else 0).sum ≤ (pairs.map fun _ => c).sum := by
    refine sum_le_sum fun x _ => ?_
    split
    · exact le_rfl
    · exact hc.le
  rw [map_const', sum_replicate, nsmul_eq_mul] at hle
  constructor
  · refine div_nonneg (sum_nonneg fun x hx => ?_) hlen.le
    obtain ⟨y, -, rfl⟩ := mem_map.mp hx
    split
    · exact hc.le
    · exact le_rfl
  · rw [div_le_iff₀ hlen]; linarith

theorem clip_small {mean : ℚ} (h : 0 ≤ mean) (h' : mean ≤ 1 / 1000) :
    max 0 (min 100 (mean / 2 * 10000)) = mean / 2 * 10000 := by
  rw [min_eq_right (by linarith), max_eq_right (by linarith)]

end Estimates

section Whole

variable {cfg : ReplayConfig} {P : LogicalPartition} {s : String} {ws : List Window} {n : ℕ}

def estimateOf (estimator : ℚ × ℚ → ℚ × ℚ → ℚ) (pairs : List ((ℚ × ℚ) × (ℚ × ℚ))) (bars : ℕ) : Option ℚ :=
  combineHalfSpreadBps (pairs.map fun p => max (estimator p.1 p.2) 0).sum pairs.length bars

/-- When pieces estimate a column like its whole range. -/
def SplitSafe (carried : SpreadState) (P : LogicalPartition) (s : String) (ws : List Window) (n : ℕ) : Prop :=
  let pairs := adjacentPairs (P.wholeBars ws s n)
  let bars := ((P.wholeBars ws s n).filter Option.isSome).length
  match foreignPair carried s ws with
  | none => pairs = [] ∨ 3 ≤ bars ∨ bars + repeatedBars s [] ws < 3
  | some p => bars + repeatedBars s [] ws < 3 ∨ 3 ≤ bars ∧ pairs ≠ [] ∧ ∀ q ∈ pairs, q = p

theorem estimates_agree_iff (foreign : Option ((ℚ × ℚ) × (ℚ × ℚ))) (pairs : List ((ℚ × ℚ) × (ℚ × ℚ)))
    (bars repeated : ℕ) :
    (∀ estimator, estimateOf estimator (foreign.toList ++ pairs) (bars + repeated) =
      estimateOf estimator pairs bars) ↔
      match foreign with
      | none => pairs = [] ∨ 3 ≤ bars ∨ bars + repeated < 3
      | some p => bars + repeated < 3 ∨ 3 ≤ bars ∧ pairs ≠ [] ∧ ∀ q ∈ pairs, q = p := by
  cases foreign with
  | none =>
    simp only [Option.toList_none, nil_append]
    constructor
    · intro h
      by_contra hnot
      push Not at hnot
      obtain ⟨hne, hfew, hmany⟩ := hnot
      have hzero := h fun _ _ => 0
      rw [estimateOf, estimateOf, combineHalfSpreadBps_some (length_pos_iff.mpr hne) hmany,
        combineHalfSpreadBps_few hfew] at hzero
      cases hzero
    · rintro (rfl | hmany | hfew) estimator
      · rfl
      · exact if_congr (and_congr_right fun _ => iff_of_true (by omega) hmany) rfl rfl
      · rw [estimateOf, estimateOf, combineHalfSpreadBps_few hfew, combineHalfSpreadBps_few (by omega)]
  | some p =>
    simp only [Option.toList_some, singleton_append]
    constructor
    · intro h
      by_contra hnot
      push Not at hnot
      obtain ⟨hmany, hdiffers⟩ := hnot
      have hzero := h fun _ _ => 0
      rw [estimateOf, combineHalfSpreadBps_some (show 0 < (p :: pairs).length from Nat.succ_pos _) hmany,
        estimateOf] at hzero
      have hwhole : 0 < pairs.length ∧ 3 ≤ bars := by
        by_contra hnot
        rw [combineHalfSpreadBps, if_neg hnot] at hzero; cases hzero
      obtain ⟨q, hq, hne⟩ := hdiffers hwhole.2 (length_pos_iff.mp hwhole.1)
      -- an estimator that only knows the carried-in pair
      have htell := h fun x y => if (x, y) = p then 1 / 1000 else 0
      have hmap : ∀ l : List ((ℚ × ℚ) × (ℚ × ℚ)),
          (l.map fun r => max (if (r.1, r.2) = p then (1 / 1000 : ℚ) else 0) 0) =
            l.map fun r => if r = p then 1 / 1000 else 0 := by
        intro l
        refine map_congr_left fun r _ => ?_
        split <;> norm_num
      have hsmall : (0 : ℚ) < 1 / 1000 := by norm_num
      have hcons := mean_bounds (p := p) (cons_ne_nil p pairs) hsmall
      have hpairs := mean_bounds (p := p) (length_pos_iff.mp hwhole.1) hsmall
      rw [estimateOf, estimateOf, hmap, hmap,
        combineHalfSpreadBps_some (show 0 < (p :: pairs).length from Nat.succ_pos _) hmany,
        combineHalfSpreadBps_some hwhole.1 hwhole.2, clip_small hcons.1 hcons.2, clip_small hpairs.1 hpairs.2,
        Option.some.injEq] at htell
      refine mean_moves hq hne hsmall ?_
      have hmean : ((p :: pairs).map fun x => if x = p then (1 / 1000 : ℚ) else 0).sum / (p :: pairs).length =
          (pairs.map fun x => if x = p then (1 / 1000 : ℚ) else 0).sum / pairs.length := by linarith
      rwa [map_cons, if_pos rfl] at hmean
    · rintro (hfew | ⟨hmany, hne, hall⟩) estimator
      · rw [estimateOf, estimateOf, combineHalfSpreadBps_few hfew, combineHalfSpreadBps_few (by omega)]
      · have hall' : ∀ q ∈ p :: pairs, q = p := fun q hq => (mem_cons.mp hq).elim id (hall q)
        rw [estimateOf, estimateOf,
          combineHalfSpreadBps_some (show 0 < (p :: pairs).length from Nat.succ_pos _) (by omega),
          combineHalfSpreadBps_some (length_pos_iff.mpr hne) hmany,
          sum_div_of_all_eq (by simp) hall',
          sum_div_of_all_eq hne hall]

theorem foreignPair_congr {x y : SpreadState} (h : x.SameCarry y) (s : String) (ws : List Window) :
    foreignPair x s ws = foreignPair y s ws := by
  unfold foreignPair adjacentCarry
  rw [h.high, h.low, h.ns]

theorem tracks_partition (hmodel : cfg.spec.corwinSchultz = true) (hne : ws ≠ []) (hcut : P.Cut 0 ws n)
    {carried : SpreadState} (hsettled : carried.pendingKey = none → carried.Settled)
    (hnew : carried.pendingKey ≠ some P.key) (s : String) :
    Tracks cfg P s carried ws n (ws.foldl (consumeSpread cfg) carried) := by
  have hstart := advanceSpreadClock_settled hmodel hsettled hnew
  obtain ⟨hhigh, hlow, hns⟩ := advanceSpreadClock_keeps cfg (some P.key) carried
  have hpending : (advanceSpreadClock cfg (some P.key) carried).pendingKey = none := by
    unfold advanceSpreadClock
    cases hkey : carried.pendingKey with
    | none => rw [if_neg (by simp), hkey]
    | some key =>
      rw [if_pos ⟨hmodel, rfl, rfl, hkey ▸ hnew⟩, finalizeSpreadPartition, if_pos ⟨hmodel, by rw [hkey]; rfl⟩]
  -- the first piece settles what was pending
  have hfirst : ws.foldl (consumeSpread cfg) carried =
      ws.foldl (consumeSpread cfg) (advanceSpreadClock cfg (some P.key) carried) := by
    cases hcut with
    | done => exact absurd rfl hne
    | @piece _ _ first length w rest _ hw _ =>
      rw [foldl_cons, foldl_cons]
      rw [consumeSpread, consumeSpread, hw.key, advanceSpreadClock_of_pending (.inl hpending)]
  rw [hfirst, ← nil_append ws]
  refine Tracks.run hmodel hcut ⟨.inl hpending, ?_, ?_, ?_, fun i hi => ?_, .foreign ?_ ?_ ?_ ?_⟩
  · exact congrFun hstart.sums s
  · exact congrFun hstart.counts s
  · exact congrFun hstart.bars s
  · exact absurd hi (by simp [LogicalPartition.shows])
  · exact fun w hw => absurd hw not_mem_nil
  · rw [hns]
  · rw [hhigh]
  · rw [hlow]

/-- **The estimate of a partition in pieces** is that of the whole range, for every estimator,
exactly where they are `SplitSafe`. -/
theorem spread_clock_split_invariant_iff (hmodel : cfg.spec.corwinSchultz = true) (earlier : List Window)
    (hnew : (earlier.foldl (consumeSpread cfg) freshSpread).pendingKey ≠ some P.key) (hne : ws ≠ [])
    (hcut : P.Cut 0 ws n) (s : String) :
    (∀ estimator,
      pendingEstimate ((earlier ++ ws).foldl (consumeSpread (cfg.estimating estimator)) freshSpread) s =
        corwinSchultzHalfSpreadBps (cfg.estimating estimator) (P.wholeBars ws s n)) ↔
      SplitSafe (earlier.foldl (consumeSpread cfg) freshSpread) P s ws n := by
  have hfresh : freshSpread.SameCarry freshSpread := ⟨rfl, rfl, rfl, rfl⟩
  refine Iff.trans (forall_congr' fun estimator => ?_) (estimates_agree_iff _ _ _ (repeatedBars s [] ws))
  have hspec : (cfg.estimating estimator).spec = cfg.spec := rfl
  have hcarry : (earlier.foldl (consumeSpread (cfg.estimating estimator)) freshSpread).SameCarry
      (earlier.foldl (consumeSpread cfg) freshSpread) := spreadRun_sameCarry hspec earlier hfresh
  have hnew' : (earlier.foldl (consumeSpread (cfg.estimating estimator)) freshSpread).pendingKey ≠ some P.key := by
    rw [hcarry.key]; exact hnew
  have hmodel' : (cfg.estimating estimator).spec.corwinSchultz = true := hmodel
  have htracks := tracks_partition hmodel' hne hcut (spreadRun_settled hmodel' earlier) hnew' s
  rw [foldl_append, pendingEstimate, htracks.sums, htracks.counts, htracks.bars, foreignPair_congr hcarry,
    corwinSchultzHalfSpreadBps, pairEstimates_eq, length_map]
  rfl

end Whole

/-! ## §7 Two usable bars -/

def twoBarPartition : LogicalPartition where
  key := (0, 1)
  start := 0
  step := 180
  high b _ := if b ≤ 180 then some 101 else none
  low b _ := if b ≤ 180 then some 99 else none
  step_pos := by decide

def twoBarPiece (first : ℕ) : Window where
  columns := ["A"]
  symbols := ["A"]
  grid := [twoBarPartition.barAt first, twoBarPartition.barAt (first + 1)]
  high := twoBarPartition.high
  low := twoBarPartition.low
  close _ _ := some 100
  mark _ _ := some 100
  fundingRate _ _ := 0
  fundingKnown _ _ := true
  quoteVolume _ _ := some 1
  availableAt := none
  venueHalts := []
  decisions := []
  settlementEvents := []
  logicalPartition := some (0, 1)
  grid_sorted := by
    refine pairwise_pair.mpr ?_
    rw [← LogicalPartition.barAt_succ]; exact Int.lt_add_of_pos_right _ twoBarPartition.step_pos
  symbols_nodup := by decide
  symbols_sub := by decide
  columns_nodup := by decide

theorem twoBarPiece_isPiece (first : ℕ) : twoBarPartition.IsPiece (twoBarPiece first) first 2 :=
  ⟨rfl, rfl, le_rfl, fun _ _ _ _ => ⟨rfl, rfl⟩⟩

theorem twoBarPieces_cut : twoBarPartition.Cut 0 [twoBarPiece 0, twoBarPiece 1] 3 :=
  .piece (.inl rfl) (twoBarPiece_isPiece 0) (.piece (.inr rfl) (twoBarPiece_isPiece 1) (.done 3))

def spreadConfig : ReplayConfig :=
  { takerConfig with columns := ["A"], spec := { proxySpec with corwinSchultz := true } }

/-- The bar on which the pieces overlap counts twice: with two usable bars the pieces make an
estimate, the whole range makes none. -/
theorem overlap_makes_estimate :
    pendingEstimate
        ([twoBarPiece 0, twoBarPiece 1].foldl
          (consumeSpread (spreadConfig.estimating fun _ _ => 1 / 100)) freshSpread)
        "A" = some 50 ∧
      corwinSchultzHalfSpreadBps (spreadConfig.estimating fun _ _ => 1 / 100)
        (twoBarPartition.wholeBars [twoBarPiece 0, twoBarPiece 1] "A" 3) = none := by
  constructor <;> decide +kernel

theorem spread_clock_split_invariant_iff_two_bars :
    (∀ estimator,
      pendingEstimate
          (([] ++ [twoBarPiece 0, twoBarPiece 1]).foldl
            (consumeSpread (spreadConfig.estimating estimator)) freshSpread)
          "A" =
        corwinSchultzHalfSpreadBps (spreadConfig.estimating estimator)
          (twoBarPartition.wholeBars [twoBarPiece 0, twoBarPiece 1] "A" 3)) ↔
      SplitSafe freshSpread twoBarPartition "A" [twoBarPiece 0, twoBarPiece 1] 3 :=
  spread_clock_split_invariant_iff rfl [] (fun h => by cases h) (cons_ne_nil _ _) twoBarPieces_cut "A"

end CryptoPilot.Engine
