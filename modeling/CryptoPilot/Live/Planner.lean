/- # Planner — target minus current, decomposed into order intents.

`planOrders` turns the gap between a target and a current position into intents of positive
quantity.  A change of sign is split into a reduce-only close leg and an open leg.  `deriskFilter`
is the filter of a cycle whose account state is unexplained: only strict reductions pass. -/
import Mathlib.Data.List.Sort
import Mathlib.Order.Interval.Set.UnorderedInterval
import Mathlib.Algebra.BigOperators.Group.List.Basic
import Mathlib.Tactic.NormNum
import CryptoPilot.Lib.Dict
import CryptoPilot.Live.Filters

namespace CryptoPilot.Live

open CryptoPilot.Lib List

/-! ## Intents -/

inductive Side where
  | buy
  | sell
  deriving DecidableEq, Repr

def Side.text : Side → String
  | .buy => "BUY"
  | .sell => "SELL"

/-- `OrderIntent`: one child order. -/
@[ext]
structure OrderIntent where
  symbol : String
  side : Side
  quantity : ℚ
  reduceOnly : Bool
  targetQty : ℚ
  currentQty : ℚ
  clientOrderPrefix : String
  legIndex : ℕ
  decisionPrice : ℚ
  quantity_nonneg : 0 ≤ quantity
  decisionPrice_pos : 0 < decisionPrice

instance : DecidableEq OrderIntent := fun _ _ => decidable_of_iff _ OrderIntent.ext_iff.symm

/-- The position change of a fill of `q` of the intent. -/
def OrderIntent.signed (intent : OrderIntent) (q : ℚ) : ℚ :=
  match intent.side with
  | .buy => q
  | .sell => -q

/-! ## `plan_orders` -/

/-- The `(quantity, reduce_only)` components of one symbol: two legs when the sign flips. -/
def planComponents (target currentQty : ℚ) : List (ℚ × Bool) :=
  if currentQty ≠ 0 ∧ target ≠ 0 ∧ decide (0 < target) ≠ decide (0 < currentQty) then
    [(-currentQty, true), (target, false)]
  else
    [(target - currentQty, decide (|target| < |currentQty|))]

def planIntent (symbol runId : String) (target currentQty : ℚ) (mark : {m : ℚ // 0 < m})
    (legIndex : ℕ) (reduceOnly : Bool) (order : QuantizedOrder) : OrderIntent where
  symbol := symbol
  side := if 0 < order.quantity then .buy else .sell
  quantity := |order.quantity|
  reduceOnly := reduceOnly
  targetQty := target
  currentQty := currentQty
  clientOrderPrefix := runId
  legIndex := legIndex
  decisionPrice := mark
  quantity_nonneg := abs_nonneg _
  decisionPrice_pos := mark.2

/-- One leg: quantize the component, drop it when it is under the venue minimum. -/
def planLeg (symbol runId : String) (filters : SymbolFilters) (target currentQty : ℚ)
    (mark : {m : ℚ // 0 < m}) (leg : (ℚ × Bool) × ℕ) : Except Exc (List OrderIntent) := do
  let quantized ← quantizeOrder filters leg.1.1 mark leg.1.2
  pure (quantized.toList.map (planIntent symbol runId target currentQty mark leg.2 leg.1.2))

/-- The intents of one symbol; a symbol without filters or without a positive mark is skipped. -/
def planSymbol (targets current : Dict ℚ) (filters : Dict SymbolFilters) (marks : Dict ℚ)
    (runId symbol : String) : Except Exc (List OrderIntent) :=
  match filters.lookup symbol, marks.lookup symbol with
  | some symbolFilters, some mark =>
    if h : mark ≤ 0 then pure []
    else
      let target := targets.get symbol 0
      let currentQty := current.get symbol 0
      List.flatten <$> ((planComponents target currentQty).zipIdx.mapM
        (planLeg symbol runId symbolFilters target currentQty ⟨mark, not_le.mp h⟩))
  | _, _ => pure []

/-- `plan_orders`: every symbol of the targets or of the current positions, in sorted order. -/
def planOrders (targets current : Dict ℚ) (filters : Dict SymbolFilters) (marks : Dict ℚ)
    (runId : String) : Except Exc (List OrderIntent) :=
  List.flatten <$> ((targets.keys ∪ current.keys).insertionSort (· ≤ ·)).mapM
    (planSymbol targets current filters marks runId)

/-! ## `derisk_filter` -/

/-- Why `derisk_filter` withholds an intent. -/
inductive DeriskBlock where
  | foreignOrderSymbol
  | noPosition
  | flipOpenLeg
  | increase
  | exceedsPosition
  deriving DecidableEq, Repr

structure DeriskPlan where
  kept : List OrderIntent
  blocked : List (OrderIntent × DeriskBlock)

/-- `expected_side`: the side that shrinks a position. -/
def expectedSide (current : ℚ) : Side := if 0 < current then .sell else .buy

/-- The block reason of one intent, `none` when it is kept. -/
def deriskBlock (currentPositions : Dict ℚ) (excludedSymbols : List String)
    (intent : OrderIntent) : Option DeriskBlock :=
  let current := currentPositions.get intent.symbol 0
  if intent.symbol ∈ excludedSymbols then some .foreignOrderSymbol
  else if current = 0 then some .noPosition
  else if intent.legIndex = 1 ∧ intent.reduceOnly = false then some .flipOpenLeg
  else if intent.reduceOnly = false then some .increase
  else if intent.side ≠ expectedSide current then some .increase
  else if |current| < intent.quantity then some .exceedsPosition
  else none

/-- `derisk_filter`: keep only intents that strictly shrink an existing position. -/
def deriskFilter (intents : List OrderIntent) (currentPositions : Dict ℚ)
    (excludedSymbols : List String) : DeriskPlan where
  kept := intents.filter fun i => (deriskBlock currentPositions excludedSymbols i).isNone
  blocked := intents.filterMap fun i =>
    (deriskBlock currentPositions excludedSymbols i).map fun reason => (i, reason)

/-! ## Partial fills of a plan -/

/-- A choice of partial fills: each intent between 0 and its quantity, an open leg only after the
close leg of its symbol. -/
structure FillChoice (intents : List OrderIntent) (fill : OrderIntent → ℚ) : Prop where
  nonneg : ∀ i ∈ intents, 0 ≤ fill i
  le_quantity : ∀ i ∈ intents, fill i ≤ i.quantity
  close_first : ∀ i ∈ intents, ∀ c ∈ intents, c.symbol = i.symbol → c.reduceOnly = true →
    i.reduceOnly = false → c.legIndex < i.legIndex → 0 < fill i → fill c = c.quantity

def intentsOf (intents : List OrderIntent) (symbol : String) : List OrderIntent :=
  intents.filter fun i => i.symbol = symbol

def positionAfter (current : Dict ℚ) (intents : List OrderIntent) (fill : OrderIntent → ℚ) (symbol : String) : ℚ :=
  current.get symbol 0 + ((intentsOf intents symbol).map fun i => i.signed (fill i)).sum

def reduceOnlyQuantity (intents : List OrderIntent) (symbol : String) : ℚ :=
  (((intentsOf intents symbol).filter fun i => i.reduceOnly).map fun i => i.quantity).sum

/-! ### One leg -/

variable {mark : {m : ℚ // 0 < m}} {intents : List OrderIntent} {symbol : String} {currentQty target : ℚ}
  {targets current : Dict ℚ} {filters : Dict SymbolFilters} {marks : Dict ℚ} {runId : String}
  {excludedSymbols : List String}

theorem planIntent_signed_mem {symbol runId : String} {filters : SymbolFilters}
    {target currentQty component f : ℚ} {legIndex : ℕ} {reduceOnly : Bool} {order : QuantizedOrder}
    (h : quantizeOrder filters component mark reduceOnly = .ok (some order)) (hf : 0 ≤ f)
    (hle : f ≤ |order.quantity|) :
    (planIntent symbol runId target currentQty mark legIndex reduceOnly order).signed f
      ∈ Set.uIcc 0 component := by
  obtain ⟨hsize, hpos, hneg⟩ := quantizeOrder_bounds h
  simp only [OrderIntent.signed, planIntent]
  rw [Set.mem_uIcc]
  by_cases hc : 0 ≤ component
  · left
    have hq := hpos hc
    rw [abs_of_nonneg hc] at hsize
    rcases hq.eq_or_lt with hz | hlt
    · -- a zero quantity has nothing to fill
      rw [← hz] at hle
      have hf0 : f = 0 := le_antisymm hle hf; simp [← hz, hf0, hc]
    · simp only [hlt, if_true]; exact ⟨hf, hle.trans hsize⟩
  · right
    have hc' : component < 0 := not_le.mp hc
    have hq := hneg hc'
    rw [abs_of_neg hc'] at hsize
    simp only [not_lt.mpr hq, if_false]
    constructor <;> linarith

/-- What one leg of a plan contributes: at most one intent, of the leg's flags and at most the
component's size. -/
structure LegBound (symbol : String) (component : ℚ) (reduceOnly : Bool) (intents : List OrderIntent) : Prop where
  symbol_eq : ∀ i ∈ intents, i.symbol = symbol
  reduceOnly_eq : ∀ i ∈ intents, i.reduceOnly = reduceOnly
  quantity_sum : (intents.map fun i => i.quantity).sum ≤ |component|
  fill_mem : ∀ fill : OrderIntent → ℚ, (∀ i ∈ intents, 0 ≤ fill i) →
    (∀ i ∈ intents, fill i ≤ i.quantity) →
    (intents.map fun i => i.signed (fill i)).sum ∈ Set.uIcc 0 component

theorem planLeg_bound {symbol runId : String} {filters : SymbolFilters} {target currentQty : ℚ}
    {leg : (ℚ × Bool) × ℕ}
    (h : planLeg symbol runId filters target currentQty mark leg = .ok intents) :
    LegBound symbol leg.1.1 leg.1.2 intents := by
  simp only [planLeg, bind_eq_ok, pure_eq_ok] at h
  obtain ⟨quantized, hq, rfl⟩ := h
  cases quantized with
  | none => constructor <;> simp
  | some order =>
    have hsize := (quantizeOrder_bounds hq).1
    constructor
    · simp [planIntent]
    · simp [planIntent]
    · simpa [planIntent] using hsize
    · intro fill hnonneg hle
      simp only [Option.toList_some, map_cons, map_nil, sum_cons, sum_nil,
        add_zero, mem_singleton, forall_eq] at hnonneg hle ⊢
      exact planIntent_signed_mem hq hnonneg hle

/-! ### One symbol -/

/-- What the intents of one symbol guarantee against its current and target quantities. -/
structure SymbolBound (symbol : String) (currentQty target : ℚ) (intents : List OrderIntent) : Prop where
  symbol_eq : ∀ i ∈ intents, i.symbol = symbol
  reduceOnly_sum :
    ((intents.filter fun i => i.reduceOnly).map fun i => i.quantity).sum ≤ |currentQty|
  fill_mem : ∀ fill : OrderIntent → ℚ, (∀ i ∈ intents, 0 ≤ fill i) →
    (∀ i ∈ intents, fill i ≤ i.quantity) →
    currentQty + (intents.map fun i => i.signed (fill i)).sum ∈ Set.uIcc currentQty target

theorem SymbolBound.nil (symbol : String) (currentQty target : ℚ) : SymbolBound symbol currentQty target [] := by
  constructor <;> simp

theorem LegBound.filter_reduceOnly {component : ℚ}
    (h : LegBound symbol component true intents) : intents.filter (fun i => i.reduceOnly) = intents :=
  filter_eq_self.mpr h.reduceOnly_eq

theorem LegBound.filter_not_reduceOnly {component : ℚ} (h : LegBound symbol component false intents) :
    intents.filter (fun i => i.reduceOnly) = [] :=
  filter_eq_nil_iff.mpr fun i hi => by simp [h.reduceOnly_eq i hi]

theorem LegBound.symbolBound
    (hflip : ¬ (currentQty ≠ 0 ∧ target ≠ 0 ∧ decide (0 < target) ≠ decide (0 < currentQty)))
    (h : LegBound symbol (target - currentQty) (decide (|target| < |currentQty|)) intents) :
    SymbolBound symbol currentQty target intents := by
  refine ⟨h.symbol_eq, ?_, ?_⟩
  · by_cases hred : |target| < |currentQty|
    · rw [decide_eq_true hred] at h
      rw [h.filter_reduceOnly]
      refine h.quantity_sum.trans ?_
      -- a reduction without a flip moves by the difference of the sizes
      have hcur : currentQty ≠ 0 := by
        rintro rfl; exact absurd hred (not_lt.mpr (by simp))
      rcases eq_or_ne target 0 with rfl | htar
      · simp
      · have hsign : decide (0 < target) = decide (0 < currentQty) := by
          by_contra hne; exact hflip ⟨hcur, htar, hne⟩
        rcases lt_or_gt_of_ne hcur with hlt | hgt
        · have htneg : target < 0 := by
            have : ¬ 0 < target := by simpa [not_lt.mpr hlt.le] using hsign
            exact lt_of_le_of_ne (not_lt.mp this) htar
          rw [abs_of_neg htneg, abs_of_neg hlt] at hred
          rw [abs_of_neg hlt, abs_of_pos (by linarith)]; linarith
        · have htpos : 0 < target := by simpa [hgt] using hsign
          rw [abs_of_pos htpos, abs_of_pos hgt] at hred
          rw [abs_of_pos hgt, abs_of_neg (by linarith)]; linarith
    · rw [decide_eq_false hred] at h
      rw [h.filter_not_reduceOnly]; simp
  · intro fill hnonneg hle
    have hmem := h.fill_mem fill hnonneg hle
    rw [Set.mem_uIcc] at hmem ⊢
    rcases hmem with ⟨h0, h1⟩ | ⟨h0, h1⟩
    · left; constructor <;> linarith
    · right; constructor <;> linarith

theorem LegBound.symbolBound_flip
    {close opening : List OrderIntent}
    (hflip : currentQty ≠ 0 ∧ target ≠ 0 ∧ decide (0 < target) ≠ decide (0 < currentQty))
    (hclose : LegBound symbol (-currentQty) true close) (hopen : LegBound symbol target false opening) :
    SymbolBound symbol currentQty target (close ++ opening) := by
  refine ⟨?_, ?_, ?_⟩
  · intro i hi
    rcases mem_append.mp hi with hi | hi
    · exact hclose.symbol_eq i hi
    · exact hopen.symbol_eq i hi
  · rw [filter_append, hclose.filter_reduceOnly, hopen.filter_not_reduceOnly]
    simpa using hclose.quantity_sum
  · intro fill hnonneg hle
    have hx := hclose.fill_mem fill (fun i hi => hnonneg i (mem_append_left _ hi))
      (fun i hi => hle i (mem_append_left _ hi))
    have hy := hopen.fill_mem fill (fun i hi => hnonneg i (mem_append_right _ hi))
      (fun i hi => hle i (mem_append_right _ hi))
    obtain ⟨hcur, htar, hsign⟩ := hflip
    rw [map_append, sum_append]
    rw [Set.mem_uIcc] at hx hy ⊢
    rcases lt_or_gt_of_ne hcur with hlt | hgt
    · have htpos : 0 < target := by
        by_contra hnot; exact hsign (by simp [hnot, not_lt.mpr hlt.le])
      left
      rcases hx with hx | hx <;> rcases hy with hy | hy <;> constructor <;> linarith [hx.1, hx.2, hy.1, hy.2]
    · have htneg : target < 0 := by
        refine lt_of_le_of_ne (not_lt.mp fun hpos => ?_) htar
        exact hsign (by simp [hpos, hgt])
      right
      rcases hx with hx | hx <;> rcases hy with hy | hy <;> constructor <;> linarith [hx.1, hx.2, hy.1, hy.2]

theorem map_eq_ok {α β : Type} {x : Except Exc α} {f : α → β} {b : β}
    (h : f <$> x = .ok b) : ∃ a, x = .ok a ∧ f a = b := by
  cases x with
  | error e => cases h
  | ok a => exact ⟨a, rfl, Except.ok.inj h⟩

theorem planSymbol_bound {runId symbol : String}
    (h : planSymbol targets current filters marks runId symbol = .ok intents) :
    SymbolBound symbol (current.get symbol 0) (targets.get symbol 0) intents := by
  unfold planSymbol at h
  split at h
  · next symbolFilters mark _ _ =>
    split at h
    · obtain rfl := pure_eq_ok.mp h; exact SymbolBound.nil _ _ _
    · obtain ⟨legs, hlegs, rfl⟩ := map_eq_ok h
      unfold planComponents at hlegs
      split at hlegs
      · next hflip =>
        simp only [zipIdx_cons, zipIdx_nil, mapM_cons, mapM_nil, bind_eq_ok, pure_eq_ok] at hlegs
        obtain ⟨close, hclose, _, ⟨opening, hopen, _, rfl, rfl⟩, rfl⟩ := hlegs
        simpa using LegBound.symbolBound_flip hflip (planLeg_bound hclose)
          (planLeg_bound hopen)
      · next hflip =>
        simp only [zipIdx_cons, zipIdx_nil, mapM_cons, mapM_nil, bind_eq_ok, pure_eq_ok] at hlegs
        obtain ⟨leg, hleg, _, rfl, rfl⟩ := hlegs
        simpa using LegBound.symbolBound hflip (planLeg_bound hleg)
  · obtain rfl := pure_eq_ok.mp h; exact SymbolBound.nil _ _ _

/-! ### The whole plan -/

theorem intentsOf_flatten (symbol : String) :
    ∀ {symbols : List String} {chunks : List (List OrderIntent)}, symbols.Nodup →
      symbols.mapM (planSymbol targets current filters marks runId) = .ok chunks →
      SymbolBound symbol (current.get symbol 0) (targets.get symbol 0)
        (intentsOf chunks.flatten symbol) ∧
      (symbol ∉ symbols → intentsOf chunks.flatten symbol = [])
  | [], chunks, _, h => by
    rw [mapM_nil, pure_eq_ok] at h
    subst h; exact ⟨SymbolBound.nil _ _ _, fun _ => rfl⟩
  | k :: rest, chunks, hnodup, h => by
    simp only [mapM_cons, bind_eq_ok, pure_eq_ok] at h
    obtain ⟨chunk, hchunk, chunks', hchunks', rfl⟩ := h
    have hk := planSymbol_bound hchunk
    obtain ⟨hfresh, hnodup'⟩ := nodup_cons.mp hnodup
    obtain ⟨hrest, hnone⟩ := intentsOf_flatten symbol hnodup' hchunks'
    rw [flatten_cons, intentsOf, filter_append]
    by_cases hsym : k = symbol
    · -- the chunk of `symbol` itself: nothing else of the plan carries the symbol
      subst hsym
      have hself : chunk.filter (fun i => decide (i.symbol = k)) = chunk :=
        filter_eq_self.mpr fun i hi => by simp [hk.symbol_eq i hi]
      have hnil : List.filter (fun i => decide (i.symbol = k)) chunks'.flatten = [] := hnone hfresh
      rw [hself, hnil, append_nil]; exact ⟨hk, fun hnot => absurd mem_cons_self hnot⟩
    · have hother : chunk.filter (fun i => decide (i.symbol = symbol)) = [] :=
        filter_eq_nil_iff.mpr fun i hi => by simp [hk.symbol_eq i hi, hsym]
      rw [hother]; exact ⟨hrest, fun hnot => hnone fun hmem => hnot (mem_cons_of_mem k hmem)⟩

theorem planOrders_symbolBound
    (h : planOrders targets current filters marks runId = .ok intents) (symbol : String) :
    SymbolBound symbol (current.get symbol 0) (targets.get symbol 0)
      (intentsOf intents symbol) := by
  obtain ⟨chunks, hchunks, rfl⟩ := map_eq_ok h
  have hkeys : (targets.keys ∪ current.keys).Nodup := List.Nodup.union _ current.keys_nodup
  exact (intentsOf_flatten symbol
    ((perm_insertionSort (· ≤ ·) _).nodup_iff.mpr hkeys) hchunks).1

theorem sum_signed_of_opposite {currentQty : ℚ} (fill : OrderIntent → ℚ) :
    ∀ {intents : List OrderIntent},
      (∀ i ∈ intents, i.side = expectedSide currentQty) →
      (intents.map fun i => i.signed (fill i)).sum
        = if 0 < currentQty then -(intents.map fill).sum else (intents.map fill).sum
  | [], _ => by simp
  | i :: rest, h => by
    have ih := sum_signed_of_opposite fill (fun j hj => h j (mem_cons_of_mem i hj))
    have hi := h i mem_cons_self
    rw [map_cons, sum_cons, ih, map_cons, sum_cons, OrderIntent.signed, hi, expectedSide]
    by_cases hpos : 0 < currentQty
    · simp only [hpos, if_true]; ring
    · simp only [hpos, if_false]

theorem deriskBlock_eq_none {currentPositions : Dict ℚ}
    {intent : OrderIntent} (h : deriskBlock currentPositions excludedSymbols intent = none) :
    intent.reduceOnly = true ∧
      intent.side = expectedSide (currentPositions.get intent.symbol 0) ∧
      intent.quantity ≤ |currentPositions.get intent.symbol 0| := by
  unfold deriskBlock at h
  simp only at h
  split at h
  · cases h
  · split at h
    · cases h
    · split at h
      · cases h
      · split at h
        · cases h
        · next hred =>
          split at h
          · cases h
          · next hside =>
            split at h
            · cases h
            · next hqty =>
              exact ⟨by simpa using hred, not_not.mp hside, not_lt.mp hqty⟩

theorem deriskFilter_shrinks {current : Dict ℚ} {fill : OrderIntent → ℚ}
    (hsum : reduceOnlyQuantity intents symbol ≤ |current.get symbol 0|)
    (hfill : FillChoice (deriskFilter intents current excludedSymbols).kept fill) :
    |positionAfter current (deriskFilter intents current excludedSymbols).kept fill symbol|
        ≤ |current.get symbol 0| ∧
      0 ≤ current.get symbol 0 *
        positionAfter current (deriskFilter intents current excludedSymbols).kept fill symbol := by
  set kept := (deriskFilter intents current excludedSymbols).kept with hkept
  set mine := intentsOf kept symbol with hmine
  have hmem : ∀ i ∈ mine, i ∈ kept ∧ i.symbol = symbol := by
    intro i hi; simpa [hmine, intentsOf] using hi
  have hpass : ∀ i ∈ mine, i.reduceOnly = true ∧
      i.side = expectedSide (current.get symbol 0) := by
    intro i hi
    obtain ⟨hik, hsym⟩ := hmem i hi
    have hnone : deriskBlock current excludedSymbols i = none := by
      have hboth : i ∈ intents ∧ deriskBlock current excludedSymbols i = none := by
        simpa [hkept, deriskFilter] using hik
      exact hboth.2
    obtain ⟨hred, hside, -⟩ := deriskBlock_eq_none hnone
    rw [hsym] at hside; exact ⟨hred, hside⟩
  -- the kept intents of the symbol are among its reduce-only intents
  have hsub : mine.Sublist ((intentsOf intents symbol).filter fun i => i.reduceOnly) := by
    have hm : mine = mine.filter fun i => i.reduceOnly := (filter_eq_self.mpr fun i hi => (hpass i hi).1).symm
    rw [hm]; exact (filter_sublist.filter _).filter _
  have htotal : (mine.map fill).sum ≤ |current.get symbol 0| := by
    calc (mine.map fill).sum ≤ (mine.map fun i => i.quantity).sum :=
          sum_le_sum fun i hi => hfill.le_quantity i (hmem i hi).1
      _ ≤ reduceOnlyQuantity intents symbol :=
          (hsub.map _).sum_le_sum fun q hq => by
            obtain ⟨i, -, rfl⟩ := mem_map.mp hq; exact i.quantity_nonneg
      _ ≤ |current.get symbol 0| := hsum
  have hnonneg : 0 ≤ (mine.map fill).sum :=
    sum_nonneg fun q hq => by
      obtain ⟨i, hi, rfl⟩ := mem_map.mp hq; exact hfill.nonneg i (hmem i hi).1
  have hpos : positionAfter current kept fill symbol
      = current.get symbol 0 + (if 0 < current.get symbol 0 then -(mine.map fill).sum
          else (mine.map fill).sum) := by
    rw [positionAfter, sum_signed_of_opposite fill fun i hi => (hpass i hi).2]
  rw [hpos]
  by_cases hc : 0 < current.get symbol 0
  · rw [abs_of_pos hc] at htotal
    simp only [hc, if_true]
    constructor
    · rw [abs_of_pos hc, abs_of_nonneg (by linarith)]; linarith
    · apply mul_nonneg hc.le; linarith
  · have hc' : current.get symbol 0 ≤ 0 := not_lt.mp hc
    rw [abs_of_nonpos hc'] at htotal
    simp only [hc, if_false]
    constructor
    · rw [abs_of_nonpos hc', abs_of_nonpos (by linarith)]; linarith
    · apply mul_nonneg_of_nonpos_of_nonpos hc'; linarith

/-- **Planned intents never overshoot**, for every plan and every choice of partial fills, before
and after `derisk_filter`. -/
theorem planOrders_never_overshoots
    (h : planOrders targets current filters marks runId = .ok intents) (symbol : String) :
    (∀ fill, FillChoice intents fill →
      positionAfter current intents fill symbol
        ∈ Set.uIcc (current.get symbol 0) (targets.get symbol 0)) ∧
    reduceOnlyQuantity intents symbol ≤ |current.get symbol 0| ∧
    (∀ excludedSymbols fill,
      FillChoice (deriskFilter intents current excludedSymbols).kept fill →
      |positionAfter current (deriskFilter intents current excludedSymbols).kept fill symbol|
          ≤ |current.get symbol 0| ∧
        0 ≤ current.get symbol 0 *
          positionAfter current (deriskFilter intents current excludedSymbols).kept fill symbol) := by
  have hbound := planOrders_symbolBound h symbol
  refine ⟨?_, hbound.reduceOnly_sum, ?_⟩
  · intro fill hfill
    have hmem : ∀ i ∈ intentsOf intents symbol, i ∈ intents := fun i hi =>
      (mem_filter.mp hi).1
    exact hbound.fill_mem fill (fun i hi => hfill.nonneg i (hmem i hi))
      (fun i hi => hfill.le_quantity i (hmem i hi))
  · intro excludedSymbols fill hfill; exact deriskFilter_shrinks hbound.reduceOnly_sum hfill

def flipFilters : SymbolFilters where
  symbol := "BTCUSDT"
  tickSize := 1 / 10
  stepSize := 1 / 1000
  minQty := 1 / 1000
  minNotional := 5
  maxQty := 1000
  minQty_nonneg := by norm_num

/-- A map with the one key `BTCUSDT`. -/
def onBtc {β : Type} (v : β) : Dict β := (∅ : Dict β).insert "BTCUSDT" v

def flipLeg (legIndex : ℕ) (quantity : ℚ) (h : 0 ≤ quantity) : OrderIntent where
  symbol := "BTCUSDT"
  side := .sell
  quantity := quantity
  reduceOnly := decide (legIndex = 0)
  targetQty := -1
  currentQty := 2
  clientOrderPrefix := "20260101"
  legIndex := legIndex
  decisionPrice := 100
  quantity_nonneg := h
  decisionPrice_pos := Nat.ofNat_pos

def sellTwo : OrderIntent := flipLeg 0 2 zero_le_two

/-- The flip from 2 to -1: the close leg sells 2, the open leg sells 1, and the full fill of both
is a choice of fills that ends on the target. -/
theorem planOrders_never_overshoots_flip :
    planOrders (onBtc (-1)) (onBtc 2) (onBtc flipFilters) (onBtc 100) "20260101"
        = .ok [sellTwo, flipLeg 1 1 zero_le_one] ∧
      positionAfter (onBtc 2) [sellTwo, flipLeg 1 1 zero_le_one]
        (fun i => i.quantity) "BTCUSDT" ∈ Set.uIcc 2 (-1) := by
  have hplan : planOrders (onBtc (-1)) (onBtc 2) (onBtc flipFilters) (onBtc 100) "20260101"
      = .ok [sellTwo, flipLeg 1 1 zero_le_one] := by decide +kernel
  refine ⟨hplan, ?_⟩
  have hfill : FillChoice [sellTwo, flipLeg 1 1 zero_le_one]
      (fun i => i.quantity) :=
    ⟨fun i _ => i.quantity_nonneg, fun _ _ => le_rfl, fun _ _ _ _ _ _ _ _ _ => rfl⟩
  exact (planOrders_never_overshoots hplan "BTCUSDT").1 _ hfill

end CryptoPilot.Live
