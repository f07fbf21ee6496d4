/- # Readiness — publication readiness, chunk by chunk.

`compute_source_readiness` asks for the latest publication instant of each trailing window.  It
reads the history in chunks, each with the rows of a window before it, takes the sliding maximum of
a chunk by blocks, and writes the rows of the decisions whose snapshot bar lies in the chunk. -/
import CryptoPilot.Lib.SlidingMax
import CryptoPilot.Strategy.Targets
import Mathlib.Data.List.GetD

namespace CryptoPilot.Strategy

open CryptoPilot.Lib List

def readinessChunkBars : ℕ := 4096

/-- `.view(np.int64)` of an instant; a missing one is the least number of 64 bits. -/
def instantView : Option ℤ → ℤ
  | some t => t
  | none => -2 ^ 63

/-- `hourly_available_at.iloc[start:]`, as a matrix of numbers. -/
def instantsFrom (availableAt : Frame (Option ℤ)) (start : ℕ) : ℕ → ℕ → ℤ :=
  fun i j => instantView (availableAt.cell (start + i) j)

/-- `range(0, n, chunk)`. -/
def chunkStarts (chunk n : ℕ) : List ℕ := (List.range ((n + chunk - 1) / chunk)).map (· * chunk)

section Chunks

variable (window chunk : ℕ) (availableAt : Frame (Option ℤ))

def chunkEnd (start : ℕ) : ℕ := min (start + chunk) availableAt.index.length

/-- A snapshot bar lies in the chunk at `start`. -/
def inChunk (start : ℕ) (pos : ℤ) : Bool := decide (start ≤ pos) && decide (pos < chunkEnd chunk availableAt start)

/-- The readiness of one decision whose snapshot bar lies in the chunk at `start`. -/
def chunkRow (start : ℕ) (pos release : ℤ) : List Bool :=
  let sliceStart := start - (window - 1)
  let win := slidingMax window (chunkEnd chunk availableAt start - sliceStart) (instantsFrom availableAt sliceStart)
  (List.range availableAt.columns.length).map fun j =>
    decide (win (start - sliceStart + (pos - start).toNat) j ≤ release)

/-- One chunk: the rows of the decisions whose snapshot bar lies in it are written. -/
def writeChunk (bars : List (ℤ × ℤ)) (ready : List (List Bool)) (start : ℕ) : List (List Bool) :=
  zipWith (fun bar row => if inChunk chunk availableAt start bar.1 then
    chunkRow window chunk availableAt start bar.1 bar.2 else row) bars ready

/-- `compute_source_readiness`, for a window of any length and chunks of any length. -/
def chunkedReadiness (decisions : List ℤ) (strategy : StrategySpec) : SourceReadiness :=
  let positions := snapshotPositions availableAt.index decisions strategy
  let releases := decisions.map fun d => d + strategy.releaseHourUtc * hourNs
  let none := decisions.map fun _ => availableAt.columns.map fun _ => false
  { decisions := decisions
    barPositions := positions
    ready :=
      if decisions = [] ∨ availableAt.columns = [] ∨ availableAt.index = [] then none
      else (chunkStarts chunk availableAt.index.length).foldl
        (writeChunk window chunk availableAt (positions.zip releases)) none }

end Chunks

/-! ## One chunk -/

section Runs

variable {window chunk : ℕ} {availableAt : Frame (Option ℤ)}

/-- The readiness of a decision by the maximum of its window in the whole history. -/
def readyRow (window : ℕ) (availableAt : Frame (Option ℤ)) (pos release : ℤ) : List Bool :=
  (List.range availableAt.columns.length).map fun j =>
    decide (windowMax window (instantsFrom availableAt 0) pos.toNat j ≤ release)

variable {pos : ℤ}

theorem inChunk_iff {start : ℕ} :
    inChunk chunk availableAt start pos = true ↔ start ≤ pos ∧ pos < chunkEnd chunk availableAt start := by
  simp [inChunk]

theorem chunkRow_eq (hwindow : 1 ≤ window) {start : ℕ} {pos release : ℤ}
    (hin : inChunk chunk availableAt start pos = true) :
    chunkRow window chunk availableAt start pos release = readyRow window availableAt pos release := by
  obtain ⟨hlow, hhigh⟩ := inChunk_iff.mp hin
  obtain ⟨p, rfl⟩ : ∃ p : ℕ, pos = p := ⟨pos.toNat, by omega⟩
  have hrow : start - (start - (window - 1)) + ((p : ℤ) - start).toNat = p - (start - (window - 1)) := by omega
  have hsource : instantsFrom availableAt (start - (window - 1)) =
      fun i => instantsFrom availableAt 0 (start - (window - 1) + i) := by
    funext i j
    rw [instantsFrom, instantsFrom, Nat.zero_add]
  have hmax : slidingMax window (chunkEnd chunk availableAt start - (start - (window - 1)))
      (instantsFrom availableAt (start - (window - 1))) (p - (start - (window - 1))) =
      windowMax window (instantsFrom availableAt 0) p := by
    rw [slidingMax_eq hwindow (by omega), hsource]; exact windowMax_shift (by omega) (by omega)
  simp only [chunkRow, readyRow, hrow, hmax, Int.toNat_natCast]

/-! ## All chunks -/

theorem foldl_writeChunk (hwindow : 1 ≤ window) (bars : List (ℤ × ℤ)) : ∀ (starts : List ℕ)
    (ready : List (List Bool)),
    ready.length = bars.length →
    starts.foldl (writeChunk window chunk availableAt bars) ready =
      zipWith (fun bar row => if starts.any (fun start => inChunk chunk availableAt start bar.1) then
        readyRow window availableAt bar.1 bar.2 else row) bars ready
  | [], ready, hlength => by
    refine ext_getElem (by simp [hlength]) ?_
    intro k hk hk'; simp
  | start :: starts, ready, hlength => by
    rw [foldl_cons, foldl_writeChunk hwindow bars starts _ (by simp [writeChunk, hlength])]
    refine ext_getElem (by simp [writeChunk]) ?_
    intro k hk hk'
    simp only [writeChunk, getElem_zipWith, any_cons]
    have hbar : k < bars.length := by
      simp at hk'; omega
    by_cases hin : inChunk chunk availableAt start bars[k].1 = true
    · simp only [hin, if_true, Bool.true_or, chunkRow_eq hwindow hin, ite_self]
    · simp only [hin, Bool.false_or, Bool.false_eq_true, if_false]

theorem any_chunkStarts (hchunk : 1 ≤ chunk) (hlow : 0 ≤ pos)
    (hhigh : pos < availableAt.index.length) :
    (chunkStarts chunk availableAt.index.length).any (fun start => inChunk chunk availableAt start pos) = true := by
  obtain ⟨p, rfl⟩ : ∃ p : ℕ, pos = p := ⟨pos.toNat, by omega⟩
  have hdiv : chunk * (p / chunk) + p % chunk = p := Nat.div_add_mod p chunk
  have hmod : p % chunk < chunk := Nat.mod_lt p hchunk
  rw [any_eq_true]
  refine ⟨p / chunk * chunk, mem_map.mpr ⟨p / chunk, ?_, rfl⟩, ?_⟩
  · rw [mem_range, Nat.lt_iff_add_one_le, Nat.le_div_iff_mul_le hchunk, Nat.add_mul, Nat.mul_comm]
    omega
  · rw [inChunk_iff, chunkEnd, Nat.mul_comm]; omega

theorem any_inChunk_neg {starts : List ℕ} (hneg : pos < 0) :
    starts.any (fun start => inChunk chunk availableAt start pos) = false := by
  rw [any_eq_false]
  intro start _
  rw [inChunk_iff]; omega

theorem getIndexer_eq_natCast {index : List ℤ} {label : ℤ} {p : ℕ} :
    getIndexer index label = p ↔ index.idxOf? label = some p := by
  unfold getIndexer
  split
  · next q hq => simp [hq]
  · next hnone =>
    simp only [hnone]
    constructor
    · intro h; omega
    · intro h; cases h

theorem getIndexer_lt (index : List ℤ) (label : ℤ) : getIndexer index label < index.length ∨ index = [] := by
  unfold getIndexer
  split
  · next q hq =>
    left
    have hlt := (findIdx?_eq_some_iff_getElem.mp hq).1; exact_mod_cast hlt
  · next hnone =>
    rcases index with _ | ⟨t, rest⟩
    · exact Or.inr rfl
    · left; omega

def barOf (availableAt : Frame (Option ℤ)) (strategy : StrategySpec) (d : ℤ) : ℤ :=
  getIndexer availableAt.index (d + strategy.snapshotHourUtc * hourNs)

def releaseOf (strategy : StrategySpec) (d : ℤ) : ℤ := d + strategy.releaseHourUtc * hourNs

/-- **The chunks write one row for each decision with a snapshot bar**, that of its window in the
whole history. -/
theorem chunkedReadiness_ready (hwindow : 1 ≤ window) (hchunk : 1 ≤ chunk) (decisions : List ℤ)
    (strategy : StrategySpec) :
    (chunkedReadiness window chunk availableAt decisions strategy).ready = decisions.map fun d =>
      if 0 ≤ barOf availableAt strategy d then
        readyRow window availableAt (barOf availableAt strategy d) (releaseOf strategy d)
      else availableAt.columns.map fun _ => false := by
  unfold chunkedReadiness
  dsimp only
  split
  · next hempty =>
    refine map_congr_left ?_
    intro d hd
    rcases hempty with rfl | hcolumns | hindex
    · exact absurd hd not_mem_nil
    · simp [readyRow, hcolumns]
    · have hbar : barOf availableAt strategy d = -1 := by simp [barOf, getIndexer, hindex]
      rw [if_neg (by omega)]
  · next hsome =>
    rw [foldl_writeChunk hwindow _ _ _ (by simp [snapshotPositions])]
    refine ext_getElem (by simp [snapshotPositions]) ?_
    intro k hk hk'
    simp only [getElem_zipWith, getElem_zip, getElem_map, snapshotPositions]
    have hlength : k < decisions.length := by simpa using hk'
    obtain ⟨d, hd⟩ : ∃ d, decisions[k] = d := ⟨_, rfl⟩
    rw [hd]
    change (if (chunkStarts chunk availableAt.index.length).any
      (fun start => inChunk chunk availableAt start (barOf availableAt strategy d)) = true then _ else _) = _
    by_cases hbar : 0 ≤ barOf availableAt strategy d
    · have hlt : barOf availableAt strategy d < availableAt.index.length :=
        (getIndexer_lt _ _).resolve_right (fun h => hsome (Or.inr (Or.inr h)))
      rw [if_pos (any_chunkStarts hchunk hbar hlt), if_pos hbar]; rfl
    · rw [any_inChunk_neg (by omega), if_neg Bool.false_ne_true, if_neg hbar]

end Runs

/-! ## The definition -/

/-- The snapshot bar of the decision is on the hourly index, and symbol `j`'s trailing window was
published by the release. -/
def ReadyAt (window : ℕ) (availableAt : Frame (Option ℤ)) (strategy : StrategySpec) (d : ℤ) (j : ℕ) : Prop :=
  ∃ p, availableAt.index.idxOf? (d + strategy.snapshotHourUtc * hourNs) = some p ∧
    ∀ i, i ≤ p → p < i + window → ∃ t, availableAt.cell i j = some t ∧ t ≤ d + strategy.releaseHourUtc * hourNs

def HoldsInstants (availableAt : Frame (Option ℤ)) : Prop := ∀ row ∈ availableAt.rows, ∀ cell ∈ row, cell.isSome

variable {availableAt : Frame (Option ℤ)}

theorem HoldsInstants.cell (h : HoldsInstants availableAt) {i j : ℕ}
    (hi : i < availableAt.index.length) (hj : j < availableAt.columns.length) : ∃ t,
    availableAt.cell i j = some t := by
  have hrow : i < availableAt.rows.length := by rw [availableAt.rows_length]; exact hi
  have hmem := getElem_mem hrow
  have hcol : j < availableAt.rows[i].length := by rw [availableAt.row_length _ hmem]; exact hj
  obtain ⟨t, ht⟩ := Option.isSome_iff_exists.mp (h _ hmem _ (getElem_mem hcol))
  refine ⟨t, ?_⟩
  rw [← ht, Frame.cell, Frame.row, getD_eq_getElem _ _ hrow, getD_eq_getElem _ _ hcol]

theorem readyRow_iff {window : ℕ} (hwindow : 1 ≤ window)
    (hinstants : HoldsInstants availableAt) {p j : ℕ} (hp : p < availableAt.index.length)
    (hj : j < availableAt.columns.length) {release : ℤ} :
    (readyRow window availableAt p release).getD j false = true ↔
      ∀ i, i ≤ p → p < i + window → ∃ t, availableAt.cell i j = some t ∧ t ≤ release := by
  have hlength : j < (readyRow window availableAt p release).length := by simpa [readyRow] using hj
  rw [getD_eq_getElem _ _ hlength]
  simp only [readyRow, getElem_map, getElem_range, decide_eq_true_eq, Int.toNat_natCast]
  rw [windowMax, Finset.sup'_apply, Finset.sup'_le_iff]
  constructor
  · intro h i hlow hhigh
    obtain ⟨t, ht⟩ := hinstants.cell (show i < availableAt.index.length by omega) hj
    have hle := h i (Finset.mem_Icc.mpr ⟨by omega, hlow⟩)
    rw [instantsFrom, Nat.zero_add, ht] at hle; exact ⟨t, ht, hle⟩
  · intro h i hi
    obtain ⟨hlow, hhigh⟩ := Finset.mem_Icc.mp hi
    obtain ⟨t, ht, hle⟩ := h i hhigh (by omega)
    rw [instantsFrom, Nat.zero_add, ht]; exact hle

/-- **Readiness by chunks is readiness by definition.** -/
theorem chunkedReadiness_iff {window chunk : ℕ} (hwindow : 1 ≤ window) (hchunk : window ≤ chunk)
    {availableAt : Frame (Option ℤ)} (hinstants : HoldsInstants availableAt) (decisions : List ℤ)
    (strategy : StrategySpec) :
    (∀ k (hk : k < decisions.length) j, j < availableAt.columns.length →
      ((((chunkedReadiness window chunk availableAt decisions strategy).ready.getD k []).getD j false = true ↔
        ReadyAt window availableAt strategy decisions[k] j))) ∧
    ∀ (a : ℕ → ℕ → ℤ) (n i : ℕ), i < n → slidingMax window n a i = windowMax window a i := by
  refine ⟨?_, fun a n i hi => slidingMax_eq hwindow hi⟩
  intro k hk j hj
  obtain ⟨d, hd⟩ : ∃ d, decisions[k] = d := ⟨_, rfl⟩
  have hrow : (chunkedReadiness window chunk availableAt decisions strategy).ready.getD k [] =
      if 0 ≤ barOf availableAt strategy d then
        readyRow window availableAt (barOf availableAt strategy d) (releaseOf strategy d)
      else availableAt.columns.map fun _ => false := by
    rw [chunkedReadiness_ready hwindow (hwindow.trans hchunk), getD_eq_getElem _ _ (by simpa using hk),
      getElem_map, hd]
  rw [hrow, hd]
  split
  · next hbar =>
    obtain ⟨p, hp⟩ : ∃ p : ℕ, barOf availableAt strategy d = p := ⟨(barOf availableAt strategy d).toNat, by omega⟩
    have hidx := getIndexer_eq_natCast.mp hp
    have hlt : p < availableAt.index.length := (findIdx?_eq_some_iff_getElem.mp hidx).1
    rw [hp, readyRow_iff hwindow hinstants hlt hj]
    constructor
    · intro h; exact ⟨p, hidx, h⟩
    · rintro ⟨q, hq, h⟩; cases hidx.symm.trans hq; exact h
  · next hbar =>
    constructor
    · intro h; simp [hj] at h
    · rintro ⟨p, hp, -⟩
      exact absurd (show (0 : ℤ) ≤ barOf availableAt strategy d by
        rw [barOf, getIndexer_eq_natCast.mpr hp]
        exact Int.natCast_nonneg p) hbar

/-- Two symbols by the hour; the second bar of ETHUSDT was published eight hours late. -/
def lateFrame : Frame (Option ℤ) where
  index := [0, hourNs, 2 * hourNs]
  columns := ["BTCUSDT", "ETHUSDT"]
  rows := [[some 0, some 0], [some hourNs, some (9 * hourNs)], [some (2 * hourNs), some (2 * hourNs)]]
  rows_length := rfl
  row_length := by decide

def earlyStrategy : StrategySpec where
  strategyId := "early"
  breadth := 2
  members := [{ name := "flow", sign := 1, sign_valid := Or.inr rfl }]
  minRankSymbols := 2
  snapshotHourUtc := 2
  releaseHourUtc := 3
  entryHourUtc := 4
  strategyId_nonempty := by decide
  breadth_pos := by decide
  members_nonempty := by decide
  members_named := by decide
  members_unique := by decide
  minRankSymbols_ge := by decide
  releaseHour_le := by decide
  entryHour_le := by decide
  snapshot_before_release := by decide
  exposure_pos := by decide
  nameClip_valid := by decide

/-- Windows of two bars in chunks of two: the window of the decision crosses the edge of a chunk. -/
theorem chunkedReadiness_iff_late :
    (chunkedReadiness 2 2 lateFrame [0] earlyStrategy).ready = [[true, false]] ∧
      (((chunkedReadiness 2 2 lateFrame [0] earlyStrategy).ready.getD 0 []).getD 1 false = true ↔
        ReadyAt 2 lateFrame earlyStrategy 0 1) :=
  ⟨by decide +kernel,
    (chunkedReadiness_iff (by decide) (by decide) (by unfold HoldsInstants; decide) [0] earlyStrategy).1
      0 (by decide) 1 (by decide)⟩

/-! ## The history of 720 bars -/

theorem all_rollingWindow {α : Type} {width : ℕ} {values : List α} {p : ℕ} (hp : p < values.length) {f : α → Bool} :
    (rollingWindow width values p).all f = true ↔
      ∀ i (hi : i < values.length), i ≤ p → p < i + width → f values[i] = true := by
  rw [all_eq_true, rollingWindow]
  constructor
  · intro h i hi hlow hhigh
    apply h
    rw [mem_iff_getElem]
    refine ⟨i - (p + 1 - width), ?_, ?_⟩
    · rw [length_drop, length_take]; omega
    · simp only [getElem_drop, getElem_take]
      congr 1; omega
  · intro h x hx
    obtain ⟨k, hk, rfl⟩ := mem_iff_getElem.mp hx
    rw [length_drop, length_take] at hk
    simp only [getElem_drop, getElem_take]; exact h _ _ (by omega) (by omega)

/-- **The chunked computation is the readiness the targets are built on.** -/
theorem chunkedReadiness_eq_computeSourceReadiness
    (hinstants : HoldsInstants availableAt) (decisions : List ℤ) (strategy : StrategySpec) :
    chunkedReadiness historyBars readinessChunkBars availableAt decisions strategy =
      computeSourceReadiness availableAt decisions strategy := by
  have hready : (chunkedReadiness historyBars readinessChunkBars availableAt decisions strategy).ready =
      (computeSourceReadiness availableAt decisions strategy).ready := by
    rw [chunkedReadiness_ready (by decide) (by decide), computeSourceReadiness]
    refine ext_getElem (by simp [snapshotPositions]) ?_
    intro k hk hk'
    simp only [getElem_map, getElem_zipWith, snapshotPositions]
    have hlength : k < decisions.length := by simpa using hk
    obtain ⟨d, hd⟩ : ∃ d, decisions[k] = d := ⟨_, rfl⟩
    rw [hd]
    split
    · next hbar =>
      obtain ⟨p, hp⟩ : ∃ p : ℕ, barOf availableAt strategy d = p := ⟨(barOf availableAt strategy d).toNat, by omega⟩
      have hlt : p < availableAt.index.length := (findIdx?_eq_some_iff_getElem.mp (getIndexer_eq_natCast.mp hp)).1
      have hrows : p < availableAt.rows.length := by rw [availableAt.rows_length]; exact hlt
      change getIndexer availableAt.index (d + strategy.snapshotHourUtc * hourNs) = p at hp
      rw [barOf, hp]
      refine ext_getElem (by simp [readyRow]) ?_
      intro j hj hj'
      have hcol : j < availableAt.columns.length := by simpa [readyRow] using hj
      rw [← getD_eq_getElem _ false hj, Bool.eq_iff_iff, readyRow_iff (by decide) hinstants hlt hcol]
      simp only [getElem_map, getElem_range, Int.natCast_nonneg, if_true, Int.toNat_natCast,
        all_rollingWindow hrows, Option.any_eq_true, decide_eq_true_eq, releaseOf]
      constructor
      · intro h i hi hlow hhigh
        have hcell := h i hlow hhigh; rwa [Frame.cell, Frame.row, getD_eq_getElem _ _ hi] at hcell
      · intro h i hlow hhigh
        rw [Frame.cell, Frame.row, getD_eq_getElem _ _ (show i < availableAt.rows.length by omega)]
        exact h i (by omega) hlow hhigh
    · next hbar =>
      have hneg : ¬ 0 ≤ getIndexer availableAt.index (d + strategy.snapshotHourUtc * hourNs) := hbar
      simp only [hneg, if_false]
      refine ext_getElem (by simp) ?_
      intro j hj hj'; simp
  rw [SourceReadiness.mk.injEq]; exact ⟨rfl, rfl, hready⟩

end CryptoPilot.Strategy
