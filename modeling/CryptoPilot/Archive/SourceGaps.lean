/- # SourceGaps — measured absences of the local lake.

`_measure_one_symbol` reports what a window lacks of a symbol's bars: the holes between two observed
bars, the time before the first, and the time after the last, which is left open.  Instants are in
nanoseconds; a record keeps datetimes, whose resolution is a microsecond.  On whole microseconds the
records are the complement of the observed bars (`measureOneSymbol_complement`). -/
import CryptoPilot.Lib.Intervals
import Mathlib.Algebra.Order.Group.Int
import Mathlib.Order.WithBot

namespace CryptoPilot.Archive

open CryptoPilot.Lib List

/-! ## The records -/

inductive SourceGapPlane where
  | ohlcv3m
  | ohlcv1h
  | funding
  deriving DecidableEq, Repr

inductive SourceGapExtent where
  | listingEdge
  | openEdge
  | interior
  | unscoped
  deriving DecidableEq, Repr

def planeStep : SourceGapPlane → ℤ
  | .ohlcv3m => 3 * 60 * 10 ^ 9
  | .ohlcv1h => 3600 * 10 ^ 9
  | .funding => 8 * 3600 * 10 ^ 9

/-- `SourceGapInterval`, without its evidence text; an open end is `none`. -/
structure SourceGapInterval where
  symbol : String
  plane : SourceGapPlane
  start : ℤ
  stop : Option ℤ
  reason : String
  verifiedAt : ℤ
  resolvedAt : Option ℤ
  extent : SourceGapExtent
  deriving DecidableEq, Repr

/-- `to_pydatetime`: the nanoseconds are discarded. -/
def toPydatetime (t : ℤ) : ℤ := t / 1000 * 1000

/-! ## The lake file -/

/-- The time column of a parquet frame, cell by cell; a cell that does not convert is `none`. -/
inductive LakeFrame where
  | timestamp (millis : List (Option ℤ))
  | datetime (stamps : List (Option ℤ))
  | untimed (rows : ℕ)
  deriving DecidableEq

/-- `_read_bar_times`: the observed bars in order, each once. -/
def readBarTimes : LakeFrame → Option (List ℤ)
  | .timestamp millis => some (sortBy id ((millis.filterMap id).map (· * 10 ^ 6)).dedup)
  | .datetime stamps => some (sortBy id (stamps.filterMap id).dedup)
  | .untimed rows => if rows = 0 then some [] else none

/-! ## Measuring -/

section Measure

variable (step start stop : ℤ)

def interiorGap (left right : ℤ) : Option (ℤ × ℤ) :=
  if right ≤ start ∨ stop ≤ left then none
  else if step < right - left then
    let clippedStart := max (left + step) start
    let clippedEnd := min right stop
    if clippedStart < clippedEnd then some (clippedStart, clippedEnd) else none
  else none

/-- The holes between the bars from `left` on. -/
def interiorGaps (left : ℤ) : List ℤ → List (ℤ × ℤ)
  | [] => []
  | right :: rest => (interiorGap step start stop left right).toList ++ interiorGaps right rest

def leadingGap (first : ℤ) : Option (ℤ × ℤ) :=
  if start < first ∧ first < stop then some (start, min first stop)
  else if stop ≤ first then some (start, stop)
  else none

def trailingStart (last : ℤ) : Option ℤ := if last + step < stop then some (max (last + step) start) else none

end Measure

section Records

variable (symbol : String) (plane : SourceGapPlane) (stop : ℤ)

def absence (start : ℤ) (finish : Option ℤ) (extent : SourceGapExtent) : SourceGapInterval where
  symbol := symbol
  plane := plane
  start := toPydatetime start
  stop := finish.map toPydatetime
  reason := "SOURCE_ABSENT"
  verifiedAt := toPydatetime stop
  resolvedAt := none
  extent := extent

/-- `(iv.start, iv.end or datetime.max)`. -/
def SourceGapInterval.sortKey (iv : SourceGapInterval) : ℤ ×ₗ WithTop ℤ :=
  toLex (iv.start, match iv.stop with
    | some t => (t : WithTop ℤ)
    | none => ⊤)

/-- The records of a symbol with bars, in the order they are appended. -/
def observedAbsences (start first : ℤ) (rest : List ℤ) : List SourceGapInterval :=
  (interiorGaps (planeStep plane) start stop first rest).map (fun gap =>
      absence symbol plane stop gap.1 (some gap.2) .interior) ++
    (leadingGap start stop first).toList.map (fun gap =>
      absence symbol plane stop gap.1 (some gap.2) .listingEdge) ++
    (trailingStart (planeStep plane) start stop (rest.getLastD first)).toList.map (fun tail =>
      absence symbol plane stop tail none .openEdge)

/-- `_measure_one_symbol`: `file` is the symbol's parquet file, if it exists. -/
def measureOneSymbol (start : ℤ) (file : Option LakeFrame) : Option (List SourceGapInterval) :=
  match file with
  | none => some [absence symbol plane stop start none .openEdge]
  | some frame =>
    match readBarTimes frame with
    | none => none
    | some [] => some [absence symbol plane stop start none .openEdge]
    | some (first :: rest) =>
      some (sortBy SourceGapInterval.sortKey (observedAbsences symbol plane stop start first rest))

end Records

/-! ## Holes between bars -/

section Holes

variable {step start stop : ℤ}

variable {gap : ℤ × ℤ}

theorem interiorGap_eq_some (hstep : 0 < step) {left right : ℤ} :
    interiorGap step start stop left right = some gap ↔
      gap = (max (left + step) start, min right stop) ∧ max (left + step) start < min right stop := by
  by_cases hclip : max (left + step) start < min right stop
  · have hinside : ¬ (right ≤ start ∨ stop ≤ left) := by omega
    have hwide : step < right - left := by omega
    simp only [interiorGap, hinside, hwide, hclip, if_true, if_false, Option.some.injEq, and_true]
    exact eq_comm
  · simp only [interiorGap, hclip, if_false, ite_self, and_false, reduceCtorEq]

theorem mem_interiorGaps (hstep : 0 < step) : ∀ {rest : List ℤ} {left : ℤ},
    (left :: rest).Pairwise (· < ·) → gap ∈ interiorGaps step start stop left rest →
      start ≤ gap.1 ∧ gap.1 < gap.2 ∧ gap.2 ≤ stop ∧ left + step ≤ gap.1 ∧ ∃ bar ∈ rest, gap.2 ≤ bar
  | [], _, _, h => absurd h not_mem_nil
  | right :: rest, left, hsorted, h => by
    obtain ⟨hleft, hrest⟩ := pairwise_cons.mp hsorted
    have hlt := hleft right mem_cons_self
    rcases mem_append.mp h with h | h
    · obtain ⟨rfl, hclip⟩ := (interiorGap_eq_some hstep).mp (Option.mem_toList.mp h)
      refine ⟨le_max_right _ _, hclip, min_le_right _ _, le_max_left _ _, right, mem_cons_self, min_le_left _ _⟩
    · obtain ⟨hlow, hpos, hhigh, hafter, bar, hbar, hle⟩ := mem_interiorGaps hstep hrest h
      exact ⟨hlow, hpos, hhigh, by omega, bar, mem_cons_of_mem _ hbar, hle⟩

theorem pairwise_interiorGaps (hstep : 0 < step) : ∀ {rest : List ℤ} {left : ℤ}, (left :: rest).Pairwise (· < ·) →
    (interiorGaps step start stop left rest).Pairwise (fun i j => i.2 ≤ j.1)
  | [], _, _ => List.Pairwise.nil
  | right :: rest, left, hsorted => by
    obtain ⟨-, hrest⟩ := pairwise_cons.mp hsorted
    refine pairwise_append.mpr ⟨?_, pairwise_interiorGaps hstep hrest, ?_⟩
    · cases interiorGap step start stop left right <;> simp
    · intro i hi j hj
      obtain ⟨rfl, -⟩ := (interiorGap_eq_some hstep).mp (Option.mem_toList.mp hi)
      obtain ⟨-, -, -, hafter, -⟩ := mem_interiorGaps hstep hrest hj
      exact (min_le_left _ _).trans (by omega)

def Uncovered (step : ℤ) (bars : List ℤ) (t : ℤ) : Prop := ∀ bar ∈ bars, ¬ (bar ≤ t ∧ t < bar + step)

/-- **The holes are the uncovered instants between the first bar and the last.** -/
theorem covered_interiorGaps (hstep : 0 < step) {t : ℤ} : ∀ {rest : List ℤ} {left : ℤ},
    (left :: rest).Pairwise (· < ·) →
      (t ∈ covered (interiorGaps step start stop left rest) ↔
        (start ≤ t ∧ t < stop) ∧ left ≤ t ∧ (∃ bar ∈ rest, t < bar) ∧ Uncovered step (left :: rest) t)
  | [], left, _ => by simp [interiorGaps]
  | right :: rest, left, hsorted => by
    obtain ⟨hleft, hrest⟩ := pairwise_cons.mp hsorted
    have hlt := hleft right mem_cons_self
    have hlater : ∀ bar ∈ rest, right < bar := (pairwise_cons.mp hrest).1
    have ih : t ∈ covered (interiorGaps step start stop right rest) ↔ _ := covered_interiorGaps hstep hrest
    rw [interiorGaps, covered_append, Set.mem_union, ih]
    constructor
    · rintro (⟨gap, hgap, hlow, hhigh⟩ | ⟨hwindow, hge, ⟨bar, hbar, htbar⟩, hfree⟩)
      · obtain ⟨rfl, -⟩ := (interiorGap_eq_some hstep).mp (Option.mem_toList.mp hgap)
        simp only [max_le_iff, lt_min_iff] at hlow hhigh
        refine ⟨⟨hlow.2, hhigh.2⟩, by omega, ⟨right, mem_cons_self, hhigh.1⟩, ?_⟩
        intro bar hbar
        rcases mem_cons.mp hbar with rfl | hbar
        · omega
        · rcases mem_cons.mp hbar with rfl | hbar
          · omega
          · have := hlater bar hbar; omega
      · refine ⟨hwindow, by omega, ⟨bar, mem_cons_of_mem _ hbar, htbar⟩, ?_⟩
        intro bar' hbar'
        rcases mem_cons.mp hbar' with rfl | hbar'
        · have := hfree right mem_cons_self; omega
        · exact hfree bar' hbar'
    · rintro ⟨⟨hlow, hhigh⟩, hge, ⟨bar, hbar, htbar⟩, hfree⟩
      rcases lt_or_ge t right with hbefore | hafter
      · left
        have hhole := hfree left mem_cons_self
        have hclip : max (left + step) start < min right stop := by
          omega
        refine ⟨_, Option.mem_toList.mpr ((interiorGap_eq_some hstep).mpr ⟨rfl, hclip⟩), ?_⟩; omega
      · right
        refine ⟨⟨hlow, hhigh⟩, hafter, ⟨bar, ?_, htbar⟩, fun b hb => hfree b (mem_cons_of_mem _ hb)⟩
        rcases mem_cons.mp hbar with rfl | hbar
        · omega
        · exact hbar

theorem dvd_interiorGaps (hstep : 0 < step) {unit : ℤ} (hunit : unit ∣ step) (hstart : unit ∣ start)
    (hstop : unit ∣ stop) : ∀ {rest : List ℤ} {left : ℤ}, (∀ bar ∈ left :: rest, unit ∣ bar) →
      gap ∈ interiorGaps step start stop left rest → unit ∣ gap.1 ∧ unit ∣ gap.2
  | [], _, _, h => absurd h not_mem_nil
  | right :: rest, left, hbars, h => by
    rcases mem_append.mp h with h | h
    · obtain ⟨rfl, -⟩ := (interiorGap_eq_some hstep).mp (Option.mem_toList.mp h)
      have hleft := hbars left mem_cons_self
      have hright := hbars right (mem_cons_of_mem _ mem_cons_self)
      refine ⟨?_, ?_⟩
      · rcases max_choice (left + step) start with hmax | hmax <;> simp only [hmax]
        · exact Int.dvd_add hleft hunit
        · exact hstart
      · rcases min_choice right stop with hmin | hmin <;> simp only [hmin, hright, hstop]
    · exact dvd_interiorGaps hstep hunit hstart hstop (fun bar hbar => hbars bar (mem_cons_of_mem _ hbar)) h

end Holes

/-! ## The whole window -/

section Window

variable {step start stop first : ℤ} {rest : List ℤ}

theorem leadingGap_eq_some (hwindow : start < stop) {gap : ℤ × ℤ} :
    leadingGap start stop first = some gap ↔ gap = (start, min first stop) ∧ start < first := by
  unfold leadingGap
  split_ifs with hinside hwhole
  · simp only [Option.some.injEq, hinside.1, and_true]; exact eq_comm
  · have hmin : min first stop = stop := min_eq_right hwhole
    have hlt : start < first := hwindow.trans_le hwhole
    simp only [Option.some.injEq, hmin, hlt, and_true]; exact eq_comm
  · simp only [false_iff, not_and]
    rintro -; omega

theorem trailingStart_eq_some {last tail : ℤ} :
    trailingStart step start stop last = some tail ↔ tail = max (last + step) start ∧ last + step < stop := by
  unfold trailingStart
  split_ifs with hopen
  · simp only [Option.some.injEq, hopen, and_true]; exact eq_comm
  · simp only [hopen, and_false]

/-- The absences of a window, an open end read as its end. -/
def windowGaps (step start stop first : ℤ) (rest : List ℤ) : List (ℤ × ℤ) :=
  (leadingGap start stop first).toList ++ interiorGaps step start stop first rest ++
    (trailingStart step start stop (rest.getLastD first)).toList.map fun tail => (tail, stop)

theorem le_getLastD : ∀ {rest : List ℤ} {first : ℤ}, (first :: rest).Pairwise (· < ·) →
    ∀ bar ∈ first :: rest, bar ≤ rest.getLastD first
  | [], _, _, _, hbar => (mem_singleton.mp hbar).le
  | next :: rest, first, hsorted, bar, hbar => by
    obtain ⟨hfirst, hrest⟩ := pairwise_cons.mp hsorted
    rw [getLastD_cons]
    rcases mem_cons.mp hbar with rfl | hbar
    · exact (hfirst next mem_cons_self).le.trans (le_getLastD hrest next mem_cons_self)
    · exact le_getLastD hrest bar hbar

theorem mem_windowGaps {gap : ℤ × ℤ} (hwindow : start < stop) : gap ∈ windowGaps step start stop first rest ↔
    (gap = (start, min first stop) ∧ start < first) ∨ gap ∈ interiorGaps step start stop first rest ∨
      (gap = (max (rest.getLastD first + step) start, stop) ∧ rest.getLastD first + step < stop) := by
  simp only [windowGaps, mem_append, Option.mem_toList, leadingGap_eq_some hwindow, mem_map,
    trailingStart_eq_some, or_assoc]
  refine or_congr_right (or_congr_right ?_)
  constructor
  · rintro ⟨tail, ⟨rfl, hopen⟩, rfl⟩; exact ⟨rfl, hopen⟩
  · rintro ⟨rfl, hopen⟩; exact ⟨_, ⟨rfl, hopen⟩, rfl⟩

section

variable (hstep : 0 < step) (hwindow : start < stop) (hsorted : (first :: rest).Pairwise (· < ·))

include hstep hwindow hsorted

theorem bounds_windowGaps :
    ∀ gap ∈ windowGaps step start stop first rest, start ≤ gap.1 ∧ gap.1 < gap.2 ∧ gap.2 ≤ stop := by
  intro gap hgap
  rcases (mem_windowGaps hwindow).mp hgap with ⟨rfl, hlead⟩ | hinner | ⟨rfl, hopen⟩
  · exact ⟨le_rfl, lt_min hlead hwindow, min_le_right _ _⟩
  · obtain ⟨hlow, hpos, hhigh, -⟩ := mem_interiorGaps hstep hsorted hinner
    exact ⟨hlow, hpos, hhigh⟩
  · exact ⟨le_max_right _ _, max_lt hopen hwindow, le_rfl⟩

theorem pairwise_windowGaps : (windowGaps step start stop first rest).Pairwise (fun i j => i.2 ≤ j.1) := by
  have hlast := le_getLastD hsorted
  refine pairwise_append.mpr ⟨pairwise_append.mpr ⟨?_, pairwise_interiorGaps hstep hsorted, ?_⟩, ?_, ?_⟩
  · cases leadingGap start stop first <;> simp
  · intro i hi j hj
    obtain ⟨rfl, -⟩ := (leadingGap_eq_some hwindow).mp (Option.mem_toList.mp hi)
    obtain ⟨-, -, -, hafter, -⟩ := mem_interiorGaps hstep hsorted hj
    exact (min_le_left _ _).trans (by omega)
  · cases trailingStart step start stop (rest.getLastD first) <;> simp
  · intro i hi j hj
    obtain ⟨tail, htail, rfl⟩ := mem_map.mp hj
    obtain ⟨rfl, -⟩ := trailingStart_eq_some.mp (Option.mem_toList.mp htail)
    have hbefore : i.2 ≤ rest.getLastD first := by
      rcases mem_append.mp hi with hi | hi
      · obtain ⟨rfl, -⟩ := (leadingGap_eq_some hwindow).mp (Option.mem_toList.mp hi)
        exact (min_le_left _ _).trans (hlast first mem_cons_self)
      · obtain ⟨-, -, -, -, bar, hbar, hle⟩ := mem_interiorGaps hstep hsorted hi
        exact hle.trans (hlast bar (mem_cons_of_mem _ hbar))
    exact hbefore.trans (by omega)

/-- **The absences are the uncovered instants of the window.** -/
theorem covered_windowGaps {t : ℤ} :
    t ∈ covered (windowGaps step start stop first rest) ↔
      (start ≤ t ∧ t < stop) ∧ Uncovered step (first :: rest) t := by
  have hlast := le_getLastD hsorted
  have hmem : rest.getLastD first ∈ first :: rest := getLastD_mem_cons
  have hfirst : ∀ bar ∈ first :: rest, first ≤ bar := by
    intro bar hbar
    rcases mem_cons.mp hbar with rfl | hbar
    · exact le_rfl
    · exact ((pairwise_cons.mp hsorted).1 bar hbar).le
  constructor
  · rintro ⟨gap, hgap, hlow, hhigh⟩
    rcases (mem_windowGaps hwindow).mp hgap with ⟨rfl, -⟩ | hinner | ⟨rfl, -⟩
    · simp only [lt_min_iff] at hhigh
      refine ⟨⟨hlow, hhigh.2⟩, ?_⟩
      intro bar hbar
      have := hfirst bar hbar; omega
    · obtain ⟨hin, -, -, hfree⟩ := (covered_interiorGaps hstep hsorted).mp ⟨gap, hinner, hlow, hhigh⟩
      exact ⟨hin, hfree⟩
    · simp only [max_le_iff] at hlow
      refine ⟨⟨hlow.2, hhigh⟩, ?_⟩
      intro bar hbar
      have := hlast bar hbar; omega
  · rintro ⟨⟨hlow, hhigh⟩, hfree⟩
    rcases lt_or_ge t first with hbefore | hafter
    · refine ⟨_, (mem_windowGaps hwindow).mpr (Or.inl ⟨rfl, hlow.trans_lt hbefore⟩), hlow, ?_⟩
      exact lt_min hbefore hhigh
    rcases lt_or_ge t (rest.getLastD first) with hinside | hbehind
    · have hrest : ∃ bar ∈ rest, t < bar := by
        rcases mem_cons.mp hmem with heq | hmem
        · omega
        · exact ⟨_, hmem, hinside⟩
      obtain ⟨gap, hgap, hin⟩ := (covered_interiorGaps hstep hsorted).mpr ⟨⟨hlow, hhigh⟩, hafter, hrest, hfree⟩
      exact ⟨gap, (mem_windowGaps hwindow).mpr (Or.inr (Or.inl hgap)), hin⟩
    · have htail := hfree _ hmem
      refine ⟨_, (mem_windowGaps hwindow).mpr (Or.inr (Or.inr ⟨rfl, by omega⟩)), ?_, hhigh⟩
      exact max_le (by omega) hlow

end

end Window

/-! ## The records of a symbol -/

section Symbol

variable {symbol : String} {plane : SourceGapPlane} {start stop : ℤ}

theorem planeStep_pos (plane : SourceGapPlane) : 0 < planeStep plane := by
  cases plane <;> decide

theorem dvd_planeStep (plane : SourceGapPlane) : 1000 ∣ planeStep plane := by
  cases plane <;> decide

theorem toPydatetime_of_dvd {t : ℤ} (h : 1000 ∣ t) : toPydatetime t = t := Int.ediv_mul_cancel h

def SourceGapInterval.span (stop : ℤ) (iv : SourceGapInterval) : ℤ × ℤ := (iv.start, iv.stop.getD stop)

def observedBars : Option LakeFrame → Option (List ℤ)
  | none => some []
  | some frame => readBarTimes frame

theorem pairwise_readBarTimes {frame : LakeFrame} {bars : List ℤ} (h : readBarTimes frame = some bars) :
    bars.Pairwise (· < ·) := by
  have hsorted : ∀ l : List ℤ, (sortBy id l.dedup).Pairwise (· < ·) := by
    intro l
    have hnodup : (sortBy id l.dedup).Nodup := (perm_sortBy id l.dedup).nodup_iff.mpr (nodup_dedup l)
    refine (List.Pairwise.and (pairwise_sortBy id l.dedup) hnodup).imp ?_
    rintro a b ⟨hle, hne⟩; exact lt_of_le_of_ne hle hne
  cases frame with
  | timestamp millis | datetime stamps =>
    cases h; exact hsorted _
  | untimed rows =>
    rw [readBarTimes] at h
    split at h
    · cases h; exact List.Pairwise.nil
    · cases h

/-- The records are apart, in order and not empty, inside the window, together the instants that no
bar covers, and open at the end exactly where no bar follows. -/
structure ExactComplement (plane : SourceGapPlane) (start stop : ℤ) (bars : List ℤ)
    (gaps : List SourceGapInterval) :
    Prop where
  apart : gaps.Pairwise fun a b => (a.span stop).2 ≤ (b.span stop).1
  bounds : ∀ iv ∈ gaps, start ≤ (iv.span stop).1 ∧ (iv.span stop).1 < (iv.span stop).2 ∧ (iv.span stop).2 ≤ stop
  complement : ∀ t, (∃ iv ∈ gaps, (iv.span stop).1 ≤ t ∧ t < (iv.span stop).2) ↔
    (start ≤ t ∧ t < stop) ∧ ∀ bar ∈ bars, ¬ (bar ≤ t ∧ t < bar + planeStep plane)
  openEnd : ∀ iv ∈ gaps, iv.stop = none ↔ ∀ bar ∈ bars, bar < iv.start

theorem span_absence {low : ℤ} {finish : Option ℤ} {extent : SourceGapExtent} (hlow : 1000 ∣ low)
    (hfinish : ∀ t ∈ finish, 1000 ∣ t) :
    (absence symbol plane stop low finish extent).span stop = (low, finish.getD stop) := by
  have hstart : toPydatetime low = low := toPydatetime_of_dvd hlow
  cases finish with
  | none => simp only [SourceGapInterval.span, absence, hstart, Option.map_none, Option.getD_none]
  | some t =>
    have ht : toPydatetime t = t := toPydatetime_of_dvd (hfinish t rfl)
    simp only [SourceGapInterval.span, absence, hstart, ht, Option.map_some, Option.getD_some]

section Observed

variable {first : ℤ} {rest : List ℤ} (hwindow : start < stop) (hstart : 1000 ∣ start) (hstop : 1000 ∣ stop)
  (hwhole : ∀ bar ∈ first :: rest, 1000 ∣ bar)

include hstart hwhole in
theorem dvd_tailStart : 1000 ∣ max (rest.getLastD first + planeStep plane) start := by
  rcases max_choice (rest.getLastD first + planeStep plane) start with h | h <;> rw [h]
  · exact Int.dvd_add (hwhole _ getLastD_mem_cons) (dvd_planeStep plane)
  · exact hstart

include hwindow hstart hstop hwhole

theorem span_observedAbsences :
    ((observedAbsences symbol plane stop start first rest).map (SourceGapInterval.span stop)).Perm
      (windowGaps (planeStep plane) start stop first rest) := by
  have hinner : (interiorGaps (planeStep plane) start stop first rest).map (fun gap =>
      (absence symbol plane stop gap.1 (some gap.2) .interior).span stop) =
      interiorGaps (planeStep plane) start stop first rest := by
    refine (map_congr_left ?_).trans (map_id _)
    intro gap hgap
    obtain ⟨hlow, hhigh⟩ := dvd_interiorGaps (planeStep_pos plane) (dvd_planeStep plane) hstart hstop hwhole hgap
    rw [span_absence hlow (by simpa using hhigh)]; rfl
  have hlead : (leadingGap start stop first).toList.map (fun gap =>
      (absence symbol plane stop gap.1 (some gap.2) .listingEdge).span stop) =
      (leadingGap start stop first).toList := by
    refine (map_congr_left ?_).trans (map_id _)
    intro gap hgap
    obtain ⟨rfl, -⟩ := (leadingGap_eq_some hwindow).mp (Option.mem_toList.mp hgap)
    have hmin : 1000 ∣ min first stop := by
      rcases min_choice first stop with h | h <;> rw [h]
      · exact hwhole first mem_cons_self
      · exact hstop
    rw [span_absence hstart (by simpa using hmin)]; rfl
  have htail : (trailingStart (planeStep plane) start stop (rest.getLastD first)).toList.map (fun tail =>
      (absence symbol plane stop tail none .openEdge).span stop) =
      (trailingStart (planeStep plane) start stop (rest.getLastD first)).toList.map fun tail => (tail, stop) := by
    refine map_congr_left ?_
    intro tail hmem
    obtain ⟨rfl, -⟩ := trailingStart_eq_some.mp (Option.mem_toList.mp hmem)
    rw [span_absence (dvd_tailStart hstart hwhole) (by simp)]; rfl
  rw [observedAbsences, map_append, map_append, map_map, map_map, map_map]
  change (List.map _ _ ++ List.map _ _ ++ List.map _ _).Perm _
  refine List.Perm.append ?_ (List.Perm.of_eq htail)
  refine perm_append_comm.trans (List.Perm.append (List.Perm.of_eq hlead) (List.Perm.of_eq hinner))

theorem openEnd_observedAbsences (hsorted : (first :: rest).Pairwise (· < ·)) :
    ∀ iv ∈ observedAbsences symbol plane stop start first rest,
      iv.stop = none ↔ ∀ bar ∈ first :: rest, bar < iv.start := by
  intro iv hiv
  have hlast := le_getLastD hsorted
  rcases mem_append.mp hiv with hiv | hiv
  · rcases mem_append.mp hiv with hiv | hiv
    · obtain ⟨gap, hgap, rfl⟩ := mem_map.mp hiv
      obtain ⟨hlow, -⟩ := dvd_interiorGaps (planeStep_pos plane) (dvd_planeStep plane) hstart hstop hwhole hgap
      obtain ⟨-, hpos, -, -, bar, hbar, hle⟩ := mem_interiorGaps (planeStep_pos plane) hsorted hgap
      simp only [absence, Option.map_some, reduceCtorEq, false_iff, toPydatetime_of_dvd hlow]
      intro hall
      have := hall bar (mem_cons_of_mem _ hbar); omega
    · obtain ⟨gap, hgap, rfl⟩ := mem_map.mp hiv
      obtain ⟨rfl, hlt⟩ := (leadingGap_eq_some hwindow).mp (Option.mem_toList.mp hgap)
      simp only [absence, Option.map_some, reduceCtorEq, false_iff, toPydatetime_of_dvd hstart]
      intro hall
      have := hall first mem_cons_self; omega
  · obtain ⟨tail, htail, rfl⟩ := mem_map.mp hiv
    obtain ⟨rfl, -⟩ := trailingStart_eq_some.mp (Option.mem_toList.mp htail)
    have hpos := planeStep_pos plane
    simp only [absence, Option.map_none, true_iff, toPydatetime_of_dvd (dvd_tailStart hstart hwhole)]
    intro bar hbar
    have := hlast bar hbar; omega

theorem exactComplement_observed (hsorted : (first :: rest).Pairwise (· < ·)) :
    ExactComplement plane start stop (first :: rest)
      (sortBy SourceGapInterval.sortKey (observedAbsences symbol plane stop start first rest)) := by
  have hstep := planeStep_pos plane
  have hsort := perm_sortBy SourceGapInterval.sortKey (observedAbsences symbol plane stop start first rest)
  have hperm : ((sortBy SourceGapInterval.sortKey (observedAbsences symbol plane stop start first rest)).map
      (SourceGapInterval.span stop)).Perm (windowGaps (planeStep plane) start stop first rest) :=
    (hsort.map _).trans (span_observedAbsences hwindow hstart hstop hwhole)
  have hbounds := bounds_windowGaps hstep hwindow hsorted
  have hspan : ∀ iv ∈ sortBy SourceGapInterval.sortKey (observedAbsences symbol plane stop start first rest),
      iv.span stop ∈ windowGaps (planeStep plane) start stop first rest :=
    fun iv hiv => hperm.mem_iff.mp (mem_map_of_mem hiv)
  refine ⟨?_, fun iv hiv => hbounds _ (hspan iv hiv), ?_, ?_⟩
  · have hstarts : ((sortBy SourceGapInterval.sortKey (observedAbsences symbol plane stop start first rest)).map
        (SourceGapInterval.span stop)).Pairwise (fun i j => i.1 ≤ j.1) := by
      refine pairwise_map.mpr ((pairwise_sortBy SourceGapInterval.sortKey _).imp ?_)
      intro a b hle
      rcases Prod.Lex.toLex_le_toLex.mp hle with h | h
      · exact h.le
      · exact h.1.le
    have hpos : ∀ gap ∈ windowGaps (planeStep plane) start stop first rest, gap.1 < gap.2 :=
      fun gap hgap => (hbounds gap hgap).2.1
    have happart := pairwise_apart_of_perm hperm hpos (pairwise_windowGaps hstep hwindow hsorted) hstarts
    exact pairwise_map.mp happart
  · intro t
    have hcov := covered_windowGaps (t := t) hstep hwindow hsorted
    rw [← covered_perm hperm] at hcov
    refine Iff.trans ?_ hcov
    constructor
    · rintro ⟨iv, hiv, hin⟩; exact ⟨_, mem_map_of_mem hiv, hin⟩
    · rintro ⟨gap, hgap, hin⟩
      obtain ⟨iv, hiv, rfl⟩ := mem_map.mp hgap; exact ⟨iv, hiv, hin⟩
  · intro iv hiv
    exact openEnd_observedAbsences hwindow hstart hstop hwhole hsorted iv (mem_sortBy.mp hiv)

end Observed

theorem exactComplement_unobserved (hwindow : start < stop) (hstart : 1000 ∣ start) :
    ExactComplement plane start stop [] [absence symbol plane stop start none .openEdge] := by
  have hspan : (absence symbol plane stop start none .openEdge).span stop = (start, stop) :=
    span_absence hstart (by simp)
  refine ⟨pairwise_singleton _ _, ?_, ?_, ?_⟩
  · intro iv hiv
    cases mem_singleton.mp hiv
    rw [hspan]; exact ⟨le_rfl, hwindow, le_rfl⟩
  · intro t
    simp only [mem_singleton, exists_eq_left, hspan, not_mem_nil, false_imp_iff, implies_true, and_true]
  · intro iv hiv; cases mem_singleton.mp hiv; simp [absence]

/-- **On whole microseconds the measured absences are the exact complement of the observed bars.**
-/
theorem measureOneSymbol_complement (symbol : String) (plane : SourceGapPlane) (hwindow : start < stop)
    (hstart : 1000 ∣ start) (hstop : 1000 ∣ stop) {file : Option LakeFrame} {bars : List ℤ}
    (hbars : observedBars file = some bars) (hwhole : ∀ bar ∈ bars, 1000 ∣ bar) :
    ∃ gaps, measureOneSymbol symbol plane stop start file = some gaps ∧
      ExactComplement plane start stop bars gaps := by
  cases file with
  | none =>
    cases hbars; exact ⟨_, rfl, exactComplement_unobserved hwindow hstart⟩
  | some frame =>
    have hread : readBarTimes frame = some bars := hbars
    simp only [measureOneSymbol, hread]
    cases bars with
    | nil => exact ⟨_, rfl, exactComplement_unobserved hwindow hstart⟩
    | cons first rest =>
      exact ⟨_, rfl, exactComplement_observed hwindow hstart hstop hwhole (pairwise_readBarTimes hread)⟩

/-- Two three-minute bars nine minutes apart, in a window of twenty minutes that begins before the
first. -/
theorem measureOneSymbol_complement_two :
    ∃ gaps, measureOneSymbol "BTCUSDT" .ohlcv3m (1200 * 10 ^ 9) 0
        (some (.timestamp [some 780000, some 240000])) = some gaps ∧
      ExactComplement .ohlcv3m 0 (1200 * 10 ^ 9) [240 * 10 ^ 9, 780 * 10 ^ 9] gaps :=
  measureOneSymbol_complement "BTCUSDT" .ohlcv3m (by decide) (by decide) (by decide) (by decide +kernel) (by decide)

/-- A bar one nanosecond after the start of the window leaves an absence before it that is an empty
record. -/
theorem measureOneSymbol_offMicrosecond :
    observedBars (some (.datetime [some 1])) = some [1] ∧
      ∃ gaps, measureOneSymbol "BTCUSDT" .ohlcv3m (600 * 10 ^ 9) 0 (some (.datetime [some 1])) = some gaps ∧
        ¬ ExactComplement .ohlcv3m 0 (600 * 10 ^ 9) [1] gaps := by
  refine ⟨by decide +kernel, [absence "BTCUSDT" .ohlcv3m (600 * 10 ^ 9) 0 (some 1) .listingEdge,
    absence "BTCUSDT" .ohlcv3m (600 * 10 ^ 9) (180 * 10 ^ 9 + 1) none .openEdge], by decide +kernel, ?_⟩
  intro hexact
  have hbounds := hexact.bounds _ mem_cons_self; exact absurd hbounds.2.1 (by decide)

end Symbol

end CryptoPilot.Archive
