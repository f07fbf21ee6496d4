/- # Coverage — attested wall-clock coverage.

A tracker attests the time between successful returns of a stream with no transport error between
them (`src/market_data/streams/coverage.py`).  A flush appends what was attested since the last one,
cut at UTC midnight, as lines to a file per day; `load_coverage` merges the lines of all days.  A
process that dies goes on from its last checkpoint, and its lines still attest what the journal does
(`coverage_attested`).  Instants are nanoseconds. -/
import CryptoPilot.Lib.Intervals
import CryptoPilot.Streams.Snapshots
import Mathlib.Data.Int.ConditionallyCompleteOrder

namespace CryptoPilot.Streams

open CryptoPilot.Lib List

/-! # The tracker -/

/-- The open segment; its three instants are set and cleared together. -/
structure Segment where
  start : ℤ
  last : ℤ
  /-- Up to where the segment is persisted. -/
  cursor : ℤ
  deriving DecidableEq, Repr

/-- `CoverageTracker`. -/
structure Tracker where
  segment : Option Segment
  closed : List (ℤ × ℤ)
  deriving DecidableEq, Repr

/-- `CoverageTrackerState`: `(open_last, cursor)` of the open segment. -/
abbrev TrackerState : Type := Option (ℤ × ℤ)

namespace Tracker

def restore : TrackerState → Tracker
  | none => ⟨none, []⟩
  | some (last, cursor) => ⟨some ⟨cursor, last, cursor⟩, []⟩

def markOk (t : Tracker) (ts : ℤ) : Except CycleError Tracker :=
  match t.segment with
  | none => .ok { t with segment := some ⟨ts, ts, ts⟩ }
  | some s => if ts < s.last then .error .notMonotone else .ok { t with segment := some { s with last := ts } }

def pendingOf (s : Segment) : List (ℤ × ℤ) := if s.cursor < s.last then [(s.cursor, s.last)] else []

def markError (t : Tracker) : Tracker :=
  match t.segment with
  | none => t
  | some s => ⟨none, t.closed ++ pendingOf s⟩

/-- The intervals that `flush` persists, `_pending` last. -/
def intervals (t : Tracker) : List (ℤ × ℤ) := t.closed ++ t.segment.elim [] pendingOf

/-- The tracker after `flush`. -/
def flushed (t : Tracker) : Tracker := ⟨t.segment.map (fun s => { s with cursor := max s.cursor s.last }), []⟩

/-- `snapshot_state`; the closed segments were flushed. -/
def snapshotState (t : Tracker) : TrackerState := t.segment.map (fun s => (s.last, s.cursor))

end Tracker

/-! # The lines -/

def dayNs : ℤ := 86400 * 10 ^ 9

/-- The loop of `_split_at_midnight`, with as much fuel as there are days. -/
def splitFrom (stop : ℤ) : ℕ → ℤ → List (ℤ × ℤ)
  | 0, _ => []
  | fuel + 1, cursor =>
    if cursor < stop then
      let pieceEnd := min ((cursor / dayNs + 1) * dayNs) stop
      (cursor, pieceEnd) :: splitFrom stop fuel pieceEnd
    else []

def splitAtMidnight (i : ℤ × ℤ) : List (ℤ × ℤ) := splitFrom i.2 (i.2 / dayNs - i.1 / dayNs + 1).toNat i.1

def dayOf (i : ℤ × ℤ) : ℤ := i.1 / dayNs

def clip (start stop : ℤ) (i : ℤ × ℤ) : ℤ × ℤ := (max i.1 start, min i.2 stop)

/-- `load_coverage`: the lines of the day files in turn, clipped and merged. -/
def loadCoverage (lines : List (ℤ × ℤ)) (start stop : ℤ) : List (ℤ × ℤ) :=
  if stop ≤ start then []
  else mergeTouching (sortIntervals (((sortBy dayOf lines).map (clip start stop)).filter (fun i => i.1 < i.2)))

theorem covered_splitFrom {stop : ℤ} {fuel : ℕ} {cursor : ℤ} (h : stop / dayNs < cursor / dayNs + fuel) :
    covered (splitFrom stop fuel cursor) = Set.Ico cursor stop := by
  induction fuel generalizing cursor with
  | zero =>
    have hlt : stop < cursor := by
      by_contra hle
      have := Int.ediv_le_ediv (show 0 < dayNs by decide) (not_lt.mp hle)
      omega
    simp [splitFrom, Set.Ico_eq_empty (not_lt.mpr hlt.le)]
  | succ fuel ih =>
    rw [splitFrom]
    split
    · rw [covered_cons]
      have hday := Int.lt_ediv_add_one_mul_self cursor (show 0 < dayNs by decide)
      rcases le_total stop ((cursor / dayNs + 1) * dayNs) with hstop | hnext
      · have hend : splitFrom stop fuel stop = [] := by cases fuel <;> simp [splitFrom]
        simp [min_eq_right hstop, hend]
      · rw [min_eq_left hnext, ih (by rw [Int.mul_ediv_cancel _ (by decide)]; omega),
          Set.Ico_union_Ico_eq_Ico hday.le hnext]
    · next hle => simp [Set.Ico_eq_empty hle]

theorem covered_splitAtMidnight (i : ℤ × ℤ) : covered (splitAtMidnight i) = Set.Ico i.1 i.2 := by
  by_cases h : i.1 / dayNs ≤ i.2 / dayNs
  · exact covered_splitFrom (by omega)
  · have hlt : i.2 ≤ i.1 := not_lt.mp fun hlt => h (Int.ediv_le_ediv (by decide) hlt.le)
    have hfuel : (i.2 / dayNs - i.1 / dayNs + 1).toNat = 0 := by omega
    simp [splitAtMidnight, hfuel, splitFrom, hlt]

/-- **`load_coverage` reports exactly what the lines attest of its range.** -/
theorem covered_loadCoverage (lines : List (ℤ × ℤ)) (start stop : ℤ) :
    covered (loadCoverage lines start stop) = covered lines ∩ Set.Ico start stop := by
  rw [loadCoverage]
  split
  · next h => simp [Set.Ico_eq_empty (not_lt.mpr h)]
  · rw [(mergeTouching_spec (by simp)).1, ← covered_perm (perm_sortBy dayOf lines)]
    exact covered_clip _ start stop

theorem apart_loadCoverage (lines : List (ℤ × ℤ)) (start stop : ℤ) : Apart (loadCoverage lines start stop) := by
  rw [loadCoverage]
  split
  · exact ⟨nofun, .nil⟩
  · exact (mergeTouching_spec (by simp)).2

/-- **The table is the normal form of what is attested on the range**: flushes, cuts and restarts
leave no trace. -/
theorem loadCoverage_canonical (lines lines' : List (ℤ × ℤ)) (start stop : ℤ) :
    Apart (loadCoverage lines start stop) ∧ (loadCoverage lines start stop = loadCoverage lines' start stop ↔
      covered lines ∩ Set.Ico start stop = covered lines' ∩ Set.Ico start stop) := by
  rw [← covered_loadCoverage, ← covered_loadCoverage]
  exact ⟨apart_loadCoverage .., congrArg covered, (apart_loadCoverage ..).eq_of_covered (apart_loadCoverage ..)⟩
/-! # A tracker over a journal -/

/-- What the records of a stream mark, in the order of the journal. -/
inductive Mark where
  | ok (ts : ℤ)
  | error

/-- What marks attest behind an open segment that ends at `last`: the time between successful
returns with no error between them. -/
def attested : Option ℤ → List Mark → List (ℤ × ℤ)
  | _, [] => []
  | _, .error :: rest => attested none rest
  | none, .ok ts :: rest => attested (some ts) rest
  | some last, .ok ts :: rest => (last, ts) :: attested (some ts) rest

def openLast : Option ℤ → List Mark → Option ℤ
  | last, [] => last
  | _, .error :: rest => openLast none rest
  | _, .ok ts :: rest => openLast (some ts) rest

def Tracker.mark (t : Tracker) : Mark → Except CycleError Tracker
  | .ok ts => t.markOk ts
  | .error => .ok t.markError

/-- The lines of `flush`. -/
def Tracker.flushLines (t : Tracker) : List (ℤ × ℤ) := t.intervals.flatMap splitAtMidnight

/-- A process that marks a journal, with what is on disk: a state and its position, and the lines.
-/
structure Attestor where
  tracker : Tracker
  position : ℕ
  saved : TrackerState × ℕ
  lines : List (ℤ × ℤ)

inductive CoverageStep where
  | mark
  | flush
  | save
  /-- Death in a flush, behind so many lines, and a restart. -/
  | dies (written : ℕ)

namespace Attestor

variable (marks : List Mark)

def step (s : Attestor) : CoverageStep → Attestor
  | .mark =>
    match marks[s.position]?.map s.tracker.mark with
    | some (.ok t) => { s with tracker := t, position := s.position + 1 }
    | _ => s
  | .flush => { s with tracker := s.tracker.flushed, lines := s.lines ++ s.tracker.flushLines }
  | .save => if s.tracker.closed = [] then { s with saved := (s.tracker.snapshotState, s.position) } else s
  | .dies written =>
    { s with
      tracker := Tracker.restore s.saved.1
      position := s.saved.2
      lines := s.lines ++ s.tracker.flushLines.take written }

def run (steps : List CoverageStep) : Attestor := steps.foldl (step marks) ⟨⟨none, []⟩, 0, (none, 0), []⟩

/-- A tracker at a position: its segment is the open one, and with the lines it has what is attested
up to there, and nothing else. -/
structure Follows (lines : List (ℤ × ℤ)) (t : Tracker) (n : ℕ) : Prop where
  last : t.segment.map Segment.last = openLast none (marks.take n)
  cursor : ∀ p ∈ t.segment, p.cursor ≤ p.last
  sound : covered lines ∪ covered t.intervals ⊆ covered (attested none marks)
  complete : covered (attested none (marks.take n)) ⊆ covered lines ∪ covered t.intervals

def Sound (s : Attestor) : Prop :=
  Follows marks s.lines s.tracker s.position ∧ Follows marks s.lines (Tracker.restore s.saved.1) s.saved.2

variable {marks} {s : Attestor} {t t' : Tracker} {n : ℕ} {m : Mark} {lines : List (ℤ × ℤ)}

theorem attested_append (xs ys : List Mark) (o : Option ℤ) :
    attested o (xs ++ ys) = attested o xs ++ attested (openLast o xs) ys := by
  induction xs generalizing o with
  | nil => rfl
  | cons m xs ih => cases m <;> cases o <;> simp [attested, openLast, ih]

theorem openLast_append (xs ys : List Mark) (o : Option ℤ) :
    openLast o (xs ++ ys) = openLast (openLast o xs) ys := by
  induction xs generalizing o with
  | nil => rfl
  | cons m xs ih => cases m <;> exact ih _

theorem covered_intervals (t : Tracker) :
    covered t.intervals = covered t.closed ∪ t.segment.elim ∅ fun p => Set.Ico p.cursor p.last := by
  rw [Tracker.intervals, covered_append]
  cases t.segment with
  | none => simp
  | some p =>
    simp only [Option.elim_some, Tracker.pendingOf]
    split
    · simp [covered_cons]
    · next h => simp [Set.Ico_eq_empty h]

theorem covered_flushLines (t : Tracker) : covered t.flushLines = covered t.intervals := by
  rw [Tracker.flushLines]
  induction t.intervals with
  | nil => rfl
  | cons i rest ih => rw [flatMap_cons, covered_append, covered_splitAtMidnight, ih, covered_cons]

/-- **One mark.** -/
theorem mark_spec (hcursor : ∀ p ∈ t.segment, p.cursor ≤ p.last) (ht : t.mark m = .ok t') :
    t'.segment.map Segment.last = openLast (t.segment.map Segment.last) [m] ∧
      (∀ p ∈ t'.segment, p.cursor ≤ p.last) ∧
      covered t'.intervals = covered t.intervals ∪ covered (attested (t.segment.map Segment.last) [m]) := by
  obtain ⟨segment, closed⟩ := t
  cases m with
  | error =>
    cases ht
    cases segment <;> simp [Tracker.markError, openLast, attested, Tracker.intervals]
  | ok ts =>
    cases segment with
    | none =>
      cases ht; simp [openLast, attested, covered_intervals]
    | some p =>
      rw [Tracker.mark, Tracker.markOk] at ht
      dsimp only at ht
      split at ht
      · cases ht
      · next hle =>
        cases ht
        have hp := hcursor p rfl
        have hts := not_lt.mp hle
        refine ⟨rfl, by simpa using hp.trans hts, ?_⟩
        simp [covered_intervals, attested, covered_cons, Set.union_assoc, Set.Ico_union_Ico_eq_Ico hp hts]

section

variable (h : Follows marks lines t n)

include h

theorem Follows.mark (hm : marks[n]? = some m) (ht : t.mark m = .ok t') :
    Follows marks lines t' (n + 1) := by
  obtain ⟨hlast, hcursor, hintervals⟩ := mark_spec h.cursor ht
  have htake : marks.take (n + 1) = marks.take n ++ [m] := by rw [take_add_one, hm]; rfl
  have hprefix : covered (attested none (marks.take (n + 1))) ⊆ covered (attested none marks) := by
    conv_rhs => rw [← take_append_drop (n + 1) marks, attested_append, covered_append]
    exact Set.subset_union_left
  rw [h.last] at hlast hintervals
  rw [htake, attested_append, covered_append, Set.union_subset_iff] at hprefix
  refine ⟨by rw [htake, openLast_append, hlast], hcursor, ?_, ?_⟩ <;> rw [hintervals, ← Set.union_assoc]
  · exact Set.union_subset h.sound hprefix.2
  · rw [htake, attested_append, covered_append]; exact Set.union_subset_union_left _ h.complete

theorem Follows.grow {more : List (ℤ × ℤ)} (hmore : covered more ⊆ covered (attested none marks)) :
    Follows marks (lines ++ more) t n := by
  refine ⟨h.last, h.cursor, ?_, ?_⟩ <;> rw [covered_append, Set.union_right_comm]
  · exact Set.union_subset h.sound hmore
  · exact h.complete.trans Set.subset_union_left

theorem Follows.flush : Follows marks (lines ++ t.flushLines) t.flushed n := by
  have hflushed : covered t.flushed.intervals = ∅ := by
    rw [covered_intervals]
    obtain ⟨_ | p, closed⟩ := t <;> simp [Tracker.flushed]
  refine ⟨?_, ?_, ?_, ?_⟩
  · rw [← h.last, Tracker.flushed]
    cases t.segment <;> rfl
  · obtain ⟨_ | p, closed⟩ := t
    · nofun
    · rintro _ ⟨⟩; exact max_le (h.cursor p rfl) le_rfl
  all_goals rw [hflushed, Set.union_empty, covered_append, covered_flushLines]
  · exact h.sound
  · exact h.complete

end

theorem Follows.restore (h : Follows marks lines t n) (hclosed : t.closed = []) :
    Follows marks lines (Tracker.restore t.snapshotState) n := by
  obtain ⟨_ | p, closed⟩ := t <;> cases hclosed
  · exact ⟨h.last, nofun, h.sound, h.complete⟩
  · refine ⟨h.last, ?_, h.sound, h.complete⟩
    rintro _ ⟨⟩; exact h.cursor p rfl

theorem step_sound (h : Sound marks s) (c : CoverageStep) : Sound marks (s.step marks c) := by
  have hflush : covered s.tracker.flushLines ⊆ covered (attested none marks) := by
    rw [covered_flushLines]; exact Set.subset_union_right.trans h.1.sound
  cases c with
  | mark =>
    rw [step]
    cases hm : marks[s.position]? with
    | none => exact h
    | some m =>
      cases ht : s.tracker.mark m with
      | error e => simpa [ht] using h
      | ok t => simpa [ht] using ⟨h.1.mark hm ht, h.2⟩
  | flush => exact ⟨h.1.flush, h.2.grow hflush⟩
  | save =>
    rw [step]
    split
    · next hclosed => exact ⟨h.1, h.1.restore hclosed⟩
    · exact h
  | dies written =>
    have htake : covered (s.tracker.flushLines.take written) ⊆ covered (attested none marks) := by
      rintro x ⟨i, hi, hx⟩; exact hflush ⟨i, mem_of_mem_take hi, hx⟩
    exact ⟨h.2.grow htake, h.2.grow htake⟩

theorem run_concat (steps : List CoverageStep) (c : CoverageStep) :
    run marks (steps ++ [c]) = (run marks steps).step marks c := by
  rw [run, foldl_append]; rfl

theorem run_sound (steps : List CoverageStep) : Sound marks (run marks steps) := by
  induction steps using reverseRecOn with
  | nil =>
    have hstart : Follows marks [] ⟨none, []⟩ 0 := by constructor <;> simp [openLast, attested, Tracker.intervals]
    exact ⟨hstart, hstart⟩
  | append_singleton steps c ih => exact run_concat steps c ▸ step_sound ih c

end Attestor

/-- **Coverage is what the marks attest**, whatever is flushed and saved and wherever the process
dies: the lines of a run report nothing else, and behind a flush all that the marks up to its
position attest. -/
theorem coverage_attested (marks : List Mark) (steps : List CoverageStep) (start stop : ℤ) :
    covered (loadCoverage (Attestor.run marks steps).lines start stop) ⊆ covered (attested none marks) ∧
      covered (attested none (marks.take (Attestor.run marks steps).position)) ∩ Set.Ico start stop ⊆
        covered (loadCoverage (Attestor.run marks (steps ++ [.flush])).lines start stop) := by
  obtain ⟨h, -⟩ : Attestor.Sound marks (Attestor.run marks steps) := Attestor.run_sound steps
  rw [covered_loadCoverage, covered_loadCoverage, Attestor.run_concat]
  constructor
  · exact Set.inter_subset_left.trans (Set.subset_union_left.trans h.sound)
  · refine Set.inter_subset_inter_left _ (h.complete.trans ?_)
    rw [← Attestor.covered_flushLines, ← covered_append]; exact subset_rfl

end CryptoPilot.Streams
