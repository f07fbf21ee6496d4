/- # Intervals — half-open intervals and the points they cover.

Intervals `[s, e)` sorted by start are merged in one sweep where they touch or overlap.  Intervals
that are apart stay apart when they are sorted, and the points of a list do not depend on its order.
-/
import CryptoPilot.Lib.Timeline
import Mathlib.Data.Prod.Lex
import Mathlib.Order.Interval.Set.LinearOrder

namespace CryptoPilot.Lib

variable {α : Type} [LinearOrder α]

def covered (l : List (α × α)) : Set α := {t | ∃ i ∈ l, i.1 ≤ t ∧ t < i.2}

/-- The sweep: an interval that begins by the end of the current one extends it. -/
def sweep (cur : α × α) : List (α × α) → List (α × α)
  | [] => [cur]
  | i :: rest => if i.1 ≤ cur.2 then sweep (cur.1, max cur.2 i.2) rest else cur :: sweep i rest

def sortIntervals (l : List (α × α)) : List (α × α) := sortBy toLex l

def mergeTouching : List (α × α) → List (α × α)
  | [] => []
  | i :: rest => sweep i rest

@[simp] theorem covered_nil : covered ([] : List (α × α)) = ∅ := by
  simp [covered]

theorem covered_cons (i : α × α) (l : List (α × α)) : covered (i :: l) = Set.Ico i.1 i.2 ∪ covered l := by
  ext t; simp [covered]

theorem covered_append (l m : List (α × α)) : covered (l ++ m) = covered l ∪ covered m := by
  ext t
  constructor
  · rintro ⟨i, hi, h⟩
    rcases List.mem_append.mp hi with hi | hi
    · exact Or.inl ⟨i, hi, h⟩
    · exact Or.inr ⟨i, hi, h⟩
  · rintro (⟨i, hi, h⟩ | ⟨i, hi, h⟩)
    · exact ⟨i, List.mem_append_left _ hi, h⟩
    · exact ⟨i, List.mem_append_right _ hi, h⟩

/-! # Intervals apart from one another, in any order -/

variable {l m : List (α × α)}

theorem pairwise_apart_of_perm (hperm : l.Perm m) (hpos : ∀ i ∈ m, i.1 < i.2)
    (hm : m.Pairwise (fun i j => i.2 ≤ j.1)) (hl : l.Pairwise (fun i j => i.1 ≤ j.1)) :
    l.Pairwise (fun i j => i.2 ≤ j.1) := by
  have hsymm : ∀ {i j : α × α}, (i.2 ≤ j.1 ∨ j.2 ≤ i.1) → (j.2 ≤ i.1 ∨ i.2 ≤ j.1) := Or.symm
  have heither : l.Pairwise (fun i j => i.2 ≤ j.1 ∨ j.2 ≤ i.1) := (hperm.pairwise_iff hsymm).mpr (hm.imp Or.inl)
  refine List.Pairwise.imp_of_mem ?_ (heither.and hl)
  rintro i j hi hj ⟨hij | hji, hle⟩
  · exact hij
  · exact absurd (hji.trans hle) (not_le.mpr (hpos j (hperm.mem_iff.mp hj)))

theorem covered_perm (hperm : l.Perm m) : covered l = covered m := by
  simp only [covered, hperm.mem_iff]

theorem covered_clip (l : List (α × α)) (a b : α) :
    covered ((l.map fun i => (max i.1 a, min i.2 b)).filter fun i => i.1 < i.2) = covered l ∩ Set.Ico a b := by
  induction l with
  | nil => simp
  | cons i l ih =>
    rw [covered_cons, Set.union_inter_distrib_right, Set.Ico_inter_Ico, ← ih, List.map_cons, List.filter_cons]
    split
    · exact covered_cons _ _
    · next h => rw [Set.Ico_eq_empty fun hlt => h (decide_eq_true hlt), Set.empty_union]

/-! # Intervals with gaps between them -/

/-- Intervals in order, none of them empty, with a gap between any two. -/
def Apart (l : List (α × α)) : Prop := (∀ i ∈ l, i.1 < i.2) ∧ l.Pairwise fun i j => i.2 < j.1

theorem apart_cons {i : α × α} {l : List (α × α)} :
    Apart (i :: l) ↔ i.1 < i.2 ∧ (∀ j ∈ l, i.2 < j.1) ∧ Apart l := by
  simp only [Apart, List.forall_mem_cons, List.pairwise_cons]
  tauto

/-- **The sweep keeps the points**, in intervals apart. -/
theorem sweep_spec {cur : α × α} {rest : List (α × α)} (hpos : ∀ i ∈ cur :: rest, i.1 < i.2)
    (hsorted : (cur :: rest).Pairwise fun i j => i.1 ≤ j.1) :
    covered (sweep cur rest) = covered (cur :: rest) ∧ Apart (sweep cur rest) ∧
      ∀ i ∈ sweep cur rest, cur.1 ≤ i.1 := by
  induction rest generalizing cur with
  | nil => exact ⟨rfl, by simpa [sweep, Apart] using hpos⟩
  | cons i rest ih =>
    obtain ⟨hcur, hrest⟩ := List.forall_mem_cons.mp hpos
    obtain ⟨hfirst, hlater⟩ := List.pairwise_cons.mp hsorted
    have hi := hfirst i List.mem_cons_self
    rw [sweep]
    split
    · next htouch =>
      obtain ⟨hcovered, happart⟩ := @ih (cur.1, max cur.2 i.2)
        (List.forall_mem_cons.mpr ⟨lt_max_of_lt_left hcur, (List.forall_mem_cons.mp hrest).2⟩)
        (List.pairwise_cons.mpr ⟨(List.forall_mem_cons.mp hfirst).2, (List.pairwise_cons.mp hlater).2⟩)
      refine ⟨?_, happart⟩
      rw [hcovered, covered_cons, covered_cons, covered_cons, ← Set.union_assoc, Set.Ico_union_Ico' htouch
        (hi.trans (hrest i List.mem_cons_self).le), min_eq_left hi]
    · next hgap =>
      obtain ⟨hcovered, hapart, hle⟩ := ih hrest hlater
      have hover : ∀ j ∈ sweep i rest, cur.2 < j.1 := fun j hj => (not_le.mp hgap).trans_le (hle j hj)
      exact ⟨by rw [covered_cons, hcovered, ← covered_cons], apart_cons.mpr ⟨hcur, hover, hapart⟩,
        List.forall_mem_cons.mpr ⟨le_rfl, fun j hj => (hcur.trans (hover j hj)).le⟩⟩

theorem mergeTouching_spec {l : List (α × α)} (hpos : ∀ i ∈ l, i.1 < i.2) :
    covered (mergeTouching (sortIntervals l)) = covered l ∧ Apart (mergeTouching (sortIntervals l)) := by
  have hperm : (sortIntervals l).Perm l := perm_sortBy toLex l
  rw [← covered_perm hperm]
  have hpos' : ∀ i ∈ sortIntervals l, i.1 < i.2 := fun i hi => hpos i (hperm.mem_iff.mp hi)
  have hsorted : (sortIntervals l).Pairwise fun i j => i.1 ≤ j.1 :=
    (pairwise_sortBy toLex l).imp fun h => Prod.Lex.monotone_fst _ _ h
  generalize sortIntervals l = sorted at hpos' hsorted
  cases sorted with
  | nil => exact ⟨rfl, nofun, .nil⟩
  | cons i rest => exact (sweep_spec hpos' hsorted).imp_right And.left

/-- The first interval and the points of the others, read off the points of all. -/
theorem Apart.first {i : α × α} {l : List (α × α)} (h : Apart (i :: l)) :
    IsLeast (covered (i :: l)) i.1 ∧ IsLeast {t | i.1 ≤ t ∧ t ∉ covered (i :: l)} i.2 ∧
      covered l = covered (i :: l) ∩ Set.Ioi i.2 := by
  obtain ⟨hi, hover, -⟩ := apart_cons.mp h
  have hlater : ∀ t ∈ covered l, i.2 < t := fun t ⟨j, hj, hle, _⟩ => (hover j hj).trans_le hle
  rw [covered_cons]
  refine ⟨⟨.inl ⟨le_rfl, hi⟩, ?_⟩, ⟨⟨hi.le, ?_⟩, fun t ⟨hle, hnot⟩ => not_lt.mp fun hlt =>
    hnot (.inl ⟨hle, hlt⟩)⟩, ?_⟩
  · rintro t (⟨hle, -⟩ | ht)
    · exact hle
    · exact (hi.trans (hlater t ht)).le
  · rintro (⟨-, hlt⟩ | ht)
    · exact lt_irrefl _ hlt
    · exact lt_irrefl _ (hlater _ ht)
  · ext t
    constructor
    · exact fun ht => ⟨.inr ht, hlater t ht⟩
    · rintro ⟨⟨-, hlt⟩ | ht, hgt⟩
      · exact absurd hgt (lt_asymm hlt)
      · exact ht

/-- **Intervals apart are determined by their points.** -/
theorem Apart.eq_of_covered (hl : Apart l) (hm : Apart m) (h : covered l = covered m) : l = m := by
  induction l generalizing m with
  | nil =>
    cases m with
    | nil => rfl
    | cons j m => exact absurd (h ▸ hm.first.1.1) (by simp)
  | cons i l ih =>
    cases m with
    | nil => exact absurd (h ▸ hl.first.1.1) (by simp)
    | cons j m =>
      obtain ⟨hstart, hend, hrest⟩ := hl.first
      obtain ⟨hstart', hend', hrest'⟩ := hm.first
      rw [h] at hstart hend hrest
      have hfirst : i.1 = j.1 := hstart.unique hstart'
      rw [hfirst] at hend
      obtain rfl : i = j := Prod.ext hfirst (hend.unique hend')
      rw [ih (apart_cons.mp hl).2.2 (apart_cons.mp hm).2.2 (hrest.trans hrest'.symm)]

end CryptoPilot.Lib
