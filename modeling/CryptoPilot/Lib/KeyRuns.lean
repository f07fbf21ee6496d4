/-
# KeyRuns — neighbours of one key summed.

A list of keyed amounts, in the order of their keys, is summed run by run: one entry for each key.
-/
import Mathlib.Algebra.BigOperators.Group.List.Basic
import Mathlib.Algebra.Order.Monoid.Defs
import Mathlib.Algebra.Order.Monoid.Unbundled.Basic

namespace CryptoPilot.Lib

open List Prod

variable {κ M : Type} [LinearOrder κ]

section Sums

variable [AddCommMonoid M]

def consRun (p : κ × M) : List (κ × M) → List (κ × M)
  | [] => [p]
  | r :: more => if p.1 = r.1 then (p.1, p.2 + r.2) :: more else p :: r :: more

/-- The runs of equal neighbouring keys, each with the sum of its amounts. -/
def sumRuns (l : List (κ × M)) : List (κ × M) := l.foldr consRun []

variable (p : κ × M)

@[simp] theorem sumRuns_cons (l : List (κ × M)) : sumRuns (p :: l) = consRun p (sumRuns l) := rfl

variable {l : List (κ × M)}

theorem key_of_mem_consRun {p r : κ × M} (h : r ∈ consRun p l) : r.1 = p.1 ∨ ∃ r' ∈ l, r'.1 = r.1 := by
  cases l with
  | nil => exact Or.inl (congrArg fst (mem_singleton.mp h))
  | cons q more =>
    rw [consRun] at h
    split at h
    · rcases mem_cons.mp h with rfl | h
      · exact Or.inl rfl
      · exact Or.inr ⟨r, mem_cons_of_mem _ h, rfl⟩
    · rcases mem_cons.mp h with rfl | h
      · exact Or.inl rfl
      · exact Or.inr ⟨r, h, rfl⟩

theorem key_of_mem_sumRuns {r : κ × M} (h : r ∈ sumRuns l) : ∃ p ∈ l, p.1 = r.1 := by
  induction l generalizing r with
  | nil => exact absurd h not_mem_nil
  | cons p l ih =>
    rcases key_of_mem_consRun h with hkey | ⟨r', hr', hkey⟩
    · exact ⟨p, mem_cons_self, hkey.symm⟩
    · obtain ⟨q, hq, hqkey⟩ := ih hr'; exact ⟨q, mem_cons_of_mem _ hq, hqkey.trans hkey⟩

theorem pairwise_consRun {p : κ × M} (hl : l.Pairwise fun a b => a.1 < b.1)
    (hle : ∀ r ∈ l, p.1 ≤ r.1) : (consRun p l).Pairwise fun a b => a.1 < b.1 := by
  cases l with
  | nil => exact pairwise_singleton _ _
  | cons r more =>
    obtain ⟨hr, hmore⟩ := pairwise_cons.mp hl
    rw [consRun]
    split
    · next heq => exact List.Pairwise.cons (fun a ha => heq ▸ hr a ha) hmore
    · next hne =>
      refine List.Pairwise.cons ?_ hl
      intro a ha
      have hlt : p.1 < r.1 := lt_of_le_of_ne (hle r mem_cons_self) hne
      rcases mem_cons.mp ha with rfl | ha
      · exact hlt
      · exact hlt.trans (hr a ha)

/-- **The keys of the runs are strictly increasing.** -/
theorem pairwise_sumRuns (hl : l.Pairwise fun a b => a.1 ≤ b.1) : (sumRuns l).Pairwise fun a b => a.1 < b.1 := by
  induction l with
  | nil => exact List.Pairwise.nil
  | cons p l ih =>
    obtain ⟨hp, hrest⟩ := pairwise_cons.mp hl
    refine pairwise_consRun (ih hrest) ?_
    intro r hr
    obtain ⟨q, hq, hkey⟩ := key_of_mem_sumRuns hr; exact hkey ▸ hp q hq

theorem sum_filter_consRun (keep : κ → Bool) (p : κ × M) (l : List (κ × M)) :
    (((consRun p l).filter fun r => keep r.1).map snd).sum =
      (((p :: l).filter fun r => keep r.1).map snd).sum := by
  cases l with
  | nil => rfl
  | cons r more =>
    rw [consRun]
    split
    · next heq =>
      by_cases hkeep : keep p.1 = true
      · have hkeep' : keep r.1 = true := heq ▸ hkeep
        simp only [filter_cons, hkeep, hkeep', if_true, map_cons, sum_cons, add_assoc]
      · have hkeep' : ¬ keep r.1 = true := heq ▸ hkeep
        simp only [filter_cons, hkeep, hkeep', if_false, Bool.false_eq_true]
    · rfl

/-- **The runs keep the sum under every set of keys.** -/
theorem sum_filter_sumRuns (keep : κ → Bool) (l : List (κ × M)) :
    (((sumRuns l).filter fun r => keep r.1).map snd).sum = ((l.filter fun r => keep r.1).map snd).sum := by
  induction l with
  | nil => rfl
  | cons p l ih =>
    rw [sumRuns_cons, sum_filter_consRun]
    simp only [filter_cons]
    split
    · rw [map_cons, map_cons, sum_cons, sum_cons, ih]
    · exact ih

theorem sum_sumRuns (l : List (κ × M)) : ((sumRuns l).map snd).sum = (l.map snd).sum := by
  have h := sum_filter_sumRuns (fun _ => true) l
  simpa using h

/-! ## The last run -/

def addToLast (x : M) : List (κ × M) → List (κ × M)
  | [] => []
  | [p] => [(p.1, p.2 + x)]
  | p :: q :: more => p :: addToLast x (q :: more)

theorem consRun_ne_nil (l : List (κ × M)) : consRun p l ≠ [] := by
  cases l with
  | nil => exact cons_ne_nil _ _
  | cons r more =>
    rw [consRun]
    split <;> exact cons_ne_nil _ _

theorem consRun_addToLast (x : M) : ∀ {l : List (κ × M)}, l ≠ [] →
    consRun p (addToLast x l) = addToLast x (consRun p l)
  | [], h => absurd rfl h
  | [r], _ => by
    rw [addToLast, consRun, consRun]
    split
    · rw [addToLast, add_assoc]
    · rfl
  | r :: s :: more, _ => by
    rw [addToLast, consRun, consRun]
    split <;> rfl

theorem sumRuns_addToLast (x : M) (l : List (κ × M)) : sumRuns (addToLast x l) = addToLast x (sumRuns l) := by
  induction l with
  | nil => rfl
  | cons p l ih =>
    cases l with
    | nil => rfl
    | cons q more =>
      rw [addToLast, sumRuns_cons, ih]; exact consRun_addToLast p x (consRun_ne_nil _ _)

omit [LinearOrder κ] in
theorem addToLast_concat (x : M) (p : κ × M) : ∀ l : List (κ × M), addToLast x (l ++ [p]) = l ++ [(p.1, p.2 + x)]
  | [] | [q] => rfl
  | q :: r :: more => by
    show q :: addToLast x (r :: more ++ [p]) = q :: (r :: more ++ [(p.1, p.2 + x)])
    rw [addToLast_concat x p (r :: more)]

theorem key_getLast?_sumRuns (l : List (κ × M)) : (sumRuns (l ++ [p])).getLast?.map fst = some p.1 := by
  induction l with
  | nil => rfl
  | cons q l ih =>
    rw [cons_append, sumRuns_cons]
    generalize sumRuns (l ++ [p]) = runs at ih
    cases runs with
    | nil => cases ih
    | cons r more =>
      rw [consRun]
      split
      · next heq =>
        cases more with
        | nil => simpa [heq] using ih
        | cons s more => simpa using ih
      · simpa using ih

theorem key_head?_sumRuns : ∀ l : List (κ × M), (sumRuns l).head?.map fst = l.head?.map fst
  | [] => rfl
  | p :: l => by
    rw [sumRuns_cons]
    cases sumRuns l with
    | nil => rfl
    | cons r more =>
      rw [consRun]
      split <;> rfl

end Sums

/-! ## What adds nothing -/

section Ordered

variable [AddCommMonoid M] [LinearOrder M] [IsOrderedAddMonoid M]

variable {l : List (κ × M)}

theorem pos_of_mem_consRun {p r : κ × M} (hp : 0 < p.2) (hl : ∀ q ∈ l, 0 < q.2)
    (h : r ∈ consRun p l) : 0 < r.2 := by
  cases l with
  | nil => exact (mem_singleton.mp h) ▸ hp
  | cons q more =>
    rw [consRun] at h
    split at h
    · rcases mem_cons.mp h with rfl | h
      · exact add_pos_of_pos_of_nonneg hp (hl q mem_cons_self).le
      · exact hl r (mem_cons_of_mem _ h)
    · rcases mem_cons.mp h with rfl | h
      · exact hp
      · exact hl r h

theorem pos_of_mem_sumRuns (hl : ∀ q ∈ l, 0 < q.2) : ∀ r ∈ sumRuns l, 0 < r.2 := by
  induction l with
  | nil => exact fun r hr => absurd hr not_mem_nil
  | cons p l ih =>
    intro r hr
    exact pos_of_mem_consRun (hl p mem_cons_self) (ih fun q hq => hl q (mem_cons_of_mem _ hq)) hr

def positives (l : List (κ × M)) : List (κ × M) := l.filter fun p => decide (0 < p.2)

omit [LinearOrder κ] [IsOrderedAddMonoid M] in
theorem positives_append (l m : List (κ × M)) : positives (l ++ m) = positives l ++ positives m := filter_append _ _

omit [LinearOrder κ] [IsOrderedAddMonoid M] in
theorem positives_filter (keep : κ → Bool) (l : List (κ × M)) :
    (positives l).filter (fun p => keep p.1) = positives (l.filter fun p => keep p.1) := by
  rw [positives, positives, filter_filter, filter_filter]
  refine filter_congr ?_
  intro p _
  rw [Bool.and_comm]

omit [LinearOrder κ] [IsOrderedAddMonoid M] in
theorem sum_positives (hnonneg : ∀ q ∈ l, 0 ≤ q.2) : ((positives l).map snd).sum = (l.map snd).sum := by
  induction l with
  | nil => rfl
  | cons p l ih =>
    have ih := ih fun q hq => hnonneg q (mem_cons_of_mem _ hq)
    rcases (hnonneg p mem_cons_self).lt_or_eq with hpos | hzero
    · have hkeep : positives (p :: l) = p :: positives l := filter_cons_of_pos (by simpa using hpos)
      rw [hkeep, map_cons, map_cons, sum_cons, sum_cons, ih]
    · have hdrop : positives (p :: l) = positives l := filter_cons_of_neg (by simp [← hzero])
      rw [hdrop, map_cons, sum_cons, ← hzero, zero_add, ih]

theorem nonneg_of_mem_consRun {p r : κ × M} (hp : 0 ≤ p.2) (hl : ∀ q ∈ l, 0 ≤ q.2)
    (h : r ∈ consRun p l) : 0 ≤ r.2 := by
  cases l with
  | nil => exact (mem_singleton.mp h) ▸ hp
  | cons q more =>
    rw [consRun] at h
    split at h
    · rcases mem_cons.mp h with rfl | h
      · exact add_nonneg hp (hl q mem_cons_self)
      · exact hl r (mem_cons_of_mem _ h)
    · rcases mem_cons.mp h with rfl | h
      · exact hp
      · exact hl r h

theorem nonneg_of_mem_sumRuns (hl : ∀ q ∈ l, 0 ≤ q.2) : ∀ r ∈ sumRuns l, 0 ≤ r.2 := by
  induction l with
  | nil => exact fun r hr => absurd hr not_mem_nil
  | cons p l ih =>
    intro r hr
    exact nonneg_of_mem_consRun (hl p mem_cons_self) (ih fun q hq => hl q (mem_cons_of_mem _ hq)) hr

omit [IsOrderedAddMonoid M] in
theorem positives_consRun_zero {k : κ} : positives (consRun (k, 0) l) = positives l := by
  cases l with
  | nil => simp [positives, consRun]
  | cons r more =>
    rw [consRun]
    split
    · next heq =>
      have hpair : (k, 0 + r.2) = r := Prod.ext heq (zero_add _)
      exact congrArg positives (congrArg (· :: more) hpair)
    · simp [positives]

theorem positives_consRun_pos {p : κ × M} (hp : 0 < p.2) (hl : l.Pairwise fun a b => a.1 < b.1)
    (hle : ∀ q ∈ l, p.1 ≤ q.1) (hnonneg : ∀ q ∈ l, 0 ≤ q.2) : positives (consRun p l) =
    consRun p (positives l) := by
  cases l with
  | nil => simp [positives, consRun, hp]
  | cons r more =>
    obtain ⟨hr, -⟩ := pairwise_cons.mp hl
    have hrnonneg := hnonneg r mem_cons_self
    rw [consRun]
    split
    · next heq =>
      have hsum : 0 < p.2 + r.2 := add_pos_of_pos_of_nonneg hp hrnonneg
      rcases hrnonneg.lt_or_eq with hpos | hzero
      · have hcons : positives (r :: more) = r :: positives more := filter_cons_of_pos (by simpa using hpos)
        rw [hcons, consRun, if_pos heq]; exact filter_cons_of_pos (by simpa using hsum)
      · -- the run is empty, and the later ones have later keys
        have hcons : positives (r :: more) = positives more := filter_cons_of_neg (by simp [← hzero])
        have hpair : (p.1, p.2 + r.2) = p := Prod.ext rfl (by rw [← hzero, add_zero])
        rw [hcons, hpair]
        have hkeep : positives (p :: more) = p :: positives more := filter_cons_of_pos (by simpa using hp)
        rw [hkeep]
        cases hmore : positives more with
        | nil => rfl
        | cons s rest =>
          have hs : s ∈ more := mem_of_mem_filter (hmore ▸ mem_cons_self : s ∈ positives more)
          rw [consRun, if_neg (heq ▸ (hr s hs).ne)]
    · next hne =>
      have hkeep : positives (p :: r :: more) = p :: positives (r :: more) := filter_cons_of_pos (by simpa using hp)
      rw [hkeep]
      cases hmore : positives (r :: more) with
      | nil => rfl
      | cons s rest =>
        have hs : s ∈ r :: more := mem_of_mem_filter (hmore ▸ mem_cons_self : s ∈ positives (r :: more))
        have hother : p.1 ≠ s.1 := by
          rcases mem_cons.mp hs with rfl | hs
          · exact hne
          · exact ((hle r mem_cons_self).trans_lt (hr s hs)).ne
        rw [consRun, if_neg hother]

/-- **Entries that add nothing may be left out before or after.** -/
theorem positives_sumRuns (hl : l.Pairwise fun a b => a.1 ≤ b.1) (hnonneg : ∀ q ∈ l, 0 ≤ q.2) :
    positives (sumRuns l) = sumRuns (positives l) := by
  induction l with
  | nil => rfl
  | cons p l ih =>
    obtain ⟨hp, hrest⟩ := pairwise_cons.mp hl
    have hnonneg' : ∀ q ∈ l, 0 ≤ q.2 := fun q hq => hnonneg q (mem_cons_of_mem _ hq)
    have ih := ih hrest hnonneg'
    rw [sumRuns_cons]
    rcases (hnonneg p mem_cons_self).lt_or_eq with hpos | hzero
    · have hle : ∀ q ∈ sumRuns l, p.1 ≤ q.1 := by
        intro q hq
        obtain ⟨r, hr, hkey⟩ := key_of_mem_sumRuns hq; exact hkey ▸ hp r hr
      have hkeep : positives (p :: l) = p :: positives l := filter_cons_of_pos (by simpa using hpos)
      rw [positives_consRun_pos hpos (pairwise_sumRuns hrest) hle (nonneg_of_mem_sumRuns hnonneg'), ih, hkeep,
        sumRuns_cons]
    · have hdrop : positives (p :: l) = positives l := filter_cons_of_neg (by simp [← hzero])
      have hpair : p = (p.1, 0) := Prod.ext rfl hzero.symm
      rw [hdrop, ← ih, hpair, positives_consRun_zero]

end Ordered

end CryptoPilot.Lib
