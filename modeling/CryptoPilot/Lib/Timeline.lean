/- # Timeline — events ordered by a key, cut at instants and summed by key.

A ledger of events is read in the order of a key that begins with the event's time.  What is before
a cut of the key is a prefix of the sorted order, and the sums over the keys add up to the sum over
the events. -/
import Mathlib.Algebra.BigOperators.Group.List.Basic
import Mathlib.Algebra.BigOperators.Group.Finset.Basic
import Mathlib.Algebra.BigOperators.Intervals
import Mathlib.Data.List.Sort
import Mathlib.Order.Monotone.Basic

namespace CryptoPilot.Lib

open List

variable {α κ : Type} [LinearOrder κ]

/-- The events in the order of their keys; events of one key stay in the order given. -/
def sortBy (key : α → κ) (events : List α) : List α :=
  events.insertionSort (fun a b => key a ≤ key b)

section Order

variable {key : α → κ} {l m : List α}

theorem perm_sortBy (key : α → κ) (l : List α) : (sortBy key l).Perm l :=
  perm_insertionSort _ l

theorem mem_sortBy {a : α} : a ∈ sortBy key l ↔ a ∈ l :=
  (perm_sortBy key l).mem_iff

theorem pairwise_sortBy (key : α → κ) (l : List α) : (sortBy key l).Pairwise (fun a b => key a ≤ key b) := by
  exact pairwise_insertionSort _ l

/-- **What is before a cut is a prefix.**  `p` holds of everything up to some place of the key
order. -/
theorem eq_filter_append_filter {p : α → Bool} :
    ∀ {l : List α}, l.Pairwise (fun a b => key a ≤ key b) → (∀ a b, key a ≤ key b → p b = true → p a = true) →
      l = l.filter p ++ l.filter (fun a => !p a) := by
  intro l
  induction l with
  | nil =>
    intro _ _; rfl
  | cons a rest ih =>
    intro hsorted hdown
    rw [pairwise_cons] at hsorted
    by_cases ha : p a = true
    · simpa [ha] using ih hsorted.2 hdown
    · -- after the first event that fails the cut, every event fails it
      have hrest : ∀ b ∈ rest, p b = false := by
        intro b hb
        by_contra h; exact ha (hdown a b (hsorted.1 b hb) (by simpa using h))
      have hnone : rest.filter p = [] := by
        rw [filter_eq_nil_iff]
        intro b hb; simp [hrest b hb]
      have hall : rest.filter (fun b => !p b) = rest := by
        rw [filter_eq_self]
        intro b hb; simp [hrest b hb]
      simp [ha, hnone, hall]

end Order

section Sums

variable {M : Type} [AddCommMonoid M] (f : α → M)

theorem sum_filter_cons (p : α → Bool) (e : α) (l : List α) :
    (((e :: l).filter p).map f).sum = (if p e = true then f e else 0) + ((l.filter p).map f).sum := by
  by_cases h : p e = true <;> simp [h]

theorem sum_by_key {γ : Type} [DecidableEq γ] (key : α → γ) {keys : List γ} (hkeys : keys.Nodup) (l : List α) :
    (keys.map (fun k => ((l.filter (fun e => decide (key e = k))).map f).sum)).sum =
      ((l.filter (fun e => decide (key e ∈ keys))).map f).sum := by
  induction keys with
  | nil => simp
  | cons k keys ih =>
    obtain ⟨hk, hrest⟩ := nodup_cons.mp hkeys
    rw [map_cons, sum_cons, ih hrest]
    clear ih
    induction l with
    | nil => simp
    | cons e l ih =>
      have hone : (if decide (key e ∈ k :: keys) = true then f e else 0) =
          (if decide (key e = k) = true then f e else 0) + (if decide (key e ∈ keys) = true then f e else 0) := by
        by_cases he : key e = k
        · simp [he, hk]
        · simp [he]
      rw [sum_filter_cons, sum_filter_cons, sum_filter_cons, ← ih, hone]
      exact add_add_add_comm _ _ _ _

end Sums

variable {τ : Type*} {times : List τ}

/-- The latest of some times is not behind `m` exactly if none of them is. -/
theorem foldl_max_le_iff [LinearOrder τ] {t m : τ} : times.foldl max t ≤ m ↔ t ≤ m ∧ ∀ x ∈ times, x ≤ m := by
  induction times generalizing t with
  | nil => simp
  | cons x times ih => simp [ih, and_assoc]

theorem le_foldl_max_iff [LinearOrder τ] {t m : τ} : m ≤ times.foldl max t ↔ m ≤ t ∨ ∃ x ∈ times, m ≤ x := by
  induction times generalizing t with
  | nil => simp
  | cons x times ih => simp [ih, or_assoc]

theorem le_foldl_max_of_mem [LinearOrder τ] {t x : τ} (hx : x ∈ times) :
    x ≤ times.foldl max t := (foldl_max_le_iff.mp le_rfl).2 x hx

end CryptoPilot.Lib
