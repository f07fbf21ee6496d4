/- # Slices — an amount posted slice by slice.

An amount of `units` is cut into `count` even slices, the first of them one unit larger until the
remainder is used up; only the first is taken, and what is left is cut again.  A slice that is too
small to be posted alone takes everything with it.  `Strands` is the one way in which such a
sequence can end in a rest that is too small: a cut in two of an odd amount, whose larger half may
still be posted and whose smaller half may not. -/
import Mathlib.Data.Nat.Basic
import Mathlib.Tactic.Ring
import Mathlib.Tactic.Linarith

namespace CryptoPilot.Lib

/-- The first of `count` even slices of `units`. -/
def sliceHead (count units : ℕ) : ℕ := units / count + if 0 < units % count then 1 else 0

section Heads

variable {count units : ℕ}

theorem sliceHead_one : sliceHead 1 units = units := by
  simp [sliceHead, Nat.mod_one]

theorem sliceHead_two : sliceHead 2 units = (units + 1) / 2 := by
  unfold sliceHead
  split_ifs <;> omega

/-- `count` heads hold the whole amount, and fewer than one head too much. -/
theorem mul_sliceHead (hcount : 1 ≤ count) :
    units ≤ count * sliceHead count units ∧ count * sliceHead count units < units + count := by
  have hdiv : count * (units / count) + units % count = units := Nat.div_add_mod units count
  have hmod : units % count < count := Nat.mod_lt units hcount
  unfold sliceHead
  split_ifs with hpos <;> rw [Nat.mul_add] <;> omega

theorem sliceHead_le (hcount : 1 ≤ count) : sliceHead count units ≤ units := by
  have hdiv : count * (units / count) + units % count = units := Nat.div_add_mod units count
  have hmul : units / count ≤ count * (units / count) := Nat.le_mul_of_pos_left _ hcount
  unfold sliceHead
  split_ifs <;> omega

theorem sliceHead_pos (hcount : 1 ≤ count) (hunits : 1 ≤ units) : 1 ≤ sliceHead count units := by
  by_contra hzero
  have hhead : sliceHead count units = 0 := by omega
  have hbound := (@mul_sliceHead _ units hcount).1
  rw [hhead] at hbound; omega

/-- **With three slices or more the rest is no smaller than the head**, unless nothing is left. -/
theorem sliceHead_le_rest (hcount : 3 ≤ count) (hrest : sliceHead count units < units) :
    sliceHead count units ≤ units - sliceHead count units := by
  obtain ⟨-, hupper⟩ := @mul_sliceHead count units (by omega)
  set head := sliceHead count units with hhead
  -- a head above half of the amount leaves less than one unit for each of the others
  by_contra hbig
  have hpos : 2 ≤ head := by omega
  have hmul : count * head = 2 * head + (count - 2) * head := by
    rw [← Nat.add_mul]
    congr 1; omega
  have hothers : 2 * (count - 2) ≤ (count - 2) * head := by
    rw [Nat.mul_comm 2]; exact Nat.mul_le_mul_left _ hpos
  omega

end Heads

/-! ## Slice after slice -/

section Strands

variable (count : ℕ → ℕ) (postable admissible : ℕ → Prop)

/-- **A rest that is too small.**  An odd amount is cut in two, now or later, and only its larger
half can be posted. -/
inductive Strands : ℕ → Prop where
  | here {units : ℕ} (two : count units = 2) (odd : units % 2 = 1) (larger : postable ((units + 1) / 2))
      (some_left : 0 < units / 2) (smaller : ¬ admissible (units / 2)) : Strands units
  | later {units : ℕ} (head : postable (sliceHead (count units) units))
      (rest : Strands (units - sliceHead (count units) units)) : Strands units

variable [DecidablePred postable]

/-- The slice that is taken: the head, or everything when the head is too small to be posted. -/
def nextSlice (units : ℕ) : ℕ :=
  if postable (sliceHead (count units) units) then sliceHead (count units) units else units

variable {count postable admissible} {units : ℕ}

omit [DecidablePred postable] in
theorem not_strands_zero : ¬ Strands count postable admissible 0 := by
  intro h
  generalize hunits : 0 = units at h
  induction h with
  | here two odd => omega
  | later head rest ih =>
    subst hunits; exact ih (Nat.zero_sub _).symm

/-- **One slice**: what is left strands exactly if it is too small itself, or strands later. -/
theorem strands_iff (hcount : 1 ≤ count units)
    (hlarger : 1 < count units → ∀ a b, postable a → a ≤ b → admissible b) :
    Strands count postable admissible units ↔
      (0 < units - nextSlice count postable units ∧ ¬ admissible (units - nextSlice count postable units)) ∨
        Strands count postable admissible (units - nextSlice count postable units) := by
  set head := sliceHead (count units) units with hhead
  by_cases hpost : postable head
  · have hnext : nextSlice count postable units = head := if_pos hpost
    rw [hnext]
    constructor
    · intro h
      cases h with
      | here two odd larger some_left smaller =>
        have htwo : units - head = units / 2 := by
          rw [hhead, two, sliceHead_two]; omega
        exact .inl (htwo ▸ ⟨some_left, smaller⟩)
      | later _ rest => exact .inr rest
    · rintro (⟨hleft, hsmall⟩ | hrest)
      · -- one slice leaves nothing, and three or more leave enough
        have hmany : 1 < count units := by
          by_contra hone
          have hone : count units = 1 := by omega
          rw [hhead, hone, sliceHead_one] at hleft; omega
        have htwo : count units = 2 := by
          by_contra hne
          have hthree : 3 ≤ count units := by omega
          exact hsmall (hlarger hmany head _ hpost (sliceHead_le_rest hthree (by omega)))
        have hhalf : head = (units + 1) / 2 := by rw [hhead, htwo, sliceHead_two]
        have hodd : units % 2 = 1 := by
          by_contra heven; exact hsmall (hlarger hmany head _ hpost (by omega))
        have hrest : units - head = units / 2 := by omega
        rw [hrest] at hleft hsmall; exact .here htwo hodd (hhalf ▸ hpost) hleft hsmall
      · exact .later hpost hrest
  · have hnext : nextSlice count postable units = units := if_neg hpost
    rw [hnext, Nat.sub_self]
    constructor
    · intro h
      cases h with
      | here two odd larger => exact absurd (by rw [hhead, two, sliceHead_two]; exact larger) hpost
      | later head => exact absurd head hpost
    · rintro (⟨hleft, -⟩ | hrest)
      · exact absurd hleft (lt_irrefl 0)
      · exact absurd hrest not_strands_zero

end Strands

end CryptoPilot.Lib
