/- # SlidingMax — the maximum of a sliding window, by blocks.

Rows are cut into blocks of the window's length.  The maximum of a block up to a row, and from a row
to the end of its block, are two running maxima; a window is the end of one block and the beginning
of the next, so its maximum is the larger of the two (`slidingMax_eq`). -/
import Mathlib.Data.Finset.Lattice.Fold
import Mathlib.Order.Interval.Finset.Nat
import Mathlib.Order.Interval.Set.LinearOrder
import Mathlib.Order.Bounds.Basic

namespace CryptoPilot.Lib

variable {α : Type} [SemilatticeSup α]

theorem window_nonempty (window i : ℕ) : (Finset.Icc (i - (window - 1)) i).Nonempty :=
  ⟨i, Finset.mem_Icc.mpr ⟨Nat.sub_le _ _, le_rfl⟩⟩

/-- The maximum of the last `window` rows up to row `i`, or of as many as there are. -/
def windowMax (window : ℕ) (a : ℕ → α) (i : ℕ) : α :=
  (Finset.Icc (i - (window - 1)) i).sup' (window_nonempty window i) a

def prefixMax (window : ℕ) (a : ℕ → α) : ℕ → α
  | 0 => a 0
  | i + 1 => if (i + 1) % window = 0 then a (i + 1) else a (i + 1) ⊔ prefixMax window a i

/-- The running maximum of each block from its last row, `k` rows before row `last`. -/
def suffixMaxBack (window last : ℕ) (a : ℕ → α) : ℕ → α
  | 0 => a last
  | k + 1 =>
    if (last - (k + 1) + 1) % window = 0 then a (last - (k + 1))
    else a (last - (k + 1)) ⊔ suffixMaxBack window last a k

/-- The maximum of row `i` and the later rows of its block, among rows up to `last`. -/
def suffixMax (window last : ℕ) (a : ℕ → α) (i : ℕ) : α := suffixMaxBack window last a (last - i)

/-- The sliding maximum of `n` rows. -/
def slidingMax (window n : ℕ) (a : ℕ → α) (i : ℕ) : α :=
  if i < min (window - 1) n then prefixMax window a i
  else suffixMax window (n - 1) a (i + 1 - window) ⊔ prefixMax window a i

/-! ## The two running maxima -/

section Blocks

variable {window : ℕ} {a : ℕ → α}

theorem isLUB_join {lo mid hi : ℕ} {x y : α} (hx : IsLUB (a '' Set.Icc lo mid) x)
    (hy : IsLUB (a '' Set.Icc (mid + 1) hi) y) (hlo : lo ≤ mid) (hhi : mid < hi) : IsLUB (a '' Set.Icc lo hi)
    (x ⊔ y) := by
  have hcut : Set.Icc lo hi = Set.Icc lo mid ∪ Set.Icc (mid + 1) hi := by
    ext k; simp only [Set.mem_union, Set.mem_Icc]; omega
  rw [hcut, Set.image_union]; exact hx.union hy

theorem isLUB_single (i : ℕ) : IsLUB (a '' Set.Icc i i) (a i) := by
  rw [Set.Icc_self, Set.image_singleton]; exact isLUB_singleton

theorem succ_mod_of_ne_zero {i : ℕ} (hwindow : 1 ≤ window) (hmid : (i + 1) % window ≠ 0) :
    (i + 1) % window = i % window + 1 := by
  have hlt : i % window < window := Nat.mod_lt i hwindow
  rcases Nat.lt_or_ge (i % window + 1) window with h | h
  · rw [Nat.add_mod, Nat.mod_eq_of_lt (show 1 < window by omega), Nat.mod_eq_of_lt h]
  · exfalso
    apply hmid
    rw [← Nat.mod_add_div i window, add_right_comm, Nat.add_mul_mod_self_left]
    rw [show i % window + 1 = window by omega, Nat.mod_self]

theorem isLUB_prefixMax (hwindow : 1 ≤ window) (i : ℕ) :
    IsLUB (a '' Set.Icc (i - i % window) i) (prefixMax window a i) := by
  induction i with
  | zero =>
    show IsLUB (a '' Set.Icc (0 - 0 % window) 0) (a 0); exact isLUB_single 0
  | succ i ih =>
    rw [prefixMax]
    split
    · next hstart =>
      rw [hstart]; exact isLUB_single (i + 1)
    · next hmid =>
      have hmod := succ_mod_of_ne_zero hwindow hmid
      rw [hmod, Nat.add_sub_add_right, sup_comm]
      exact isLUB_join ih (isLUB_single (i + 1)) (Nat.sub_le _ _) (Nat.lt_succ_self i)

/-- The last row of the block of row `i`, among rows up to `last`. -/
def blockEnd (window last i : ℕ) : ℕ := min last (i - i % window + (window - 1))

theorem isLUB_suffixMaxBack (hwindow : 1 ≤ window) {last : ℕ} : ∀ k, k ≤ last →
    IsLUB (a '' Set.Icc (last - k) (blockEnd window last (last - k))) (suffixMaxBack window last a k)
  | 0, _ => by
    have hmod : last % window < window := Nat.mod_lt last hwindow
    have hend : blockEnd window last (last - 0) = last := by
      rw [blockEnd, Nat.sub_zero]; omega
    rw [hend]; exact isLUB_single last
  | k + 1, hk => by
    have ih := isLUB_suffixMaxBack hwindow k (show k ≤ last by omega)
    obtain ⟨i, hi⟩ : ∃ i, last - (k + 1) = i := ⟨_, rfl⟩
    have hnext : last - k = i + 1 := by omega
    rw [suffixMaxBack, hi]
    rw [hnext] at ih
    have hlt : i % window < window := Nat.mod_lt i hwindow
    have hle : i % window ≤ i := Nat.mod_le i window
    split
    · next hstart =>
      -- the next row opens a block, so this one closes its own
      have hfull : i % window + 1 = window := by
        by_contra hne
        have hsmall : i % window + 1 < window := by omega
        rw [Nat.add_mod, Nat.mod_eq_of_lt (show 1 < window by omega), Nat.mod_eq_of_lt hsmall] at hstart
        omega
      have hend : blockEnd window last i = i := by
        rw [blockEnd]; omega
      rw [hend]; exact isLUB_single i
    · next hmid =>
      have hmod := succ_mod_of_ne_zero hwindow hmid
      have hend : blockEnd window last (i + 1) = blockEnd window last i := by
        rw [blockEnd, blockEnd, hmod, Nat.add_sub_add_right]
      have hless : i < blockEnd window last i := by
        have hlt' : (i + 1) % window < window := Nat.mod_lt (i + 1) hwindow
        rw [blockEnd]; omega
      rw [hend] at ih; exact isLUB_join (isLUB_single i) ih le_rfl hless

theorem isLUB_suffixMax (hwindow : 1 ≤ window) {last i : ℕ} (hi : i ≤ last) :
    IsLUB (a '' Set.Icc i (blockEnd window last i)) (suffixMax window last a i) := by
  have h := isLUB_suffixMaxBack (a := a) hwindow (last - i) (Nat.sub_le _ _)
  rwa [Nat.sub_sub_self hi] at h

end Blocks

/-! ## The sliding maximum -/

variable {a : ℕ → α}

theorem windowMax_le_iff {window : ℕ} {i : ℕ} {r : α} :
    windowMax window a i ≤ r ↔ ∀ k, i - (window - 1) ≤ k → k ≤ i → a k ≤ r := by
  rw [windowMax, Finset.sup'_le_iff]; simp only [Finset.mem_Icc, and_imp]

theorem isLUB_windowMax (window : ℕ) (a : ℕ → α) (i : ℕ) :
    IsLUB (a '' Set.Icc (i - (window - 1)) i) (windowMax window a i) := by
  rw [isLUB_iff_le_iff]
  intro r
  rw [windowMax_le_iff]; simp only [mem_upperBounds, Set.forall_mem_image, Set.mem_Icc, and_imp]

/-- A window that the rows from `start` on hold, or that begins with them, has the same maximum
among them. -/
theorem windowMax_shift {window start p : ℕ} (hstart : start ≤ p) (hholds : start = 0 ∨ start ≤ p - (window - 1)) :
    windowMax window (fun i => a (start + i)) (p - start) = windowMax window a p := by
  apply eq_of_forall_ge_iff
  intro r
  rw [windowMax_le_iff, windowMax_le_iff]
  constructor
  · intro h k hlow hhigh
    have hk := h (k - start) (by omega) (by omega)
    rwa [show start + (k - start) = k by omega] at hk
  · intro h k hlow hhigh; exact h (start + k) (by omega) (by omega)

section

variable {window last i : ℕ} (hi : i ≤ last) (hge : window - 1 ≤ i)

include hi hge

theorem blockEnd_of_full (hfull : i % window = window - 1) (hwindow : 1 ≤ window) :
    blockEnd window last (i + 1 - window) = i ∧ i + 1 - window = i - i % window := by
  have hdiv : window * (i / window) + i % window = i := Nat.div_add_mod i window
  have hlo : i + 1 - window = window * (i / window) := by omega
  refine ⟨?_, by omega⟩
  rw [blockEnd, hlo, Nat.mul_mod_right]; omega

theorem blockEnd_of_split (hpart : i % window < window - 1) :
    i + 1 - window ≤ blockEnd window last (i + 1 - window) ∧
      blockEnd window last (i + 1 - window) + 1 = i - i % window := by
  have hdiv : window * (i / window) + i % window = i := Nat.div_add_mod i window
  obtain ⟨q, hq⟩ : ∃ q, i / window = q + 1 := by
    refine Nat.exists_eq_succ_of_ne_zero ?_
    intro hzero
    rw [hzero] at hdiv; omega
  rw [hq, Nat.mul_succ] at hdiv
  have hlo : i + 1 - window = i % window + 1 + window * q := by omega
  have hmod : (i + 1 - window) % window = i % window + 1 := by
    rw [hlo, Nat.add_mul_mod_self_left, Nat.mod_eq_of_lt (by omega)]
  rw [blockEnd]; omega

end

/-- **The sliding maximum of the blocks is the maximum of the window**, at every row. -/
theorem slidingMax_eq {window n : ℕ} (hwindow : 1 ≤ window) {i : ℕ} (hi : i < n) :
    slidingMax window n a i = windowMax window a i := by
  apply IsLUB.unique _ (isLUB_windowMax window a i)
  have hfront := isLUB_prefixMax (a := a) hwindow i
  have hlt : i % window < window := Nat.mod_lt i hwindow
  rw [slidingMax]
  split
  · next hfirst =>
    -- the rows before the first whole window lie in the first block
    have hmod : i % window = i := Nat.mod_eq_of_lt (by omega)
    rw [hmod, Nat.sub_self] at hfront; rwa [show i - (window - 1) = 0 by omega]
  · next hlater =>
    have hge : window - 1 ≤ i := by omega
    have hback := isLUB_suffixMax (a := a) hwindow (show i + 1 - window ≤ n - 1 by omega)
    rw [show i - (window - 1) = i + 1 - window by omega]
    rcases Nat.lt_or_ge (i % window) (window - 1) with hpart | hfull
    · obtain ⟨hlo, hend⟩ := blockEnd_of_split (show i ≤ n - 1 by omega) hge hpart
      rw [← hend] at hfront
      refine isLUB_join hback hfront hlo ?_; omega
    · obtain ⟨hend, hlo⟩ := blockEnd_of_full (show i ≤ n - 1 by omega) hge (by omega) hwindow
      rw [hend] at hback
      rw [← hlo] at hfront
      rw [hback.unique hfront, sup_idem]; exact hfront

end CryptoPilot.Lib
