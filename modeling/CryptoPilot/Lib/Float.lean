/- # Float — binary floating point numbers as rationals.

A finite float is the rational it denotes, and an operation that returns a float rounds the exact
result to the nearest one, ties to even. -/
import Mathlib.Algebra.Order.Field.Power
import Mathlib.Algebra.Order.Floor.Ring
import Mathlib.Data.Int.Log
import Mathlib.Data.Rat.Floor
import Mathlib.Tactic.FieldSimp
import Mathlib.Tactic.Linarith
import Mathlib.Tactic.Positivity
import Mathlib.Tactic.Ring

namespace CryptoPilot.Lib

inductive FloatVal where
  | nan
  | inf (negative : Bool)
  | fin (q : ℚ)
  deriving DecidableEq, Repr

def roundHalfEven (q : ℚ) : ℤ :=
  if q - ⌊q⌋ < 1 / 2 then ⌊q⌋
  else if 1 / 2 < q - ⌊q⌋ then ⌊q⌋ + 1
  else if ⌊q⌋ % 2 = 0 then ⌊q⌋ else ⌊q⌋ + 1

theorem roundHalfEven_bounds (q : ℚ) : ⌊q⌋ ≤ roundHalfEven q ∧ roundHalfEven q ≤ ⌊q⌋ + 1 := by
  unfold roundHalfEven
  split_ifs <;> omega

@[simp] theorem roundHalfEven_intCast (n : ℤ) : roundHalfEven (n : ℚ) = n := by
  simp [roundHalfEven]

theorem roundHalfEven_mono {q r : ℚ} (h : q ≤ r) : roundHalfEven q ≤ roundHalfEven r := by
  rcases (Int.floor_mono h).lt_or_eq with hlt | heq
  · have hq := (roundHalfEven_bounds q).2
    have hr := (roundHalfEven_bounds r).1; omega
  · -- one unit interval: the remainders are in the same order
    have hrem : q - ⌊q⌋ ≤ r - ⌊r⌋ := by rw [heq]; linarith
    unfold roundHalfEven
    split_ifs <;> first | omega | (linarith)

/-- A binary format: significand bits, exponent of the smallest step, and the power of two that
overflows. -/
structure Format where
  precision : ℕ
  smallest : ℤ
  overflow : ℤ
  precision_pos : 0 < precision

/-- Python's `float`, numpy's `float64`. -/
def binary64 : Format := ⟨53, -1074, 1024, by decide⟩

/-- numpy's `float32`. -/
def binary32 : Format := ⟨24, -149, 128, by decide⟩

namespace Format

variable (F : Format)

def scale (q : ℚ) : ℤ := max (Int.log 2 |q| + 1 - F.precision) F.smallest

/-- The nearest number of the format, were its exponents unbounded above. -/
def nearest (q : ℚ) : ℚ := roundHalfEven (q / 2 ^ F.scale q) * 2 ^ F.scale q

def round (q : ℚ) : FloatVal :=
  if 2 ^ F.overflow ≤ |F.nearest q| then .inf (F.nearest q < 0) else .fin (F.nearest q)

def cast : FloatVal → FloatVal
  | .fin q => F.round q
  | x => x

variable {F} {q r : ℚ}

theorem two_zpow_pos (k : ℤ) : (0 : ℚ) < 2 ^ k := by positivity

theorem abs_lt_of_scale (q : ℚ) : |q| / 2 ^ F.scale q < 2 ^ F.precision := by
  rw [div_lt_iff₀ (two_zpow_pos _)]
  calc |q| < ((2 : ℕ) : ℚ) ^ (Int.log 2 |q| + 1) := Int.lt_zpow_succ_log_self (by norm_num) _
    _ ≤ 2 ^ (F.precision + F.scale q) := by
        apply zpow_le_zpow_right₀ (by norm_num)
        have : Int.log 2 |q| + 1 - F.precision ≤ F.scale q := le_max_left _ _; omega
    _ = 2 ^ F.precision * 2 ^ F.scale q := by rw [zpow_add₀ (by norm_num), zpow_natCast]

theorem abs_significand_le (q : ℚ) : |roundHalfEven (q / 2 ^ F.scale q)| ≤ 2 ^ F.precision := by
  have habs := F.abs_lt_of_scale q
  rw [← abs_of_pos (two_zpow_pos (F.scale q)), ← abs_div] at habs
  obtain ⟨hlow, hhigh⟩ := abs_le.mp habs.le
  rw [abs_le]
  constructor
  · have := roundHalfEven_mono (q := ((-2 ^ F.precision : ℤ) : ℚ)) (by push_cast; exact hlow)
    rwa [roundHalfEven_intCast] at this
  · have := roundHalfEven_mono (r := ((2 ^ F.precision : ℤ) : ℚ)) (by push_cast; exact hhigh)
    rwa [roundHalfEven_intCast] at this

theorem nearest_eq_self {n : ℤ} (h : q / 2 ^ F.scale q = n) : F.nearest q = q := by
  unfold nearest
  rw [h, roundHalfEven_intCast, ← h, div_mul_cancel₀ _ (two_zpow_pos _).ne']

/-- **Rounding twice is rounding once.** -/
theorem nearest_nearest (q : ℚ) : F.nearest (F.nearest q) = F.nearest q := by
  obtain ⟨n, k, hx, hn, hk⟩ : ∃ (n k : ℤ), F.nearest q = n * 2 ^ k ∧ |n| ≤ 2 ^ F.precision ∧ F.smallest ≤ k :=
    ⟨_, _, rfl, F.abs_significand_le q, le_max_right _ _⟩
  rw [hx]
  by_cases hzero : n = 0
  · subst hzero; simp [nearest, roundHalfEven]
  have hpos : (0 : ℚ) < |(n : ℚ) * 2 ^ k| := by
    rw [abs_pos]; exact mul_ne_zero (by exact_mod_cast hzero) (two_zpow_pos k).ne'
  rcases le_or_gt (F.scale (n * 2 ^ k)) k with hle | hgt
  · -- the step of the result divides the old one
    obtain ⟨j, hj⟩ : ∃ j : ℕ, k = F.scale (n * 2 ^ k) + j := ⟨(k - F.scale (n * 2 ^ k)).toNat, by omega⟩
    apply nearest_eq_self (n := n * 2 ^ j)
    rw [div_eq_iff (two_zpow_pos _).ne']
    push_cast
    rw [mul_assoc, ← zpow_natCast, ← zpow_add₀ (by norm_num), add_comm, ← hj]
  · -- the significand was carried to the next power of two
    obtain ⟨p, hp⟩ : ∃ p, F.precision = p + 1 := ⟨F.precision - 1, by have := F.precision_pos; omega⟩
    have hscale : F.scale (n * 2 ^ k) = Int.log 2 |(n : ℚ) * 2 ^ k| - p := by
      unfold scale at hgt ⊢; omega
    have habs : |(n : ℚ) * 2 ^ k| = (|n| : ℤ) * 2 ^ k := by
      rw [abs_mul, abs_of_pos (two_zpow_pos k), Int.cast_abs]
    have hcarry : |n| = 2 ^ F.precision := by
      apply le_antisymm hn
      have hlog : ((2 : ℕ) : ℚ) ^ (F.precision + k) ≤ |(n : ℚ) * 2 ^ k| := by
        rw [Int.zpow_le_iff_le_log (by norm_num) hpos]; omega
      rw [habs, zpow_add₀ (by norm_num)] at hlog
      have := le_of_mul_le_mul_right hlog (two_zpow_pos k); exact_mod_cast this
    have hlog : Int.log 2 |(n : ℚ) * 2 ^ k| = F.precision + k := by
      have hpow : |(n : ℚ) * 2 ^ k| = ((2 : ℕ) : ℚ) ^ (F.precision + k) := by
        rw [habs, hcarry, zpow_add₀ (by norm_num)]
        push_cast; rfl
      rw [hpow, Int.log_zpow (by norm_num)]
    have hstep : F.scale (n * 2 ^ k) = k + 1 := by omega
    rcases abs_eq (by positivity : (0 : ℤ) ≤ 2 ^ F.precision) |>.mp hcarry with hn' | hn'
    · apply nearest_eq_self (n := 2 ^ p)
      rw [hstep, hn', hp, div_eq_iff (two_zpow_pos _).ne', zpow_add₀ (by norm_num)]
      push_cast; ring
    · apply nearest_eq_self (n := -2 ^ p)
      rw [hstep, hn', hp, div_eq_iff (two_zpow_pos _).ne', zpow_add₀ (by norm_num)]
      push_cast; ring

/-- **Casting twice is casting once.** -/
@[simp] theorem cast_cast (x : FloatVal) : F.cast (F.cast x) = F.cast x := by
  cases x with
  | nan | inf _ => rfl
  | fin q =>
    show F.cast (F.round q) = F.round q
    unfold round
    split
    · rfl
    · next h =>
      show F.round (F.nearest q) = .fin (F.nearest q)
      unfold round
      rw [nearest_nearest, if_neg h]

end Format

end CryptoPilot.Lib
