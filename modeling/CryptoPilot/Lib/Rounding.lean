/- # Rounding — rounding a rational to an integer, towards or away from zero.

The two rounding modes of decimal arithmetic that a trading filter uses:  `down` truncates TOWARDS
ZERO and `up` rounds AWAY FROM ZERO (they are floor and ceiling only on non-negative arguments). -/
import Mathlib.Algebra.Order.Floor.Ring
import Mathlib.Data.Rat.Floor
import Mathlib.Tactic.Linarith
import Mathlib.Tactic.Positivity
import Mathlib.Tactic.FieldSimp
import Mathlib.Tactic.Push

namespace CryptoPilot.Lib

inductive Rounding where
  /-- towards zero -/
  | down
  /-- away from zero -/
  | up
  deriving DecidableEq, Repr

/-- **`toIntegralValue mode x`** — `x` rounded to an integer, towards zero or away from zero. -/
def toIntegralValue : Rounding → ℚ → ℤ
  | .down, x => if 0 ≤ x then ⌊x⌋ else ⌈x⌉
  | .up, x => if 0 ≤ x then ⌈x⌉ else ⌊x⌋

/-- `x` rounded to a multiple of `step`. -/
def roundTo (mode : Rounding) (step x : ℚ) : ℚ :=
  toIntegralValue mode (x / step) * step

/-- `x` is an integer multiple of `step`. -/
def OnGrid (step x : ℚ) : Prop := ∃ k : ℤ, x = k * step

section Bounds

variable {step x y : ℚ}

theorem onGrid_roundTo (mode : Rounding) (step x : ℚ) : OnGrid step (roundTo mode step x) :=
  ⟨toIntegralValue mode (x / step), rfl⟩

theorem toIntegralValue_down_of_nonneg (hx : 0 ≤ x) : toIntegralValue .down x = ⌊x⌋ := by
  simp [toIntegralValue, hx]

theorem toIntegralValue_up_of_nonneg (hx : 0 ≤ x) : toIntegralValue .up x = ⌈x⌉ := by
  simp [toIntegralValue, hx]

theorem roundTo_down_le (hs : 0 < step) (hx : 0 ≤ x) : roundTo .down step x ≤ x := by
  have hq : 0 ≤ x / step := div_nonneg hx hs.le
  have hfloor : ((⌊x / step⌋ : ℤ) : ℚ) ≤ x / step := Int.floor_le _
  rw [roundTo, toIntegralValue_down_of_nonneg hq]
  calc ((⌊x / step⌋ : ℤ) : ℚ) * step ≤ x / step * step := by gcongr
    _ = x := div_mul_cancel₀ x hs.ne'

theorem le_roundTo_up (hs : 0 < step) (hx : 0 ≤ x) : x ≤ roundTo .up step x := by
  have hq : 0 ≤ x / step := div_nonneg hx hs.le
  have hceil : x / step ≤ ((⌈x / step⌉ : ℤ) : ℚ) := Int.le_ceil _
  rw [roundTo, toIntegralValue_up_of_nonneg hq]
  calc x = x / step * step := (div_mul_cancel₀ x hs.ne').symm
    _ ≤ ((⌈x / step⌉ : ℤ) : ℚ) * step := by gcongr

theorem pos_of_roundTo_pos {mode : Rounding} (hs : 0 < step) (h : 0 < roundTo mode step x) : 0 < x := by
  by_contra hneg
  have hx : x ≤ 0 := not_lt.mp hneg
  have hq : x / step ≤ 0 := div_nonpos_of_nonpos_of_nonneg hx hs.le
  have hint : toIntegralValue mode (x / step) ≤ 0 := by
    have hfloor : ⌊x / step⌋ ≤ 0 := by
      have := Int.floor_mono hq; simpa using this
    have hceil : ⌈x / step⌉ ≤ 0 := Int.ceil_le.mpr (by simpa using hq)
    cases mode <;> simp only [toIntegralValue] <;> split <;> assumption
  have hcast : ((toIntegralValue mode (x / step) : ℤ) : ℚ) ≤ 0 := by exact_mod_cast hint
  have : roundTo mode step x ≤ 0 := mul_nonpos_of_nonpos_of_nonneg hcast hs.le
  exact absurd h (not_lt.mpr this)

theorem OnGrid.roundTo_eq {mode : Rounding} (hg : OnGrid step x) (hs : 0 < step) : roundTo mode step x = x := by
  obtain ⟨k, rfl⟩ := hg
  have hq : (k : ℚ) * step / step = k := mul_div_cancel_right₀ _ hs.ne'
  rw [roundTo, hq]
  cases mode <;> simp [toIntegralValue]

end Bounds

end CryptoPilot.Lib
