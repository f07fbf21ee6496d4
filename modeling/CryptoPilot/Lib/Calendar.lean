/-
# Calendar — instants, UTC days and the proleptic Gregorian calendar.

An instant is a rational number of seconds since the epoch.  Days are counted from the epoch, months
are keyed by `100
* year + month` (the text `%Y%m`).
-/
import Mathlib.Algebra.Order.Floor.Defs
import Mathlib.Data.Rat.Floor
import Mathlib.Tactic.Linarith
import Mathlib.Tactic.Ring

namespace CryptoPilot.Lib

def secondsPerDay : ℚ := 86400

def dayOf (t : ℚ) : ℤ := ⌊t / secondsPerDay⌋

def dayStart (d : ℤ) : ℚ := d * secondsPerDay

def dayCeil (t : ℚ) : ℤ := ⌈t / secondsPerDay⌉

def civilMonth (day : ℤ) : ℤ × ℤ :=
  let shifted := day + 719468
  let era := shifted / 146097
  let dayOfEra := shifted % 146097
  let yearOfEra := (dayOfEra - dayOfEra / 1460 + dayOfEra / 36524 - dayOfEra / 146096) / 365
  let dayOfYear := dayOfEra - (365 * yearOfEra + yearOfEra / 4 - yearOfEra / 100)
  let shiftedMonth := (5 * dayOfYear + 2) / 153
  let month := if shiftedMonth < 10 then shiftedMonth + 3 else shiftedMonth - 9
  (yearOfEra + era * 400 + (if month ≤ 2 then 1 else 0), month)

/-- `strftime('%Y%m')` of a UTC instant, as a number. -/
def monthKey (t : ℚ) : ℤ := 100 * (civilMonth (dayOf t)).1 + (civilMonth (dayOf t)).2

example : monthKey 0 = 197001 ∧ monthKey 1709164800 = 202402 := by decide +kernel

@[simp] theorem dayOf_dayStart (d : ℤ) : dayOf (dayStart d) = d := by
  have hne : secondsPerDay ≠ 0 := by norm_num [secondsPerDay]
  rw [dayOf, dayStart, mul_div_assoc, div_self hne, mul_one, Int.floor_intCast]

theorem dayStart_le_dayStart {d e : ℤ} : dayStart d ≤ dayStart e ↔ d ≤ e := by
  have hpos : (0 : ℚ) < secondsPerDay := by norm_num [secondsPerDay]
  rw [dayStart, dayStart, mul_le_mul_iff_left₀ hpos, Int.cast_le]

theorem dayStart_lt_dayStart {d e : ℤ} : dayStart d < dayStart e ↔ d < e := by
  rw [← not_le, ← not_le, dayStart_le_dayStart]

theorem dayStart_dayOf_le (t : ℚ) : dayStart (dayOf t) ≤ t := by
  have hpos : (0 : ℚ) < secondsPerDay := by norm_num [secondsPerDay]
  have h := Int.floor_le (t / secondsPerDay); rwa [le_div_iff₀ hpos] at h

theorem dayOf_mono {t u : ℚ} (h : t ≤ u) : dayOf t ≤ dayOf u := by
  have hpos : (0 : ℚ) < secondsPerDay := by norm_num [secondsPerDay]
  exact Int.floor_le_floor (div_le_div_of_nonneg_right h hpos.le)

end CryptoPilot.Lib
