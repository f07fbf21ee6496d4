/- # Text — numerals and separators in texts.

A decimal numeral determines its number and holds no separator, so a text built from parts and
numerals joined by a separator can be read back from its end. -/
import Mathlib.Data.Int.Notation
import Mathlib.Data.Nat.Notation
import Mathlib.Logic.Function.Basic
import Mathlib.Tactic.Push

namespace CryptoPilot.Lib

open List

def intDigits : ℤ → List Char
  | .ofNat n => Nat.toDigits 10 n
  | .negSucc n => '-' :: Nat.toDigits 10 (n + 1)

@[simp] theorem toString_int_toList (n : ℤ) : (toString n).toList = intDigits n := by
  cases n with
  | ofNat n => exact (congrArg String.toList Nat.toString_eq_repr).trans Nat.toList_repr
  | negSucc n =>
    change ("-" ++ Nat.repr (n + 1)).toList = _
    rw [String.toList_append, Nat.toList_repr]; rfl

theorem toDigits_injective : Function.Injective (Nat.toDigits 10) := by
  intro m n h
  have hvalue := congrArg (fun digits => Nat.ofDigitChars 10 digits 0) h
  simpa only [Nat.ofDigitChars_ten_toDigits] using hvalue

theorem isDigit_of_mem_numeral {n : ℕ} {c : Char} (h : c ∈ Nat.toDigits 10 n) : c.isDigit = true :=
  Nat.isDigit_of_mem_toDigits (by decide) (by decide) h

theorem intDigits_injective : Function.Injective intDigits := by
  have hsign : ∀ {m n : ℕ}, Nat.toDigits 10 m = '-' :: Nat.toDigits 10 n → False := by
    intro m n h
    have hmem : '-' ∈ Nat.toDigits 10 m := h ▸ mem_cons_self
    exact absurd (isDigit_of_mem_numeral hmem) (by decide)
  intro m n h
  cases m with
  | ofNat m =>
    cases n with
    | ofNat n => exact congrArg Int.ofNat (toDigits_injective h)
    | negSucc n => exact (hsign h).elim
  | negSucc m =>
    cases n with
    | ofNat n => exact (hsign h.symm).elim
    | negSucc n =>
      have htail := toDigits_injective (List.cons.inj h).2
      rw [Nat.succ_inj.mp htail]

theorem notMem_intDigits {c : Char} (hdigit : c.isDigit = false) (hsign : c ≠ '-') (n : ℤ) : c ∉ intDigits n := by
  intro h
  have hnat : ∀ {m : ℕ}, c ∈ Nat.toDigits 10 m → False := by
    intro m hm
    rw [isDigit_of_mem_numeral hm] at hdigit; cases hdigit
  cases n with
  | ofNat n => exact hnat h
  | negSucc n =>
    rcases mem_cons.mp h with h | h
    · exact hsign h
    · exact hnat h

theorem split_last_inj {sep : Char} {xs ys us vs : List Char} (hu : sep ∉ us) (hv : sep ∉ vs)
    (h : xs ++ sep :: us = ys ++ sep :: vs) : xs = ys ∧ us = vs := by
  rcases append_eq_append_iff.mp h with ⟨mid, hys, hus⟩ | ⟨mid, hxs, hvs⟩
  · cases mid with
    | nil => exact ⟨by simpa using hys.symm, by simpa using hus⟩
    | cons c mid =>
      rw [cons_append, List.cons.injEq] at hus
      exact absurd (hus.2 ▸ mem_append_right mid mem_cons_self) hu
  · cases mid with
    | nil => exact ⟨by simpa using hxs, by simpa using hvs.symm⟩
    | cons c mid =>
      rw [cons_append, List.cons.injEq] at hvs
      exact absurd (hvs.2 ▸ mem_append_right mid mem_cons_self) hv

theorem colon_numeral_inj {a b : String} {m n : ℤ}
    (h : a ++ ":" ++ toString m = b ++ ":" ++ toString n) : a = b ∧ m = n := by
  have hlist := congrArg String.toList h
  simp only [String.toList_append, toString_int_toList, append_assoc] at hlist
  have hcolon : ∀ k : ℤ, ':' ∉ intDigits k := notMem_intDigits (by decide) (by decide)
  obtain ⟨hab, hmn⟩ := split_last_inj (hcolon m) (hcolon n) hlist
  exact ⟨String.toList_inj.mp hab, intDigits_injective hmn⟩

theorem append_ne_of_take {p q : String} (n : ℕ) (hp : n ≤ p.toList.length) (hq : n ≤ q.toList.length)
    (h : p.toList.take n ≠ q.toList.take n) (x y : String) : p ++ x ≠ q ++ y := by
  intro heq
  have hlist := congrArg (fun s => s.toList.take n) heq
  simp only [String.toList_append, take_append_of_le_length hp, take_append_of_le_length hq]
    at hlist
  exact h hlist

end CryptoPilot.Lib
