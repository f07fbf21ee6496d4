/- # Carry — equal shares over slots, carried past the slots that stay empty.

Every slot brings the same share.  A slot with an entry takes its share with whatever was carried so
far, an empty slot passes both on (`carry`), and `residue` is what is still carried at the end.
Nothing is lost (`sum_carry`), every entry gets something (`carry_pos`), and what the entries up to
a key get does not depend on the slots after it (`carry_filter`). -/
import Mathlib.Algebra.BigOperators.Group.List.Basic
import Mathlib.Algebra.Order.Monoid.Defs
import Mathlib.Order.Monotone.Defs
import Mathlib.Order.Interval.Set.Basic
import Mathlib.Tactic.Abel

namespace CryptoPilot.Lib

open List

variable {α K : Type}

section Sum

variable [AddCommMonoid K] (share : K)

def carry : K → List (Option α) → List (α × K)
  | _, [] => []
  | carried, none :: rest => carry (carried + share) rest
  | carried, some x :: rest => (x, carried + share) :: carry 0 rest

def residue : K → List (Option α) → K
  | carried, [] => carried
  | carried, none :: rest => residue (carried + share) rest
  | _, some _ :: rest => residue 0 rest

variable (carried : K)

theorem carry_append (slots later : List (Option α)) :
    carry share carried (slots ++ later) =
      carry share carried slots ++ carry share (residue share carried slots) later := by
  induction slots generalizing carried with
  | nil => rfl
  | cons slot rest ih =>
    cases slot with
    | none => exact ih (carried + share)
    | some x => exact congrArg ((x, carried + share) :: ·) (ih 0)

theorem residue_append (slots later : List (Option α)) :
    residue share carried (slots ++ later) = residue share (residue share carried slots) later := by
  induction slots generalizing carried with
  | nil => rfl
  | cons slot rest ih =>
    cases slot with
    | none => exact ih (carried + share)
    | some x => exact ih 0

theorem carry_entries (slots : List (Option α)) :
    (carry share carried slots).map Prod.fst = slots.filterMap id := by
  induction slots generalizing carried with
  | nil => rfl
  | cons slot rest ih =>
    cases slot with
    | none => exact ih (carried + share)
    | some x => exact congrArg (x :: ·) (ih 0)

theorem sum_carry (slots : List (Option α)) :
    ((carry share carried slots).map Prod.snd).sum + residue share carried slots =
      carried + slots.length • share := by
  induction slots generalizing carried with
  | nil => simp [carry, residue]
  | cons slot rest ih =>
    have hstep : (slot :: rest).length • share = share + rest.length • share := by
      rw [length_cons, succ_nsmul']
    cases slot with
    | none =>
      show ((carry share (carried + share) rest).map Prod.snd).sum + residue share (carried + share) rest = _
      rw [ih, hstep, add_assoc]
    | some x =>
      show (carried + share + ((carry share 0 rest).map Prod.snd).sum) + residue share 0 rest = _
      rw [add_assoc, ih, zero_add, hstep, add_assoc]

end Sum

section Order

variable [AddCommMonoid K] [PartialOrder K] [IsOrderedCancelAddMonoid K] {share : K}

section

variable {carried : K} (hshare : 0 < share) (h : 0 ≤ carried) (slots : List (Option α))

include hshare h slots

theorem residue_nonneg :
    0 ≤ residue share carried slots := by
  induction slots generalizing carried with
  | nil => exact h
  | cons slot rest ih =>
    cases slot with
    | none => exact ih (add_nonneg h hshare.le)
    | some x => exact ih le_rfl

theorem carry_pos :
    ∀ p ∈ carry share carried slots, 0 < p.2 := by
  induction slots generalizing carried with
  | nil => exact fun p hp => absurd hp not_mem_nil
  | cons slot rest ih =>
    cases slot with
    | none => exact ih (add_nonneg h hshare.le)
    | some x =>
      intro p hp
      rcases mem_cons.mp hp with rfl | hp
      · exact add_pos_of_nonneg_of_pos h hshare
      · exact ih le_rfl p hp

end

end Order

section Key

variable (key : α → ℕ) (bound : ℕ)

/-- Two runs of slots that are the same until whatever follows comes after a key. -/
inductive AgreeTo : List (Option α) → List (Option α) → Prop
  | same (slot : Option α) {slots slots' : List (Option α)} (rest : AgreeTo slots slots') :
      AgreeTo (slot :: slots) (slot :: slots')
  | late {slots slots' : List (Option α)} (left : ∀ x, some x ∈ slots → bound < key x)
      (right : ∀ x, some x ∈ slots' → bound < key x) : AgreeTo slots slots'

variable {key bound}

variable {slots : List (Option α)}

theorem mem_carry_fst [AddCommMonoid K] {share carried : K} {p : α × K}
    (h : p ∈ carry share carried slots) : some p.1 ∈ slots := by
  have hmem := mem_map_of_mem (f := Prod.fst) h
  rw [carry_entries, mem_filterMap] at hmem
  obtain ⟨slot, hslot, hp⟩ := hmem; exact (show slot = some p.1 from hp) ▸ hslot

theorem carry_filter_late [AddCommMonoid K] (share carried : K) (h : ∀ x, some x ∈ slots → bound < key x) :
    (carry share carried slots).filter (fun p => decide (key p.1 ≤ bound)) = [] :=
  filter_eq_nil_iff.mpr fun p hp => by
    have hlt := h p.1 (mem_carry_fst hp); simp [hlt]

theorem carry_filter [AddCommMonoid K] (share : K) {slots slots' : List (Option α)}
    (h : AgreeTo key bound slots slots')
    (carried : K) :
    (carry share carried slots).filter (fun p => decide (key p.1 ≤ bound)) =
      (carry share carried slots').filter (fun p => decide (key p.1 ≤ bound)) := by
  induction h generalizing carried with
  | same slot rest ih =>
    cases slot with
    | none => exact ih (carried + share)
    | some x =>
      show ((x, carried + share) :: carry share 0 _).filter _ = ((x, carried + share) :: carry share 0 _).filter _
      rw [filter_cons, filter_cons, ih]
  | late left right => rw [carry_filter_late share carried left, carry_filter_late share carried right]

/-! ## Slots over consecutive windows -/

section Windows

variable (key) (edge : ℕ → ℕ) (total : ℕ) {slot slot' : ℕ → Option α}

section

variable (hmono : MonotoneOn edge (Set.Iic total))
  (hin : ∀ k < total, ∀ x, slot k = some x → edge k ≤ key x ∧ key x < edge (k + 1))

include hmono hin

theorem entries_sorted (m : ℕ) (hm : m ≤ total) :
    (∀ x ∈ ((List.range m).map slot).filterMap id, key x < edge m) ∧
      (((List.range m).map slot).filterMap id).Pairwise fun x y => key x < key y := by
  induction m with
  | zero => exact ⟨fun x hx => absurd hx not_mem_nil, List.Pairwise.nil⟩
  | succ m ih =>
    obtain ⟨hlt, hsorted⟩ := ih (by omega)
    have hle : edge m ≤ edge (m + 1) := hmono (Set.mem_Iic.mpr (by omega)) (Set.mem_Iic.mpr hm) (by omega)
    rw [range_succ, map_append, filterMap_append]
    cases hslot : slot m with
    | none =>
      have hnil : ([m].map slot).filterMap id = [] := by simp [hslot]
      rw [hnil, append_nil]; exact ⟨fun x hx => (hlt x hx).trans_le hle, hsorted⟩
    | some y =>
      have hone : ([m].map slot).filterMap id = [y] := by simp [hslot]
      obtain ⟨hfrom, hto⟩ := hin m (by omega) y hslot
      rw [hone]
      constructor
      · intro x hx
        rcases mem_append.mp hx with hx | hx
        · exact (hlt x hx).trans_le hle
        · rwa [mem_singleton.mp hx]
      · refine pairwise_append.mpr ⟨hsorted, pairwise_singleton _ _, fun x hx z hz => ?_⟩
        rw [mem_singleton.mp hz]; exact (hlt x hx).trans_le hfrom

theorem agreeTo_of_windows (hin' : ∀ k < total, ∀ x, slot' k = some x → edge k ≤ key x ∧ key x < edge (k + 1))
    (hto : ∀ k < total, ∀ x, slot k = some x → key x ≤ bound → slot' k = some x)
    (hfrom : ∀ k < total, ∀ x, slot' k = some x → key x ≤ bound → slot k = some x) (m : ℕ) :
    ∀ first, first + m ≤ total →
      AgreeTo key bound ((range' first m).map slot) ((range' first m).map slot') := by
  -- everything from a window on that starts after the key is late
  have hlate : ∀ {slot : ℕ → Option α},
      (∀ k < total, ∀ x, slot k = some x → edge k ≤ key x ∧ key x < edge (k + 1)) →
      ∀ {first m : ℕ}, first + m ≤ total → bound < edge first →
        ∀ x, some x ∈ (range' first m).map slot → bound < key x := by
    intro slot hin first m hm hfirst x hx
    obtain ⟨k, hk, hslot⟩ := mem_map.mp hx
    obtain ⟨hlo, hhi⟩ := mem_range'_1.mp hk
    have hle := hmono (Set.mem_Iic.mpr (by omega)) (Set.mem_Iic.mpr (by omega)) hlo
    exact (hfirst.trans_le hle).trans_le (hin k (by omega) x hslot).1
  induction m with
  | zero =>
    exact fun first _ => .late (fun x hx => absurd hx not_mem_nil) fun x hx => absurd hx not_mem_nil
  | succ m ih =>
    intro first hm
    have hfirst : first < total := by omega
    rw [range'_succ, map_cons, map_cons]
    by_cases hslot : slot first = slot' first
    · rw [← hslot]; exact .same _ (ih (first + 1) (by omega))
    · have hnext : bound < edge (first + 1) := by
        -- a window that ends by the key has all its entries up to it
        by_contra hle
        refine hslot (Option.ext fun x =>
          ⟨fun hx => hto first hfirst x hx ?_, fun hx => hfrom first hfirst x hx ?_⟩)
        · have := (hin first hfirst x hx).2; omega
        · have := (hin' first hfirst x hx).2; omega
      refine .late (fun x hx => ?_) fun x hx => ?_
      · rcases mem_cons.mp hx with hx | hx
        · by_contra hle; exact hslot (hx.symm.trans (hto first hfirst x hx.symm (by omega)).symm)
        · exact hlate hin (by omega) hnext x hx
      · rcases mem_cons.mp hx with hx | hx
        · by_contra hle; exact hslot ((hfrom first hfirst x hx.symm (by omega)).trans hx)
        · exact hlate hin' (by omega) hnext x hx

end

end Windows

end Key

end CryptoPilot.Lib
