/- # Paging — rows fetched a page at a time, by a cursor that rows may share.

A reader asks for the first `limit` rows from a cursor, keeps the wanted ones, and goes on after the
greatest key among these; it stops at a short page, or at one without a wanted row.  `collect` is
what it gets of ascending rows, always a sublist of the wanted ones.  It is all of them exactly
where the pages cut well (`collect_eq_iff`): no full page leaves a wanted row under its greatest
key, nor hides wanted rows behind rows that are not. -/
import Mathlib.Data.List.Basic
import Mathlib.Order.Basic
import Mathlib.Tactic.Linarith

namespace CryptoPilot.Lib.Paging

open List

variable {α : Type} (key : α → ℤ) (wanted : α → Bool) (limit : ℕ)

def lastKey (rows : List α) : Option ℤ := ((rows.filter wanted).map key).max?

variable {rows : List α}

theorem mem_of_lastKey {last : ℤ} (h : lastKey key wanted rows = some last) :
    (∃ x ∈ rows, wanted x = true ∧ key x = last) ∧ ∀ x ∈ rows, wanted x = true → key x ≤ last := by
  obtain ⟨hmem, hle⟩ := max?_eq_some_iff.mp h
  obtain ⟨x, hx, rfl⟩ := mem_map.mp hmem
  obtain ⟨hx, hwanted⟩ := mem_filter.mp hx
  exact ⟨⟨x, hx, hwanted, rfl⟩, fun y hy hw => hle _ (mem_map_of_mem (mem_filter.mpr ⟨hy, hw⟩))⟩

theorem lastKey_eq_none (h : lastKey key wanted rows = none) : rows.filter wanted = [] :=
  map_eq_nil_iff.mp (max?_eq_none_iff.mp h)

def after (last : ℤ) (rows : List α) : List α := rows.filter fun x => decide (last < key x)

theorem length_after_lt {last : ℤ} (h : ∃ x ∈ rows, key x = last) : (after key last rows).length < rows.length := by
  obtain ⟨x, hx, hkey⟩ := h
  refine length_filter_lt_length_iff_exists.mpr ⟨x, hx, ?_⟩; simp [hkey]

def collect (rows : List α) : List α :=
  if rows.length < limit then rows.filter wanted
  else
    match _h : lastKey key wanted (rows.take limit) with
    | none => []
    | some last =>
      (rows.take limit).filter wanted ++ collect (after key last rows)
termination_by rows.length
decreasing_by
  obtain ⟨⟨x, hx, -, hkey⟩, -⟩ := mem_of_lastKey key wanted _h
  exact length_after_lt key ⟨x, mem_of_mem_take hx, hkey⟩

/-- The pages of some rows cut well: a full page takes every wanted row up to its greatest key, and
has one if any is left. -/
inductive CutsWell : List α → Prop
  | short {rows : List α} (h : rows.length < limit) : CutsWell rows
  | idle {rows : List α} (h : ∀ x ∈ rows, wanted x = false) : CutsWell rows
  | full {rows : List α} {last : ℤ} (page : lastKey key wanted (rows.take limit) = some last)
      (cut : ∀ x ∈ rows.drop limit, wanted x = true → last < key x)
      (rest : CutsWell (after key last rows)) : CutsWell rows

section Collect

variable {key wanted limit} {rows : List α} {last : ℤ}

theorem collect_short (h : rows.length < limit) : collect key wanted limit rows = rows.filter wanted := by
  rw [collect, if_pos h]

theorem collect_idle (hfull : limit ≤ rows.length) (h : lastKey key wanted (rows.take limit) = none) :
    collect key wanted limit rows = [] := by
  rw [collect, if_neg (not_lt.mpr hfull)]
  split
  next => rfl
  next last hlast =>
    rw [h] at hlast; cases hlast

theorem collect_full (hfull : limit ≤ rows.length) (h : lastKey key wanted (rows.take limit) = some last) :
    collect key wanted limit rows =
      (rows.take limit).filter wanted ++ collect key wanted limit (after key last rows) := by
  rw [collect, if_neg (not_lt.mpr hfull)]
  split
  next hnone =>
    rw [h] at hnone; cases hnone
  next last' hlast =>
    obtain rfl : last = last' := Option.some.inj (h.symm.trans hlast); rfl

theorem collect_nothing (h : ∀ x ∈ rows.take limit, wanted x = false) : collect key wanted limit rows = [] := by
  have hpage : (rows.take limit).filter wanted = [] :=
    filter_eq_nil_iff.mpr fun x hx => by rw [h x hx]; exact Bool.false_ne_true
  rcases lt_or_ge rows.length limit with hshort | hfull
  · rw [take_of_length_le hshort.le] at hpage
    rw [collect_short hshort, hpage]
  · refine collect_idle hfull ?_
    rw [lastKey, hpage]; rfl

theorem page_prefix (rows : List α) : (rows.take limit).filter wanted <+: collect key wanted limit rows := by
  rcases lt_or_ge rows.length limit with hshort | hfull
  · simp only [collect_short hshort, take_of_length_le hshort.le, prefix_rfl]
  · cases hlast : lastKey key wanted (rows.take limit) with
    | none =>
      rw [lastKey_eq_none key wanted hlast]; exact nil_prefix
    | some last =>
      rw [collect_full hfull hlast]; exact prefix_append _ _

theorem filter_after (h : lastKey key wanted (rows.take limit) = some last) :
    (after key last rows).filter wanted =
      ((rows.drop limit).filter wanted).filter fun x => decide (last < key x) := by
  obtain ⟨-, hle⟩ := mem_of_lastKey key wanted h
  have hpage : (rows.take limit).filter (fun x => wanted x && decide (last < key x)) = [] := by
    refine filter_eq_nil_iff.mpr fun x hx hboth => ?_
    rw [Bool.and_eq_true, decide_eq_true_eq] at hboth
    exact absurd (hle x hx hboth.1) (not_le.mpr hboth.2)
  calc (after key last rows).filter wanted
      = (rows.take limit ++ rows.drop limit).filter fun x => wanted x && decide (last < key x) := by
        rw [after, filter_filter, take_append_drop]
    _ = (rows.drop limit).filter fun x => wanted x && decide (last < key x) := by
        rw [filter_append, hpage, nil_append]
    _ = ((rows.drop limit).filter wanted).filter fun x => decide (last < key x) := by
        rw [filter_filter]; exact filter_congr fun x _ => Bool.and_comm _ _

/-- **The reader gets wanted rows only**, each once and in order. -/
theorem collect_sublist (rows : List α) : List.Sublist (collect key wanted limit rows) (rows.filter wanted) := by
  induction rows using collect.induct key wanted limit with
  | case1 rows h => rw [collect_short h]
  | case2 rows h hlast =>
    rw [collect_idle (not_lt.mp h) hlast]; exact nil_sublist _
  | case3 rows h last hlast ih =>
    rw [collect_full (not_lt.mp h) hlast]
    conv_rhs => rw [← take_append_drop limit rows, filter_append]
    refine List.Sublist.append_left (ih.trans ?_) _
    rw [filter_after hlast]; exact filter_sublist

/-- **The reader gets every wanted row exactly where its pages cut well.** -/
theorem collect_eq_iff
    (rows : List α) : collect key wanted limit rows = rows.filter wanted ↔ CutsWell key wanted limit rows := by
  induction rows using collect.induct key wanted limit with
  | case1 rows h => exact ⟨fun _ => .short h, fun _ => collect_short h⟩
  | case2 rows h hlast =>
    rw [collect_idle (not_lt.mp h) hlast]
    constructor
    · intro heq; exact .idle fun x hx => Bool.not_eq_true _ ▸ filter_eq_nil_iff.mp heq.symm x hx
    · rintro (hshort | hidle | ⟨hpage, -, -⟩)
      · exact absurd hshort h
      · exact (filter_eq_nil_iff.mpr fun x hx => by rw [hidle x hx]; exact Bool.false_ne_true).symm
      · rw [hlast] at hpage; cases hpage
  | case3 rows h last hlast ih =>
    rw [collect_full (not_lt.mp h) hlast]
    have hsplit : rows.filter wanted = (rows.take limit).filter wanted ++ (rows.drop limit).filter wanted := by
      rw [← filter_append, take_append_drop]
    rw [hsplit, append_cancel_left_eq]
    have hafter := filter_after hlast
    constructor
    · intro heq
      -- nothing wanted is lost under the greatest key, since what follows it has as many rows
      have hlength : ((rows.drop limit).filter wanted).length ≤
          (((rows.drop limit).filter wanted).filter fun x => decide (last < key x)).length := by
        have hle := (@collect_sublist α key wanted limit (after key last rows)).length_le
        rwa [heq, hafter] at hle
      have hall : ((rows.drop limit).filter wanted).filter (fun x => decide (last < key x)) =
        (rows.drop limit).filter wanted :=
        filter_sublist.eq_of_length_le hlength
      refine .full hlast (fun x hx hw => ?_) (ih.mp (heq.trans (hall.symm.trans hafter.symm)))
      exact of_decide_eq_true (filter_eq_self.mp hall x (mem_filter.mpr ⟨hx, hw⟩))
    · rintro (hshort | hidle | ⟨hpage, hcut, hrest⟩)
      · exact absurd hshort h
      · obtain ⟨⟨x, hx, hw, -⟩, -⟩ := mem_of_lastKey key wanted hlast
        rw [hidle x (mem_of_mem_take hx)] at hw; cases hw
      · obtain rfl : last = _ := Option.some.inj (hlast.symm.trans hpage)
        rw [ih.mpr hrest, hafter]
        refine filter_eq_self.mpr fun x hx => ?_
        obtain ⟨hx, hw⟩ := mem_filter.mp hx; exact decide_eq_true (hcut x hx hw)

end Collect

end CryptoPilot.Lib.Paging
