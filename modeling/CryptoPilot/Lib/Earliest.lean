/- # Earliest — one row per key, the earliest.

A table keeps for each key the row with the smallest time.  It is filled by merges: the rows on disk
and the new ones are sorted by time and the first row of each key stays.  As sets, the merges of any
number of batches in any order leave the earliest rows of everything that was ever merged
(`covers_log`), and a batch that is dominated by what is there changes nothing
(`earliest_eq_of_dominated`). -/
import CryptoPilot.Lib.Timeline
import Mathlib.Data.Set.Finite.Basic

namespace CryptoPilot.Lib

open List

variable {α κ τ : Type}

/-! # The first row of each key -/

section KeepFirst

variable [DecidableEq κ] [LinearOrder τ] (key : α → κ)

/-- `drop_duplicates(subset=key, keep="first")`. -/
def keepFirst : List α → List α
  | [] => []
  | a :: rest => a :: (keepFirst rest).filter (fun b => key b ≠ key a)

variable {key} {time : α → τ}

theorem mem_of_mem_keepFirst {a : α} : ∀ {l : List α}, a ∈ keepFirst key l → a ∈ l
  | b :: rest, h => by
    rcases mem_cons.mp h with rfl | h
    · exact mem_cons_self
    · exact mem_cons_of_mem _ (mem_of_mem_keepFirst (mem_of_mem_filter h))

theorem pairwise_keepFirst : ∀ l : List α, (keepFirst key l).Pairwise (fun a b => key a ≠ key b)
  | [] => List.Pairwise.nil
  | a :: rest => by
    refine List.Pairwise.cons ?_ ((pairwise_keepFirst rest).filter _)
    intro b hb
    have hne : key b ≠ key a := by simpa using of_mem_filter hb
    exact hne.symm

theorem eq_of_mem_keepFirst {a b : α} {l : List α} (ha : a ∈ keepFirst key l) (hb : b ∈ keepFirst key l)
    (h : key a = key b) : a = b := by
  by_contra hne
  have hsymm : Std.Symm (fun a b : α => key a ≠ key b) := ⟨fun _ _ h' => h'.symm⟩
  exact (pairwise_keepFirst l).forall ha hb hne h

theorem exists_keepFirst_le {x : α} : ∀ {l : List α}, l.Pairwise (fun a b => time a ≤ time b) → x ∈ l →
    ∃ a ∈ keepFirst key l, key a = key x ∧ time a ≤ time x
  | b :: rest, hsorted, hx => by
    rw [pairwise_cons] at hsorted
    rcases mem_cons.mp hx with rfl | hx
    · exact ⟨x, mem_cons_self, rfl, le_rfl⟩
    · by_cases hkey : key b = key x
      · exact ⟨b, mem_cons_self, hkey, hsorted.1 x hx⟩
      · obtain ⟨a, ha, hka, hle⟩ := exists_keepFirst_le hsorted.2 hx
        refine ⟨a, mem_cons_of_mem _ (mem_filter.mpr ⟨ha, ?_⟩), hka, hle⟩
        simpa [hka] using fun h : key x = key b => hkey h.symm

end KeepFirst

/-! # The earliest rows of a set -/

section Sets

variable [LinearOrder τ] (key : α → κ) (time : α → τ)

def earliest (S : Set α) : Set α := {x | x ∈ S ∧ ∀ y ∈ S, key y = key x → time x ≤ time y}

def Distinct (S : Set α) : Prop := ∀ x ∈ S, ∀ y ∈ S, key x = key y → time x = time y → x = y

variable {key time} {S T A B : Set α}

omit [LinearOrder τ] in
theorem Distinct.mono (h : Distinct key time T) (hST : S ⊆ T) : Distinct key time S :=
  fun x hx y hy => h x (hST hx) y (hST hy)

theorem eq_of_mem_earliest (h : Distinct key time S) {x y : α} (hx : x ∈ earliest key time S)
    (hy : y ∈ earliest key time S) (hkey : key x = key y) : x = y := by
  apply h x hx.1 y hy.1 hkey; exact le_antisymm (hx.2 y hy.1 hkey.symm) (hy.2 x hx.1 hkey)

/-- **A dominated batch changes nothing.** -/
theorem earliest_eq_of_dominated (hd : Distinct key time B) (hAB : A ⊆ B)
    (hdom : ∀ b ∈ B, ∃ a ∈ A, key a = key b ∧ time a ≤ time b) : earliest key time A = earliest key time B := by
  ext x
  constructor
  · rintro ⟨hx, hmin⟩
    refine ⟨hAB hx, fun y hy hkey => ?_⟩
    obtain ⟨a, ha, hak, hle⟩ := hdom y hy; exact (hmin a ha (hak.trans hkey)).trans hle
  · rintro ⟨hx, hmin⟩
    obtain ⟨a, ha, hak, hle⟩ := hdom x hx
    have heq : a = x := hd a (hAB ha) x hx hak (le_antisymm hle (hmin a (hAB ha) hak))
    exact ⟨heq ▸ ha, fun y hy => hmin y (hAB hy)⟩

end Sets

/-! # Merging a batch into a table -/

section Merge

variable [DecidableEq κ] [LinearOrder τ] (key : α → κ) (time : α → τ)

/-- Rows on disk, then new rows: sorted by time, stably, and the first of each key kept. -/
def mergeEarliest (existing chunk : List α) : List α := keepFirst key (sortBy time (existing ++ chunk))

variable {key time} {existing chunk : List α}

theorem mem_of_mem_mergeEarliest {x : α} (h : x ∈ mergeEarliest key time existing chunk) :
    x ∈ existing ∨ x ∈ chunk :=
  mem_append.mp (mem_sortBy.mp (mem_of_mem_keepFirst h))

variable (key time) in
/-- A table of a set of rows: all of them its rows, no key twice, and every row of the set preceded
by one of its key. -/
structure Covers (table : List α) (S : Set α) : Prop where
  sub : ∀ x ∈ table, x ∈ S
  once : ∀ x ∈ table, ∀ y ∈ table, key x = key y → x = y
  first : ∀ x ∈ S, ∃ y ∈ table, key y = key x ∧ time y ≤ time x

variable {S : Set α} {table : List α}

omit [DecidableEq κ] in
/-- **A table of a set has its earliest rows**, where key and time tell the rows apart. -/
theorem Covers.mem_iff (h : Covers key time table S) (hd : Distinct key time S) {x : α} :
    x ∈ table ↔ x ∈ earliest key time S := by
  constructor
  · intro hx
    refine ⟨h.sub x hx, fun y hy hkey => ?_⟩
    obtain ⟨a, ha, hak, hle⟩ := h.first y hy; rwa [h.once a ha x hx (hak.trans hkey)] at hle
  · rintro ⟨hx, hmin⟩
    obtain ⟨a, ha, hak, hle⟩ := h.first x hx
    rwa [hd a (h.sub a ha) x hx hak (le_antisymm hle (hmin a (h.sub a ha) hak))] at ha

theorem Covers.merge (h : Covers key time existing S)
    (hmem : ∀ x, x ∈ table ↔ x ∈ mergeEarliest key time existing chunk) :
    Covers key time table (S ∪ {x | x ∈ chunk}) := by
  have hfirst : ∀ y ∈ existing ++ chunk, ∃ a ∈ table, key a = key y ∧ time a ≤ time y := by
    intro y hy
    obtain ⟨a, ha, hak, hle⟩ : ∃ a ∈ mergeEarliest key time existing chunk, key a = key y ∧ time a ≤ time y :=
      exists_keepFirst_le (pairwise_sortBy time _) (mem_sortBy.mpr hy)
    exact ⟨a, (hmem a).mpr ha, hak, hle⟩
  refine ⟨?_, fun x hx y hy => eq_of_mem_keepFirst ((hmem x).mp hx) ((hmem y).mp hy), ?_⟩
  · intro x hx; exact (mem_of_mem_mergeEarliest ((hmem x).mp hx)).imp (h.sub x) id
  · rintro x (hx | hx)
    · obtain ⟨y, hy, hyk, hyle⟩ := h.first x hx
      obtain ⟨a, ha, hak, hale⟩ := hfirst y (mem_append_left _ hy)
      exact ⟨a, ha, hak.trans hyk, hale.trans hyle⟩
    · exact hfirst x (mem_append_right _ hx)

/-! # A table filled by a log of writes -/

section Log

variable {T W : Type}

def logged (batch : W → Option (List α)) (log : List W) : Set α := {x | ∃ w ∈ log, ∃ b, batch w = some b ∧ x ∈ b}

variable {batch : W → Option (List α)} {log : List W}

omit [DecidableEq κ] [LinearOrder τ] in
theorem logged_append (w : W) :
    logged batch (log ++ [w]) = logged batch log ∪ {x | ∃ b, batch w = some b ∧ x ∈ b} := by
  ext x
  constructor
  · rintro ⟨w', hw', hx⟩
    rcases mem_append.mp hw' with h | h
    · exact Or.inl ⟨w', h, hx⟩
    · exact Or.inr (mem_singleton.mp h ▸ hx)
  · rintro (⟨w', hw', hx⟩ | hx)
    · exact ⟨w', mem_append_left _ hw', hx⟩
    · exact ⟨w, mem_append_right _ (mem_singleton_self w), hx⟩

theorem covers_log {apply : T → W → T} (table : T → List α) {start : T} {Ok : α → Prop} (hstart : table start = [])
    (hmerge : ∀ t w b, batch w = some b → (∀ x ∈ table t, Ok x) → (∀ x ∈ b, Ok x) →
      ∀ x, x ∈ table (apply t w) ↔ x ∈ mergeEarliest key time (table t) b)
    (hother : ∀ t w, batch w = none → table (apply t w) = table t)
    (hok : ∀ x ∈ logged batch log, Ok x) : Covers key time (table (log.foldl apply start)) (logged batch log) := by
  induction log using reverseRecOn with
  | nil => exact ⟨by simp [hstart], by simp [hstart], by simp [logged]⟩
  | append_singleton log w ih =>
    have hset : logged batch (log ++ [w]) = _ := logged_append w
    have hprev := ih fun x hx => hok x (hset ▸ Or.inl hx)
    rw [foldl_append, foldl_cons, foldl_nil]
    cases hb : batch w with
    | none =>
      rw [hother _ _ hb, show logged batch (log ++ [w]) = logged batch log by simp [hset, hb]]
      exact hprev
    | some b =>
      rw [show logged batch (log ++ [w]) = logged batch log ∪ {x | x ∈ b} by simp [hset, hb]] at hok ⊢
      exact hprev.merge (hmerge _ w b hb (fun x hx => hok x (Or.inl (hprev.sub x hx))) fun x hx =>
        hok x (Or.inr hx))

end Log

end Merge

end CryptoPilot.Lib
