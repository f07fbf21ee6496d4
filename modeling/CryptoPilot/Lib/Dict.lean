/- # Dict — finite maps read with a default value.

A `Dict β` is a finite map from strings (Mathlib's association lists without duplicate keys), read
the way a program reads one with `get(key, default)`. -/
import Mathlib.Data.List.AList

namespace CryptoPilot.Lib

open List

abbrev Dict (β : Type) : Type := AList (fun _ : String => β)

namespace Dict

variable {β : Type} (d : Dict β) (k j : String) (v z : β)

/-- `d.get(k, z)`. -/
def get (d : Dict β) (k : String) (z : β) : β := (d.lookup k).getD z

@[simp] theorem get_empty : get (∅ : Dict β) k z = z := by
  simp [get]

@[simp] theorem get_insert_self : get (d.insert k v) k z = v := by
  simp [get]

theorem get_insert_of_ne (h : j ≠ k) : get (d.insert k v) j z = get d j z := by
  rw [get, get, AList.lookup_insert_ne h]

theorem get_insert : get (d.insert k v) j z = if j = k then v else get d j z := by
  split
  · next h => subst h; exact get_insert_self d j v z
  · next h => exact get_insert_of_ne d k j v z h

/-- The entries whose value is not `z`. -/
def dropDefault [DecidableEq β] (d : Dict β) (z : β) : Dict β :=
  ⟨d.entries.filter (fun e => !decide (e.2 = z)),
    (d.nodupKeys.sublist filter_sublist)⟩

/-- Reading with default `z` does not see that entries equal to `z` were dropped. -/
@[simp] theorem get_dropDefault [DecidableEq β] : get (dropDefault d z) k z = get d k z := by
  obtain ⟨entries, hnodup⟩ := d
  simp only [get, dropDefault, AList.lookup]
  induction entries with
  | nil => rfl
  | cons e rest ih =>
    obtain ⟨key, val⟩ := e
    have hrest := (nodupKeys_cons.mp hnodup).2
    have hfresh := (nodupKeys_cons.mp hnodup).1
    by_cases hk : key = k
    · subst hk
      by_cases hv : val = z
      · -- the only entry of `key` is dropped, so both readings fall back to the default
        have hnone : dlookup key (rest.filter (fun e => !decide (e.2 = z))) = none := by
          rw [dlookup_eq_none]
          intro hmem; exact hfresh ((filter_sublist.map Sigma.fst).subset hmem)
        simp [hv, hnone]
      · simp [hv]
    · have hk' : ¬ k = key := fun h => hk h.symm
      by_cases hv : val = z
      all_goals simpa [hv, dlookup_cons_ne, hk'] using ih hrest

def ofPairs (pairs : List (String × β)) : Dict β :=
  pairs.foldl (fun d p => d.insert p.1 p.2) ∅

variable {pairs : List (String × β)}

theorem lookup_ofPairs (hnodup : (pairs.map Prod.fst).Nodup) :
    AList.lookup k (ofPairs pairs) = some v ↔ (k, v) ∈ pairs := by
  have hrun : ∀ (pairs : List (String × β)) (d : Dict β), (pairs.map Prod.fst).Nodup →
      (AList.lookup k (pairs.foldl (fun d p => d.insert p.1 p.2) d) = some v ↔
        (k, v) ∈ pairs ∨ (k ∉ pairs.map Prod.fst ∧ AList.lookup k d = some v)) := by
    intro pairs
    induction pairs with
    | nil =>
      intro d _; simp
    | cons p rest ih =>
      intro d hd
      obtain ⟨key, val⟩ := p
      rw [map_cons, nodup_cons] at hd
      rw [foldl_cons, ih (d.insert key val) hd.2]
      by_cases hk : k = key
      · subst hk
        have hnot : ∀ v', (k, v') ∉ rest := fun v' h => hd.1 (mem_map.mpr ⟨(k, v'), h, rfl⟩)
        have hsym : val = v ↔ v = val := ⟨Eq.symm, Eq.symm⟩; simp [hnot, hsym]
      · simp [hk, AList.lookup_insert_ne hk]
  rw [ofPairs, hrun pairs ∅ hnodup]; simp

theorem entries_ofPairs (hnodup : (pairs.map Prod.fst).Nodup) :
    (ofPairs pairs).entries.Perm (pairs.map fun p => ⟨p.1, p.2⟩) := by
  have hrun : ∀ (pairs : List (String × β)) (d : Dict β), (pairs.map Prod.fst).Nodup → (∀ p ∈ pairs, p.1 ∉ d) →
      (pairs.foldl (fun d p => d.insert p.1 p.2) d).entries.Perm
        ((pairs.map fun p => (⟨p.1, p.2⟩ : Sigma fun _ : String => β)) ++ d.entries) := by
    intro pairs
    induction pairs with
    | nil => exact fun d _ _ => List.Perm.refl _
    | cons p rest ih =>
      intro d hkeys hfresh
      rw [map_cons, nodup_cons] at hkeys
      have hrest : ∀ q ∈ rest, q.1 ∉ d.insert p.1 p.2 := by
        intro q hq hmem
        rcases (AList.mem_insert d).mp hmem with heq | hold
        · exact hkeys.1 (heq ▸ mem_map_of_mem hq)
        · exact hfresh q (mem_cons_of_mem p hq) hold
      refine (ih (d.insert p.1 p.2) hkeys.2 hrest).trans ?_
      rw [AList.entries_insert_of_notMem (hfresh p mem_cons_self)]; exact perm_middle
  have h := hrun pairs ∅ hnodup fun p _ => AList.notMem_empty p.1
  rwa [AList.empty_entries, append_nil] at h

theorem perm_iff_lookup {d e : Dict β} : d.entries.Perm e.entries ↔ ∀ k, d.lookup k = e.lookup k := by
  constructor
  · exact fun h k => AList.perm_lookup h
  · intro h
    refine lookup_ext d.nodupKeys e.nodupKeys fun k v => ?_
    have hk : d.entries.dlookup k = e.entries.dlookup k := h k
    rw [hk]

theorem lookup_dropDefault [DecidableEq β] (d : Dict β) (z : β) (k : String) :
    (dropDefault d z).lookup k = if d.get k z = z then none else some (d.get k z) := by
  have hget := get_dropDefault d k z
  cases hl : (dropDefault d z).lookup k with
  | none =>
    rw [get, hl] at hget
    rw [if_pos (show d.get k z = z from hget.symm)]
  | some v =>
    have hmem : (⟨k, v⟩ : Sigma fun _ => β) ∈ (dropDefault d z).entries := AList.mem_lookup_iff.mp hl
    have hne : v ≠ z := by simpa using (mem_filter.mp hmem).2
    rw [get, hl] at hget
    rw [← hget, Option.getD_some, if_neg hne]

theorem perm_dropDefault_iff [DecidableEq β] {d e : Dict β} {z : β} :
    (dropDefault d z).entries.Perm (dropDefault e z).entries ↔ ∀ k, d.get k z = e.get k z := by
  rw [perm_iff_lookup]
  constructor
  · intro h k
    rw [← get_dropDefault d k z, ← get_dropDefault e k z, get, get, h k]
  · intro h k
    rw [lookup_dropDefault, lookup_dropDefault, h k]

end Dict

end CryptoPilot.Lib
