/- # Slots — values written into computed slots.

A vectorised program merges two sequences without a loop: it computes the slot of every value and
writes each at its own.  `scatter` is the writing.  `merged` is the sequence meant, one head for
each group of members, and for members in the order of their groups the slots are `b + below b` for
the head of group `b` and `b + 1 + k` for the `k`-th member (`scatter_merged`). -/
import Mathlib.Data.List.Basic
import Mathlib.Data.List.Induction
import Mathlib.Data.List.TakeWhile
import Mathlib.Order.Lattice

namespace CryptoPilot.Lib

open List

/-! ## §1 Writes -/

section Scatter

variable {β : Type}

def scatter (writes : List (ℕ × β)) (init : List β) : List β := writes.foldl (fun xs w => xs.set w.1 w.2) init

theorem scatter_concat (writes : List (ℕ × β)) (w : ℕ × β) (init : List β) :
    scatter (writes ++ [w]) init = (scatter writes init).set w.1 w.2 := by
  rw [scatter, foldl_append]; rfl

@[simp] theorem length_scatter (writes : List (ℕ × β)) (init : List β) :
    (scatter writes init).length = init.length := by
  induction writes using reverseRecOn with
  | nil => rfl
  | append_singleton writes w ih => rw [scatter_concat, length_set, ih]

variable {writes : List (ℕ × β)}

theorem getElem?_scatter {init : List β} {i : ℕ} {v : β} (hi : i < init.length)
    (hval : ∀ w ∈ writes, w.1 = i → w.2 = v)
    (hmem : ∃ w ∈ writes, w.1 = i) : (scatter writes init)[i]? = some v := by
  induction writes using reverseRecOn with
  | nil =>
    obtain ⟨w, hw, -⟩ := hmem; exact absurd hw not_mem_nil
  | append_singleton writes w ih =>
    rw [scatter_concat]
    by_cases hw : w.1 = i
    · rw [hw, getElem?_set_self (by rwa [length_scatter]),
        hval w (mem_append_right _ (mem_singleton_self w)) hw]
    · rw [getElem?_set_ne hw]
      refine ih (fun x hx => hval x (mem_append_left _ hx)) ?_
      obtain ⟨x, hx, heq⟩ := hmem
      rcases mem_append.mp hx with hx | hx
      · exact ⟨x, hx, heq⟩
      · rw [mem_singleton.mp hx] at heq; exact absurd heq hw

theorem scatter_eq {init target : List β} (hlen : init.length = target.length)
    (hval : ∀ w ∈ writes, target[w.1]? = some w.2) (hcover : ∀ i < target.length, ∃ w ∈ writes, w.1 = i) :
    scatter writes init = target := by
  refine ext_getElem? fun i => ?_
  rcases Nat.lt_or_ge i target.length with hi | hi
  · rw [getElem?_eq_getElem hi]
    refine getElem?_scatter (hlen ▸ hi) (fun w hw heq => ?_) (hcover i hi)
    have htarget := hval w hw
    rw [heq, getElem?_eq_getElem hi, Option.some.injEq] at htarget; exact htarget.symm
  · rw [getElem?_eq_none hi, getElem?_eq_none (by rw [length_scatter, hlen]; exact hi)]

end Scatter

/-! ## §2 Groups in order -/

section Groups

variable {α κ : Type} [LinearOrder κ] (key : α → κ) {members : List α}

theorem filter_append_filter (h : members.Pairwise fun x y => key x ≤ key y) (bound : κ) :
    members.filter (fun x => decide (key x < bound)) ++ members.filter (fun x =>
      decide (bound ≤ key x)) = members := by
  induction members with
  | nil => rfl
  | cons x rest ih =>
    obtain ⟨hle, hrest⟩ := pairwise_cons.mp h
    rcases lt_or_ge (key x) bound with hx | hx
    · rw [filter_cons_of_pos (by simpa using hx), filter_cons_of_neg (by simpa using hx),
        cons_append, ih hrest]
    · have hnone : (x :: rest).filter (fun y => decide (key y < bound)) = [] := by
        refine filter_eq_nil_iff.mpr fun y hy => ?_
        rw [decide_eq_true_eq, not_lt]
        rcases mem_cons.mp hy with rfl | hy
        · exact hx
        · exact hx.trans (hle y hy)
      rw [hnone, nil_append, filter_eq_self]
      intro y hy
      refine decide_eq_true ?_
      rcases mem_cons.mp hy with rfl | hy
      · exact hx
      · exact hx.trans (hle y hy)

theorem takeWhile_eq_filter (h : members.Pairwise fun x y => key x ≤ key y) (bound : κ) :
    members.takeWhile (fun x => decide (key x < bound)) = members.filter fun x => decide (key x < bound) := by
  induction members with
  | nil => rfl
  | cons x rest ih =>
    obtain ⟨hle, hrest⟩ := pairwise_cons.mp h
    by_cases hx : key x < bound
    · rw [takeWhile_cons_of_pos (by simpa using hx), filter_cons_of_pos (by simpa using hx), ih hrest]
    · rw [takeWhile_cons_of_neg (by simpa using hx), filter_cons_of_neg (by simpa using hx)]
      refine (filter_eq_nil_iff.mpr fun y hy => ?_).symm
      rw [decide_eq_true_eq, not_lt]; exact (not_lt.mp hx).trans (hle y hy)

theorem dropWhile_eq_filter (h : members.Pairwise fun x y => key x ≤ key y) (bound : κ) :
    members.dropWhile (fun x => decide (key x < bound)) = members.filter fun x => decide (bound ≤ key x) := by
  have hsplit := takeWhile_append_dropWhile (p := fun x => decide (key x < bound)) (l := members)
  rw [takeWhile_eq_filter key h] at hsplit
  exact append_cancel_left (hsplit.trans (filter_append_filter key h bound).symm)

theorem takeWhile_congr {α : Type} {p q : α → Bool} {l : List α} (h : ∀ x ∈ l, p x = q x) :
    l.takeWhile p = l.takeWhile q := by
  induction l with
  | nil => rfl
  | cons x l ih =>
    rw [takeWhile_cons, takeWhile_cons, h x mem_cons_self, ih fun y hy => h y (mem_cons_of_mem x hy)]

theorem dropWhile_congr {α : Type} {p q : α → Bool} {l : List α} (h : ∀ x ∈ l, p x = q x) :
    l.dropWhile p = l.dropWhile q := by
  have hp := takeWhile_append_dropWhile (p := p) (l := l)
  rw [takeWhile_congr h] at hp; exact append_cancel_left (hp.trans takeWhile_append_dropWhile.symm)

end Groups

/-! ## §3 Heads and members -/

section Merged

variable {β : Type} (head : ℕ → β) (members : List (ℕ × β))

def group (b : ℕ) : List (ℕ × β) := members.filter fun p => decide (p.1 = b)

def below (b : ℕ) : ℕ := (members.filter fun p => decide (p.1 < b)).length

def merged (n : ℕ) : List β := (List.range n).flatMap fun b => head b :: (group members b).map Prod.snd

theorem merged_succ (n : ℕ) :
    merged head members (n + 1) = merged head members n ++ head n :: (group members n).map Prod.snd := by
  rw [merged, range_succ]; simp [merged]

variable {members} (h : members.Pairwise fun x y => x.1 ≤ y.1)

include h

theorem below_group_rest (n : ℕ) :
    members.filter (fun p => decide (p.1 < n)) ++ (group members n ++ members.filter fun p => decide (n < p.1)) =
      members := by
  have hrest : (members.filter fun p => decide (n ≤ p.1)).Pairwise fun x y => x.1 ≤ y.1 := h.filter _
  have hsplit := filter_append_filter Prod.fst hrest (n + 1)
  rw [filter_filter, filter_filter] at hsplit
  have hgroup : group members n = members.filter fun p => decide (p.1 < n + 1) && decide (n ≤ p.1) := by
    refine filter_congr fun p _ => ?_
    rw [← Bool.decide_and, decide_eq_decide]; omega
  have hlater : (members.filter fun p => decide (n < p.1)) =
      members.filter fun p => decide (n + 1 ≤ p.1) && decide (n ≤ p.1) := by
    refine filter_congr fun p _ => ?_
    rw [← Bool.decide_and, decide_eq_decide]; omega
  rw [hgroup, hlater, hsplit]; exact filter_append_filter Prod.fst h n

theorem filter_lt_succ (n : ℕ) :
    members.filter (fun p => decide (p.1 < n + 1)) =
      members.filter (fun p => decide (p.1 < n)) ++ group members n := by
  have hprior : (members.filter fun p => decide (p.1 < n + 1)).Pairwise fun x y => x.1 ≤ y.1 := h.filter _
  rw [← filter_append_filter Prod.fst hprior n, filter_filter, filter_filter]
  congr 1
  all_goals
    refine filter_congr fun p _ => ?_
    rw [← Bool.decide_and, decide_eq_decide]; omega

theorem below_succ (n : ℕ) : below members (n + 1) = below members n + (group members n).length := by
  rw [below, filter_lt_succ h, length_append]; rfl

theorem length_merged (n : ℕ) : (merged head members n).length = n + below members n := by
  induction n with
  | zero => simp [merged, below]
  | succ n ih =>
    rw [merged_succ, length_append, length_cons, length_map, below_succ h]; omega

theorem getElem?_below (n r : ℕ) (hr : r < (group members n).length) :
    members[below members n + r]? = (group members n)[r]? := by
  have hsplit := congrArg (fun l => l[below members n + r]?) (below_group_rest h n)
  rw [← hsplit, getElem?_append_right (show below members n ≤ _ from Nat.le_add_right _ _),
    show below members n + r - (members.filter fun p => decide (p.1 < n)).length = r from
      Nat.add_sub_cancel_left (below members n) r, List.getElem?_append_left hr]

theorem member_place {k n : ℕ} {v : β} (hk : members[k]? = some (n, v)) :
    ∃ r < (group members n).length, k = below members n + r ∧ (group members n)[r]? = some (n, v) := by
  rw [← below_group_rest h n] at hk
  have hlo : below members n ≤ k := by
    by_contra hlt
    rw [List.getElem?_append_left (not_le.mp hlt)] at hk
    have hmem := (mem_filter.mp (mem_of_getElem? hk)).2
    rw [decide_eq_true_eq] at hmem; exact lt_irrefl _ hmem
  rw [getElem?_append_right hlo] at hk
  have hhi : k - below members n < (group members n).length := by
    by_contra hle
    have hk' := hk
    rw [show (members.filter fun p => decide (p.1 < n)).length = below members n from rfl,
      getElem?_append_right (not_lt.mp hle)] at hk'
    have hmem := (mem_filter.mp (mem_of_getElem? hk')).2
    rw [decide_eq_true_eq] at hmem; exact lt_irrefl _ hmem
  refine ⟨k - below members n, hhi, by omega, ?_⟩
  rwa [show (members.filter fun p => decide (p.1 < n)).length = below members n from rfl,
    List.getElem?_append_left hhi] at hk

/-! ### Slots -/

theorem merged_head {b n : ℕ} (hb : b < n) : (merged head members n)[b + below members b]? = some (head b) := by
  induction n with
  | zero => omega
  | succ n ih =>
    rw [merged_succ]
    have hlen := length_merged head h n
    rcases Nat.lt_succ_iff_lt_or_eq.mp hb with hb | rfl
    · have hslot := ih hb; rwa [List.getElem?_append_left (List.getElem?_eq_some_iff.mp hslot).1]
    · rw [getElem?_append_right hlen.le, hlen, Nat.sub_self, getElem?_cons_zero]

theorem merged_member {k b n : ℕ} {v : β} (hk : members[k]? = some (b, v)) (hb : b < n) :
    (merged head members n)[b + 1 + k]? = some v := by
  induction n with
  | zero => omega
  | succ n ih =>
    rw [merged_succ]
    have hlen := length_merged head h n
    rcases Nat.lt_succ_iff_lt_or_eq.mp hb with hb | rfl
    · have hslot := ih hb; rwa [List.getElem?_append_left (List.getElem?_eq_some_iff.mp hslot).1]
    · obtain ⟨r, -, rfl, hr⟩ := member_place h hk
      rw [getElem?_append_right (by omega), hlen,
        show b + 1 + (below members b + r) - (b + below members b) = r + 1 by omega, getElem?_cons_succ,
        getElem?_map, hr]
      rfl

theorem merged_cover {i n : ℕ} (hi : i < n + below members n) :
    (∃ b < n, b + below members b = i) ∨ ∃ k b v, members[k]? = some (b, v) ∧ b < n ∧ b + 1 + k = i := by
  induction n with
  | zero => simp [below] at hi
  | succ n ih =>
    rcases Nat.lt_or_ge i (n + below members n) with hlt | hge
    · rcases ih hlt with ⟨b, hb, heq⟩ | ⟨k, b, v, hk, hb, heq⟩
      · exact .inl ⟨b, by omega, heq⟩
      · exact .inr ⟨k, b, v, hk, by omega, heq⟩
    · rcases Nat.eq_or_lt_of_le hge with heq | hgt
      · exact .inl ⟨n, Nat.lt_succ_self n, heq⟩
      · rw [below_succ h] at hi
        have hr : i - (n + below members n) - 1 < (group members n).length := by omega
        have hmem := getElem_mem hr
        have hkey := (mem_filter.mp hmem).2
        rw [decide_eq_true_eq] at hkey
        refine .inr ⟨below members n + (i - (n + below members n) - 1), n,
          ((group members n)[i - (n + below members n) - 1]).2, ?_, Nat.lt_succ_self n, by omega⟩
        rw [getElem?_below h n _ hr, getElem?_eq_getElem hr]
        exact congrArg some (Prod.ext hkey rfl)

theorem scatter_merged {n : ℕ} (hlt : ∀ p ∈ members, p.1 < n) {init : List β}
    (hinit : init.length = n + members.length) :
    scatter ((List.range n).map (fun b => (b + below members b, head b)) ++
      members.zipIdx.map fun p => (p.1.1 + 1 + p.2, p.1.2)) init = merged head members n := by
  have hbelow : below members n = members.length := by
    rw [below, filter_eq_self.mpr fun p hp => decide_eq_true (hlt p hp)]
  have hlen := length_merged head h n
  rw [hbelow] at hlen
  refine scatter_eq (hinit.trans hlen.symm) (fun w hw => ?_) fun i hi => ?_
  · rcases mem_append.mp hw with hw | hw
    · obtain ⟨b, hb, rfl⟩ := mem_map.mp hw; exact merged_head head h (mem_range.mp hb)
    · obtain ⟨⟨p, k⟩, hp, rfl⟩ := mem_map.mp hw
      have hk := mem_zipIdx_iff_getElem?.mp hp
      exact merged_member head h hk (hlt p (mem_of_getElem? hk))
  · rw [hlen, ← hbelow] at hi
    rcases merged_cover h hi with ⟨b, hb, heq⟩ | ⟨k, b, v, hk, -, heq⟩
    · exact ⟨_, mem_append_left _ (mem_map_of_mem (mem_range.mpr hb)), heq⟩
    · exact ⟨_, mem_append_right _
        (mem_map.mpr ⟨((b, v), k), mem_zipIdx_iff_getElem?.mpr hk, rfl⟩), heq⟩

end Merged

end CryptoPilot.Lib
