/- # Causal — labelled series and what is known of them up to a label.

A series is a list of rows, each under an integer label.  Two series agree up to a label when their
rows up to it are the same, `AgreeTo`.  An operation on series is causal when it keeps agreement,
and the operations below are: a row-wise map, a fold with its running state, a shift, a value
computed from all rows so far, the row in force at a label and the rows of a window. -/
import Mathlib.Data.List.Sort
import Mathlib.Tactic.Linarith

namespace CryptoPilot.Lib

open List

abbrev Series (α : Type) : Type := List (ℤ × α)

namespace Series

variable {α β γ σ : Type}

/-! ## §1 Operations -/

def index (s : Series α) : List ℤ := s.map Prod.fst

def Sorted (s : Series α) : Prop := s.index.Pairwise (· < ·)

instance (s : Series α) : Decidable s.Sorted := inferInstanceAs (Decidable (List.Pairwise _ _))

def cut (d : ℤ) (s : Series α) : Series α := s.filter fun p => decide (p.1 ≤ d)

def row? (s : Series α) (t : ℤ) : Option α := (s.find? fun p => decide (p.1 = t)).map Prod.snd

def asof (s : Series α) (t : ℤ) : Option α := (s.filter fun p => decide (p.1 ≤ t)).getLast?.map Prod.snd

def next (s : Series α) (t : ℤ) : Option (ℤ × α) := s.find? fun p => decide (t < p.1)

def between (s : Series α) (start stop : ℤ) : Series α := s.filter fun p => decide (start < p.1 ∧ p.1 ≤ stop)

def within (s : Series α) (start stop : ℤ) : Series α := s.filter fun p => decide (start ≤ p.1 ∧ p.1 < stop)

def reindex (labels : List ℤ) (s : Series α) : Series α := labels.filterMap fun t => (s.row? t).map fun x => (t, x)

def mapRows (f : ℤ → α → β) (s : Series α) : Series β := s.map fun p => (p.1, f p.1 p.2)

def beside (s : Series α) (s' : Series β) : Series (α × β) := zipWith (fun p q => (p.1, (p.2, q.2))) s s'

def scan (step : σ → α → σ) : σ → Series α → Series σ
  | _, [] => []
  | state, (t, x) :: rest => (t, step state x) :: scan step (step state x) rest

def withPrev (x₀ : α) (s : Series α) : Series (α × α) := scan (fun p x => (p.2, x)) (x₀, x₀) s

def shift (x₀ : α) (s : Series α) : Series α := (withPrev x₀ s).mapRows fun _ p => p.1

def expanding (g : List α → β) (s : Series α) : Series β :=
  (scan (fun seen x => seen ++ [x]) [] s).mapRows fun _ seen => g seen

/-! ## §2 Labels -/

@[simp] theorem index_mapRows (f : ℤ → α → β) (s : Series α) : (s.mapRows f).index = s.index := by
  simp [index, mapRows, Function.comp_def]

@[simp] theorem index_scan (step : σ → α → σ) : ∀ (state : σ) (s : Series α), (scan step state s).index = s.index
  | _, [] => rfl
  | state, (t, x) :: rest => congrArg (t :: ·) (index_scan step (step state x) rest)

@[simp] theorem index_withPrev (x₀ : α) (s : Series α) : (s.withPrev x₀).index = s.index := index_scan _ _ _

@[simp] theorem index_shift (x₀ : α) (s : Series α) : (s.shift x₀).index = s.index := by
  rw [shift, index_mapRows, index_withPrev]

@[simp] theorem index_expanding (g : List α → β) (s : Series α) : (s.expanding g).index = s.index := by
  rw [expanding, index_mapRows, index_scan]

theorem index_beside : ∀ {s : Series α} {s' : Series β}, s'.index = s.index → (s.beside s').index = s.index
  | [], _, _ => rfl
  | _ :: rest, [], h => by cases h
  | p :: rest, q :: rest', h => by
    have hrest : Series.index rest' = Series.index rest := (List.cons.inj h).2
    exact congrArg (p.1 :: ·) (index_beside hrest)

variable {s : Series α}

theorem row?_mem {t : ℤ} {x : α} (h : s.row? t = some x) : (t, x) ∈ s := by
  obtain ⟨⟨label, y⟩, hp, rfl⟩ := Option.map_eq_some_iff.mp h
  have hlabel := find?_some hp
  rw [decide_eq_true_eq] at hlabel; exact hlabel ▸ mem_of_find?_eq_some hp

theorem cut_eq_nil {d t : ℤ} {x : α} (h : Sorted ((t, x) :: s)) (ht : d < t) : cut d ((t, x) :: s) = [] := by
  obtain ⟨hlt, -⟩ := pairwise_cons.mp h
  refine filter_eq_nil_iff.mpr fun p hp => ?_
  rw [decide_eq_true_eq, not_le]
  rcases mem_cons.mp hp with rfl | hp
  · exact ht
  · exact ht.trans (hlt p.1 (mem_map_of_mem hp))

/-! ## §3 Cutting -/

theorem cut_cons_le {d t : ℤ} (x : α) (s : Series α) (h : t ≤ d) : cut d ((t, x) :: s) = (t, x) :: cut d s :=
  filter_cons_of_pos (decide_eq_true h)

theorem cut_cut {c d : ℤ} (h : c ≤ d) (s : Series α) : (s.cut d).cut c = s.cut c := by
  rw [cut, cut, filter_filter]
  refine filter_congr fun p _ => ?_
  rw [← Bool.decide_and, decide_eq_decide]; omega

theorem cut_mapRows (d : ℤ) (f : ℤ → α → β) (s : Series α) : (s.mapRows f).cut d = (s.cut d).mapRows f := by
  rw [cut, mapRows, filter_map]; rfl

theorem cut_scan (d : ℤ) (step : σ → α → σ) : ∀ {s : Series α} (state : σ), s.Sorted →
    (scan step state s).cut d = scan step state (s.cut d)
  | [], _, _ => rfl
  | (t, x) :: rest, state, h => by
    rcases le_or_gt t d with ht | ht
    · rw [cut_cons_le x rest ht, scan, cut_cons_le _ _ ht, scan, cut_scan d step _ (List.Pairwise.of_cons h)]
    · have hsorted : Sorted ((t, step state x) :: scan step (step state x) rest) := by
        have hindex := index_scan step state ((t, x) :: rest)
        rw [scan] at hindex
        rw [Sorted, hindex]; exact h
      rw [cut_eq_nil h ht, scan, scan, cut_eq_nil hsorted ht]

theorem cut_beside (d : ℤ) : ∀ {s : Series α} {s' : Series β}, s'.index = s.index →
    (s.beside s').cut d = (s.cut d).beside (s'.cut d)
  | [], _, _ => rfl
  | _ :: rest, [], h => by cases h
  | (t, x) :: rest, (t', x') :: rest', h => by
    obtain ⟨rfl, hrest⟩ : t' = t ∧ index rest' = index rest := ⟨(List.cons.inj h).1, (List.cons.inj h).2⟩
    have hcons : beside ((t', x) :: rest) ((t', x') :: rest') = (t', (x, x')) :: beside rest rest' := rfl
    rcases le_or_gt t' d with ht | ht
    · rw [hcons, cut_cons_le _ _ ht, cut_cons_le _ _ ht, cut_cons_le _ _ ht, cut_beside d hrest]
      rfl
    · have hnot : ¬ t' ≤ d := not_le.mpr ht
      have hdrop : ∀ {γ : Type} (y : γ) (s : Series γ), cut d ((t', y) :: s) = cut d s := fun y s =>
        filter_cons_of_neg (by simpa using hnot)
      rw [hcons, hdrop, hdrop, hdrop, cut_beside d hrest]

theorem exists_append_filter (key : α → ℤ) (d : ℤ) : ∀ {l : List α}, l.Pairwise (fun x y => key x < key y) →
    ∃ rest, l = l.filter (fun x => decide (key x ≤ d)) ++ rest
  | [], _ => ⟨[], rfl⟩
  | x :: rest, h => by
    obtain ⟨hlt, hrest⟩ := pairwise_cons.mp h
    rcases le_or_gt (key x) d with hx | hx
    · obtain ⟨tail, htail⟩ := exists_append_filter key d hrest
      refine ⟨tail, ?_⟩
      rw [filter_cons, if_pos (decide_eq_true hx), cons_append, ← htail]
    · refine ⟨x :: rest, ?_⟩
      have hnil : (x :: rest).filter (fun y => decide (key y ≤ d)) = [] := by
        refine filter_eq_nil_iff.mpr fun y hy => ?_
        rw [decide_eq_true_eq, not_le]
        rcases mem_cons.mp hy with rfl | hy
        · exact hx
        · exact hx.trans (hlt y hy)
      rw [hnil, nil_append]

theorem exists_append_cut (d : ℤ) (h : s.Sorted) : ∃ rest, s = s.cut d ++ rest :=
  exists_append_filter Prod.fst d (pairwise_map.mp h)

theorem exists_next {t d : ℤ} (h : s.Sorted) (hd : d ∈ s.index) (ht : t < d) :
    ∃ p, s.next t = some p ∧ p.1 ≤ d := by
  obtain ⟨q, hq, rfl⟩ := mem_map.mp hd
  obtain ⟨rest, hrest⟩ := exists_append_cut q.1 h
  have hmem : q ∈ s.cut q.1 := mem_filter.mpr ⟨hq, decide_eq_true le_rfl⟩
  cases hfind : (s.cut q.1).find? fun p => decide (t < p.1) with
  | none => exact absurd (decide_eq_true ht) (find?_eq_none.mp hfind q hmem)
  | some p =>
    refine ⟨p, ?_, of_decide_eq_true (mem_filter.mp (mem_of_find?_eq_some hfind)).2⟩
    unfold next
    rw [hrest, find?_append, hfind]; rfl

/-! ## §4 Agreement -/

def AgreeTo (d : ℤ) (s s' : Series α) : Prop := s.cut d = s'.cut d

variable {c d t : ℤ} {s s' : Series α}

theorem AgreeTo.refl (d : ℤ) (s : Series α) : AgreeTo d s s := rfl

section

variable (h : AgreeTo d s s')

include h

theorem AgreeTo.mono (hle : c ≤ d) : AgreeTo c s s' := by
  unfold AgreeTo
  rw [← cut_cut hle s, h, cut_cut hle]

theorem AgreeTo.mapRows {f f' : ℤ → α → β} (hf : ∀ t x, (t, x) ∈ s → t ≤ d → f t x = f' t x) :
    AgreeTo d (s.mapRows f) (s'.mapRows f') := by
  unfold AgreeTo at h ⊢
  rw [cut_mapRows, cut_mapRows, ← h]
  refine map_congr_left fun p hp => ?_
  obtain ⟨hp, hle⟩ := mem_filter.mp hp
  rw [hf p.1 p.2 hp (of_decide_eq_true hle)]

theorem AgreeTo.scan (hs : s.Sorted) (hs' : s'.Sorted) (step : σ → α → σ) (state : σ) :
    AgreeTo d (s.scan step state) (s'.scan step state) := by
  unfold AgreeTo at h ⊢
  rw [cut_scan d step state hs, cut_scan d step state hs', h]

theorem AgreeTo.withPrev (hs : s.Sorted) (hs' : s'.Sorted) (x₀ : α) :
    AgreeTo d (s.withPrev x₀) (s'.withPrev x₀) := h.scan hs hs' _ _

theorem AgreeTo.shift (hs : s.Sorted) (hs' : s'.Sorted) (x₀ : α) :
    AgreeTo d (s.shift x₀) (s'.shift x₀) := (h.withPrev hs hs' x₀).mapRows fun _ _ _ _ => rfl

end

theorem shift_cons (x₀ x : α) (t : ℤ) (s : Series α) : shift x₀ ((t, x) :: s) = (t, x₀) :: shift x s := by
  cases s <;> rfl

theorem AgreeTo.shift_before : ∀ {s s' : Series α} (x₀ : α), AgreeTo (d - 1) s s' → s.index = s'.index → s.Sorted →
    AgreeTo d (s.shift x₀) (s'.shift x₀)
  | [], [], _, _, _, _ => rfl
  | [], _ :: _, _, _, hindex, _ | _ :: _, [], _, _, hindex, _ => by cases hindex
  | (t, x) :: rest, (t', x') :: rest', x₀, h, hindex, hs => by
    obtain ⟨rfl, hrest⟩ : t = t' ∧ index rest = index rest' := ⟨(List.cons.inj hindex).1, (List.cons.inj hindex).2⟩
    rw [shift_cons, shift_cons]
    rcases lt_or_ge t d with ht | ht
    · unfold AgreeTo at h ⊢
      rw [cut_cons_le x rest (by omega), cut_cons_le x' rest' (by omega)] at h
      obtain ⟨hp, hcut⟩ := List.cons.inj h
      cases hp
      rw [cut_cons_le _ _ ht.le, cut_cons_le _ _ ht.le,
        AgreeTo.shift_before x hcut hrest (List.Pairwise.of_cons hs)]
    · -- no later row is up to the label
      have hnil : ∀ (r : Series α) (y : α), index r = index rest → (r.shift y).cut d = [] := fun r y hr => by
        refine filter_eq_nil_iff.mpr fun p hp => ?_
        have hmem : p.1 ∈ index rest := hr ▸ index_shift y r ▸ mem_map_of_mem hp
        have hlt := (pairwise_cons.mp hs).1 p.1 hmem; simp only [decide_eq_true_eq]; omega
      have hrow := hnil rest x rfl
      have hrow' := hnil rest' x' hrest.symm
      unfold cut at hrow hrow'
      unfold AgreeTo cut
      rw [filter_cons, filter_cons, hrow, hrow']

theorem AgreeTo.expanding (h : AgreeTo d s s') (hs : s.Sorted) (hs' : s'.Sorted) (g : List α → β) :
    AgreeTo d (s.expanding g) (s'.expanding g) := (h.scan hs hs' _ _).mapRows fun _ _ _ _ => rfl

theorem AgreeTo.beside {r r' : Series β} (h : AgreeTo d s s') (hr : AgreeTo d r r') (hindex : r.index = s.index)
    (hindex' : r'.index = s'.index) : AgreeTo d (s.beside r) (s'.beside r') := by
  unfold AgreeTo at h hr ⊢
  rw [cut_beside d hindex, cut_beside d hindex', h, hr]

theorem AgreeTo.filter (h : AgreeTo d s s') (p : ℤ × α → Bool) : AgreeTo d (s.filter p) (s'.filter p) := by
  unfold AgreeTo cut at h ⊢
  rw [filter_comm, h, filter_comm]

/-! ### Reading a label -/

theorem AgreeTo.filter_eq (h : AgreeTo d s s') {p : ℤ × α → Bool} (hp : ∀ q, p q → q.1 ≤ d) :
    s.filter p = s'.filter p := by
  have hcut : ∀ s : Series α, (s.cut d).filter p = s.filter p := fun s => by
    rw [cut, filter_filter]
    refine filter_congr fun q _ => ?_
    by_cases hq : p q = true
    · simp [hq, hp q hq]
    · simp [hq]
  rw [← hcut s, h, hcut]

theorem AgreeTo.row? (h : AgreeTo d s s') (ht : t ≤ d) : s.row? t = s'.row? t := by
  unfold Series.row?
  rw [← head?_filter, ← head?_filter, h.filter_eq fun q hq => (of_decide_eq_true hq).le.trans ht]

theorem AgreeTo.reindex (h : AgreeTo d s s') (labels : List ℤ) : AgreeTo d (s.reindex labels)
    (s'.reindex labels) := by
  unfold AgreeTo Series.reindex
  induction labels with
  | nil => rfl
  | cons t rest ih =>
    have hcut : ∀ s : Series α, Series.cut d ((t :: rest).filterMap fun t => (s.row? t).map fun x => (t, x))
        = (if t ≤ d then ((s.row? t).map fun x => (t, x)).toList else [])
          ++ Series.cut d (rest.filterMap fun t => (s.row? t).map fun x => (t, x)) := fun s => by
      rw [filterMap_cons]
      by_cases hle : t ≤ d <;> cases s.row? t <;> simp [Series.cut, hle]
    rw [hcut, hcut, ih]
    split
    next hle => rw [h.row? hle]
    next => rfl

theorem AgreeTo.append {r r' : Series α} (h : AgreeTo d s s') (hr : AgreeTo d r r') :
    AgreeTo d (s ++ r) (s' ++ r') := by
  unfold AgreeTo Series.cut at h hr ⊢
  rw [filter_append, filter_append, h, hr]

theorem AgreeTo.asof (h : AgreeTo d s s') (ht : t ≤ d) : s.asof t = s'.asof t := by
  unfold Series.asof
  rw [h.filter_eq fun q hq => (of_decide_eq_true hq).trans ht]

theorem AgreeTo.between {start stop : ℤ} (h : AgreeTo d s s') (hstop : stop ≤ d) :
    s.between start stop = s'.between start stop :=
  h.filter_eq fun _ hq => (of_decide_eq_true hq).2.trans hstop

theorem AgreeTo.within {start stop : ℤ} (h : AgreeTo d s s') (hstop : stop ≤ d) :
    s.within start stop = s'.within start stop :=
  h.filter_eq fun _ hq => ((of_decide_eq_true hq).2.trans_le hstop).le

theorem AgreeTo.next (h : AgreeTo d s s') (hs : s.Sorted) (hs' : s'.Sorted) {p : ℤ × α} (hp : s.next t = some p)
    (hle : p.1 ≤ d) : s'.next t = some p := by
  have hfound : (s.cut d).next t = some p := by
    obtain ⟨rest, hrest⟩ := exists_append_cut d hs
    unfold Series.next at hp ⊢
    rw [hrest, find?_append, Option.or_eq_some_iff] at hp
    rcases hp with hp | ⟨hnone, hp⟩
    · exact hp
    · have hmem : p ∈ s.cut d := mem_filter.mpr
        ⟨hrest ▸ mem_append_right _ (mem_of_find?_eq_some hp), decide_eq_true hle⟩
      exact absurd (find?_some hp) (find?_eq_none.mp hnone p hmem)
  obtain ⟨rest', hrest'⟩ := exists_append_cut d hs'
  rw [h] at hfound
  unfold Series.next at hfound ⊢
  rw [hrest', find?_append, hfound]; rfl

end Series

end CryptoPilot.Lib
