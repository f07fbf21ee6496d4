/- # SettleFold — the window at once is the loop over its events.

Before bar `i` the loop holds the backlog and the fills of earlier bars, and has taken charges and
fills off cash in the order of `merged`. -/
import Mathlib.Data.List.FinRange
import CryptoPilot.Engine.SettleWindow

namespace CryptoPilot.Engine.Accounting

open CryptoPilot.Live (Exc)
open CryptoPilot.Lib List

/-! ## §1 Columns -/

section Columns

variable {n : ℕ} {cols : List (Fin n)} {c : Fin n}

theorem idxOf?_of_getElem? (hnodup : cols.Nodup) {j : ℕ} (h : cols[j]? = some c) :
    cols.idxOf? c = some j := by
  obtain ⟨hj, rfl⟩ := List.getElem?_eq_some_iff.mp h
  rw [idxOf?, findIdx?_eq_some_iff_getElem]
  refine ⟨hj, by simp, fun i hi => ?_⟩
  have hne : cols[i] ≠ cols[j] := fun heq => absurd (hnodup.getElem_inj_iff.mp heq) (by omega)
  simpa using hne

theorem getElem?_of_idxOf? {j : ℕ} (h : cols.idxOf? c = some j) : cols[j]? = some c := by
  rw [idxOf?, findIdx?_eq_some_iff_getElem] at h
  obtain ⟨hj, heq, -⟩ := h
  rw [getElem?_eq_getElem hj, beq_iff_eq.mp heq]

theorem idxOf?_eq_none_of_notMem (h : c ∉ cols) : cols.idxOf? c = none := by
  cases hj : cols.idxOf? c with
  | none => rfl
  | some j => exact absurd (mem_of_getElem? (getElem?_of_idxOf? hj)) h

theorem filterMap_range_getElem? {α : Type} (l : List α) :
    (List.range l.length).filterMap (fun j => l[j]?) = l := by
  induction l using reverseRecOn with
  | nil => rfl
  | append_singleton l x ih =>
    have hprior : (List.range l.length).filterMap (fun j => (l ++ [x])[j]?) =
        (List.range l.length).filterMap fun j => l[j]? := by
      refine filterMap_congr fun j hj => ?_
      rw [getElem?_append_left (mem_range.mp hj)]
    rw [length_append, length_singleton, range_succ, filterMap_append, hprior, ih]; simp

theorem canonOrder_columns (hnodup : cols.Nodup) :
    (canonOrder cols).filterMap (fun j => cols[j]?) = (finRange n).filter fun c => decide (c ∈ cols) := by
  have hperm : ((canonOrder cols).filterMap fun j => cols[j]?).Perm cols := by
    have h := (perm_insertionSort
      (fun i j => (cols[i]?.elim 0 Fin.val : ℕ) ≤ cols[j]?.elim 0 Fin.val) (List.range cols.length)).filterMap
        fun j => cols[j]?
    rwa [filterMap_range_getElem?] at h
  have hfilter : ((finRange n).filter fun c => decide (c ∈ cols)).Perm cols := by
    rw [perm_ext_iff_of_nodup ((nodup_finRange n).filter _) hnodup]
    intro c
    rw [mem_filter, decide_eq_true_eq]; exact and_iff_right (mem_finRange c)
  refine List.Perm.eq_of_pairwise (fun (c d : Fin n) _ _ (hcd : c ≤ d) hdc => le_antisymm hcd hdc) ?_ ?_
    (hperm.trans hfilter.symm)
  · rw [pairwise_filterMap]
    refine List.Pairwise.imp ?_ (pairwise_insertionSort
      (fun i j => (cols[i]?.elim 0 Fin.val : ℕ) ≤ cols[j]?.elim 0 Fin.val) (List.range cols.length))
    intro i j hle c hc d hd
    rw [hc, hd] at hle; exact hle
  · exact ((sortedLT_finRange n).pairwise.imp le_of_lt).filter _

theorem mem_canonOrder {j : ℕ} : j ∈ canonOrder cols ↔ j < cols.length := by
  rw [canonOrder, mem_insertionSort, mem_range]

section

variable (order : List ℕ) (horder : ∀ j ∈ order, j < cols.length)

include order horder

theorem foldl_columns {α : Type} (f : α → ℕ → α) (g : α → Fin n → α)
    (h : ∀ j c, cols[j]? = some c → ∀ x, f x j = g x c) (x : α) :
    order.foldl f x = (order.filterMap fun j => cols[j]?).foldl g x := by
  induction order generalizing x with
  | nil => rfl
  | cons j order ih =>
    have hj := getElem?_eq_getElem (horder j mem_cons_self)
    rw [filterMap_cons_some hj, foldl_cons, h j _ hj]
    exact ih (fun i hi => horder i (mem_cons_of_mem j hi)) _

theorem find?_columns (p : ℕ → Bool) (q : Fin n → Bool) (h : ∀ j c, cols[j]? = some c → p j = q c) :
    (order.filterMap fun j => cols[j]?).find? q = (order.find? p).bind fun j => cols[j]? := by
  induction order with
  | nil => rfl
  | cons j order ih =>
    have hj := getElem?_eq_getElem (horder j mem_cons_self)
    rw [filterMap_cons_some hj]
    cases hp : p j with
    | true =>
      rw [find?_cons_of_pos (by rw [← h j _ hj, hp]), find?_cons_of_pos hp, Option.bind_some, hj]
    | false =>
      rw [find?_cons_of_neg (by rw [← h j _ hj, hp]; simp), find?_cons_of_neg (by rw [hp]; simp)]
      exact ih fun i hi => horder i (mem_cons_of_mem j hi)

end

theorem foldl_filter_of_eq {α β : Type} (p : β → Bool) (f : α → β → α) (h : ∀ x b, p b = false → f x b = x)
    (l : List β) (x : α) : (l.filter p).foldl f x = l.foldl f x := by
  induction l generalizing x with
  | nil => rfl
  | cons b l ih =>
    cases hp : p b with
    | true => rw [filter_cons_of_pos hp, foldl_cons, foldl_cons, ih]
    | false =>
      rw [filter_cons_of_neg (by rw [hp]; simp), foldl_cons, h x b hp, ih]

theorem find?_filter_of_imp {β : Type} (p q : β → Bool) (h : ∀ b, q b = true → p b = true) (l : List β) :
    (l.filter p).find? q = l.find? q := by
  rw [find?_filter]
  refine congrFun (congrArg find? (funext fun b => ?_)) l
  cases hq : q b with
  | true => simp [h b hq]
  | false => simp

end Columns

/-! ## §2 Levels -/

section Levels

variable {n : ℕ}

def levelOf (fills : List QueuedFill) (c : Fin n) (start : ℚ) : ℚ :=
  fills.foldl (fun level f => if column? n f.column = some c then level + f.quantity else level) start

theorem levelOf_append (fills later : List QueuedFill) (c : Fin n) (start : ℚ) :
    levelOf (fills ++ later) c start = levelOf later c (levelOf fills c start) := foldl_append

section

variable (state : CausalPortfolioState n) (f : QueuedFill)

include state f

@[simp] theorem join_cash : (state.join f).cash = state.cash := by
  unfold CausalPortfolioState.join
  split <;> rfl

@[simp] theorem join_lastMarks : (state.join f).lastMarks = state.lastMarks := by
  unfold CausalPortfolioState.join
  split <;> rfl

@[simp] theorem join_lastEventNs : (state.join f).lastEventNs = state.lastEventNs := by
  unfold CausalPortfolioState.join
  split <;> rfl

theorem join_units (c : Fin n) :
    (state.join f).units c =
      if column? n f.column = some c then state.units c + f.quantity else state.units c := by
  unfold CausalPortfolioState.join
  cases hcol : column? n f.column with
  | none => rfl
  | some d =>
    by_cases hd : d = c
    · rw [hd, if_pos rfl]; exact Function.update_self _ _ _
    · rw [if_neg fun h => hd (Option.some.inj h)]
      exact Function.update_of_ne (fun h => hd h.symm) _ _

end

variable (fills : List QueuedFill)

theorem foldl_join (state : CausalPortfolioState n) :
    fills.foldl CausalPortfolioState.join state =
      { state with units := fun c => levelOf fills c (state.units c) } := by
  induction fills generalizing state with
  | nil => rfl
  | cons f fills ih =>
    rw [foldl_cons, ih, join_cash, join_lastMarks, join_lastEventNs]
    congr 1
    funext c
    rw [join_units]; rfl

theorem foldl_applyFill (state : CausalPortfolioState n) :
    fills.foldl CausalPortfolioState.applyFill state =
      { state with
        cash := (fills.map QueuedFill.delta).foldl (· - ·) state.cash
        units := fun c => levelOf fills c (state.units c) } := by
  induction fills generalizing state with
  | nil => rfl
  | cons f fills ih =>
    rw [foldl_cons, ih, CausalPortfolioState.applyFill, join_lastMarks, join_lastEventNs]
    congr 1
    funext c
    show levelOf fills c ((state.join f).units c) = _
    rw [join_units]; rfl

theorem advanceTo_eq {state : CausalPortfolioState n} {eventNs : ℤ} (marks : Fin n → Option ℚ) (rates : Fin n → ℚ)
    {known : Fin n → Bool} (hlast : state.lastEventNs.any (fun t => decide (eventNs < t)) = false)
    (hknown : ∀ c, heldUnknown state.units known c = false) :
    state.advanceTo eventNs marks rates known =
      ({ cash := state.cash - chargeOf state.units marks rates
         units := state.units
         lastMarks := fun c => (marks c).or (state.lastMarks c)
         lastEventNs := some eventNs }, .ok (chargeOf state.units marks rates)) := by
  have hnone : (finRange n).any (heldUnknown state.units known) = false :=
    any_eq_false.mpr fun c _ => by rw [hknown c]; exact Bool.false_ne_true
  rw [CausalPortfolioState.advanceTo, if_neg (by rw [hlast]; exact Bool.false_ne_true),
    if_neg (by rw [hnone]; exact Bool.false_ne_true)]

/-! ### Before the fills of a bar -/

def fillsBefore (placed : List Placed) (i : ℕ) : List QueuedFill :=
  (placed.filter fun p => decide (p.1 < i)).map fun p => p.2.2

theorem preFillColumn_getD {nb i : ℕ} (hi : i < nb) (start : ℚ) {fills : List Placed}
    (hsorted : fills.Pairwise fun p q => p.1 ≤ q.1) :
    (preFillColumn nb start fills).getD i 0 =
      (fills.filter fun p => decide (p.1 < i)).foldl (fun level p => level + p.2.2.quantity) start := by
  -- along the fills: the level so far, and a column of full length
  have hinv : ∀ fills : List Placed, fills.Pairwise (fun p q => p.1 ≤ q.1) →
      let acc := fills.foldl
        (fun acc p =>
          let level := acc.1 + p.2.2.quantity
          (level, if p.1 + 1 < nb then acc.2.take (p.1 + 1) ++ replicate (nb - (p.1 + 1)) level else acc.2))
        (start, replicate nb start)
      acc.1 = fills.foldl (fun level p => level + p.2.2.quantity) start ∧ acc.2.length = nb ∧
        acc.2.getD i 0 =
          (fills.filter fun p => decide (p.1 < i)).foldl (fun level p => level + p.2.2.quantity) start := by
    intro fills hsorted
    induction fills using reverseRecOn with
    | nil => exact ⟨rfl, length_replicate, by simp [getD_eq_getElem?_getD, hi]⟩
    | append_singleton fills p ih =>
      obtain ⟨hprior, -, hle⟩ := pairwise_append.mp hsorted
      obtain ⟨hlevel, hlength, hvalue⟩ := ih hprior
      simp only [foldl_append, foldl_cons, foldl_nil, filter_append]
      refine ⟨by rw [hlevel], ?_, ?_⟩
      · split
        · rw [length_append, length_take, length_replicate, hlength]; omega
        · exact hlength
      · by_cases hp : p.1 < i
        · -- the write reaches the bar, and every earlier fill is before it too
          have hall : fills.filter (fun q => decide (q.1 < i)) = fills :=
            filter_eq_self.mpr fun q hq =>
              decide_eq_true ((hle q hq p (mem_singleton_self p)).trans_lt hp)
          have hone : [p].filter (fun q => decide (q.1 < i)) = [p] := by simp [hp]
          rw [if_pos (by omega), hall, hone, foldl_cons, foldl_nil, getD_eq_getElem?_getD,
            getElem?_append_right (by rw [length_take]; omega), length_take, hlength,
            getElem?_replicate_of_lt (by omega), Option.getD_some, hlevel]
        · have hnone : [p].filter (fun q => decide (q.1 < i)) = [] := by simp [hp]
          rw [hnone, foldl_nil, ← hvalue]
          split
          · rw [getD_eq_getElem?_getD, getElem?_append_left
              (by rw [length_take, hlength]; omega), getElem?_take_of_lt (by omega),
              ← getD_eq_getElem?_getD]
          · rfl
  exact (hinv fills hsorted).2.2

end Levels

/-! ## §3 The pass before a bar -/

section Pass

variable {n : ℕ} {state : CausalPortfolioState n} {w : WindowArrays} {cols : List (Fin n)}
  {backlog : List QueuedFill} {placed : List Placed}

/-- What the checks of a window leave: columns, backlog, and the fills at their bars and local
columns. -/
structure Accepted (state : CausalPortfolioState n) (w : WindowArrays) (cols : List (Fin n))
    (backlog : List QueuedFill) (placed : List Placed) : Prop where
  nodup : cols.Nodup
  nonempty : w.barNs ≠ []
  increasing : w.barNs.Pairwise (· < ·)
  notBefore : state.lastEventNs.any (fun t => decide (w.barNs.headD 0 < t)) = false
  marks : w.marks.length = w.barNs.length
  early : backlog = w.sorted.takeWhile fun f => decide (f.ns < w.barNs.headD 0)
  applied : (placed.map fun p => p.2.2) = w.sorted.dropWhile fun f => decide (f.ns < w.barNs.headD 0)
  place : ∀ p ∈ placed, w.barNs[p.1]? = some p.2.2.ns ∧
    ∃ c, column? n p.2.2.column = some c ∧ cols[p.2.1]? = some c
  sorted : placed.Pairwise fun p q => p.1 ≤ q.1

def unitsAt (state : CausalPortfolioState n) (w : WindowArrays) (cols : List (Fin n)) (backlog : List QueuedFill)
    (placed : List Placed) (i j : ℕ) : ℚ :=
  ((cols.zipIdx.map fun p => preFillColumn w.barNs.length (backlogStart state.units backlog p.1)
    (placed.filter fun q => q.2.1 == p.2)).getD j []).getD i 0

def queueFrom (placed : List Placed) (i : ℕ) : List QueuedFill :=
  (placed.filter fun p => decide (i ≤ p.1)).map fun p => p.2.2

def deltas (placed : List Placed) : List (ℕ × ℚ) := placed.map fun p => (p.1, p.2.2.delta)

def before (state : CausalPortfolioState n) (w : WindowArrays) (cols : List (Fin n)) (backlog : List QueuedFill)
    (placed : List Placed) (i : ℕ) : CausalPortfolioState n where
  cash := (merged (chargeAt w cols (unitsAt state w cols backlog placed)) (deltas placed) i).foldl
    (· - ·) state.cash
  units c := levelOf (fillsBefore placed i) c (levelOf backlog c (state.units c))
  lastMarks c :=
    match cols.idxOf? c with
    | some j => lastFiniteMark (w.marks.take i) j (state.lastMarks c)
    | none => state.lastMarks c
  lastEventNs := if i = 0 then state.lastEventNs else w.barNs[i - 1]?

namespace Accepted

variable (h : Accepted state w cols backlog placed)

include h

variable {p : Placed} {b : ℤ} {i : ℕ}

theorem place_lt (hp : p ∈ placed) : p.1 < w.barNs.length :=
  (List.getElem?_eq_some_iff.mp (h.place p hp).1).1

theorem barNs_inj {i k : ℕ} (hi : w.barNs[i]? = some b) (hk : w.barNs[k]? = some b) : i = k := by
  obtain ⟨hi, rfl⟩ := List.getElem?_eq_some_iff.mp hi
  obtain ⟨hk, heq⟩ := List.getElem?_eq_some_iff.mp hk
  have hnodup : w.barNs.Nodup := h.increasing.imp ne_of_lt
  exact (hnodup.getElem_inj_iff.mp heq).symm

theorem local_eq_iff (hp : p ∈ placed) {j : ℕ} {c : Fin n} (hc : cols[j]? = some c) :
    p.2.1 = j ↔ column? n p.2.2.column = some c := by
  obtain ⟨-, d, hd, hlocal⟩ := h.place p hp
  rw [hd]
  constructor
  · rintro rfl; exact hlocal.symm.trans hc
  · intro heq
    rw [Option.some.inj heq] at hlocal
    have hj := idxOf?_of_getElem? h.nodup hc
    rw [idxOf?_of_getElem? h.nodup hlocal] at hj; exact Option.some.inj hj

theorem unitsAt_eq {i j : ℕ} (hi : i < w.barNs.length) {c : Fin n} (hc : cols[j]? = some c) :
    unitsAt state w cols backlog placed i j =
      levelOf (fillsBefore placed i) c (levelOf backlog c (state.units c)) := by
  have hlocal : ∀ l : List Placed, (∀ p ∈ l, p ∈ placed) → ∀ start : ℚ,
      (l.filter fun q => q.2.1 == j).foldl (fun level p => level + p.2.2.quantity) start =
        levelOf (l.map fun p => p.2.2) c start := by
    intro l hl
    induction l with
    | nil => exact fun _ => rfl
    | cons p l ih =>
      intro start
      have hrest := ih fun q hq => hl q (mem_cons_of_mem p hq)
      have hiff := h.local_eq_iff (hl p mem_cons_self) hc
      show _ = levelOf (l.map fun p => p.2.2) c
        (if column? n p.2.2.column = some c then start + p.2.2.quantity else start)
      by_cases hp : p.2.1 = j
      · rw [filter_cons_of_pos (by simpa using hp), if_pos (hiff.mp hp)]; exact hrest _
      · rw [filter_cons_of_neg (by simpa using hp), if_neg fun heq => hp (hiff.mpr heq)]
        exact hrest _
  have hrow : (cols.zipIdx.map fun p => preFillColumn w.barNs.length (backlogStart state.units backlog p.1)
      (placed.filter fun q => q.2.1 == p.2)).getD j [] =
        preFillColumn w.barNs.length (backlogStart state.units backlog c) (placed.filter fun q => q.2.1 == j) := by
    rw [getD_eq_getElem?_getD, getElem?_map, getElem?_zipIdx, hc]; simp
  have hswap : ((placed.filter fun q => q.2.1 == j).filter fun p => decide (p.1 < i)) =
      (placed.filter fun p => decide (p.1 < i)).filter fun q => q.2.1 == j := by
    rw [filter_filter, filter_filter]; exact filter_congr fun p _ => Bool.and_comm _ _
  rw [unitsAt, hrow, preFillColumn_getD hi _ (h.sorted.filter _), hswap, hlocal _ fun p hp => mem_of_mem_filter hp]
  rfl

/-! ### The fills of a bar -/

theorem queueFrom_keys (hb : w.barNs[i]? = some b)
    (hp : p ∈ placed.filter fun p => decide (i ≤ p.1)) : (p.2.2.ns == b) = decide (p.1 < i + 1) := by
  obtain ⟨hmem, hle⟩ := mem_filter.mp hp
  rw [decide_eq_true_eq] at hle
  have hplace := (h.place p hmem).1
  rw [Bool.eq_iff_iff, beq_iff_eq, decide_eq_true_eq]
  constructor
  · intro hns
    rw [hns] at hplace
    have hbar := h.barNs_inj hplace hb; omega
  · intro hlt
    rw [show p.1 = i by omega, hb] at hplace
    exact (Option.some.inj hplace).symm

theorem queueFrom_split (hb : w.barNs[i]? = some b) :
    (queueFrom placed i).takeWhile (fun f => f.ns == b) = (group placed i).map (fun p => p.2.2) ∧
      (queueFrom placed i).dropWhile (fun f => f.ns == b) = queueFrom placed (i + 1) := by
  have hkeys : ∀ p ∈ placed.filter fun p => decide (i ≤ p.1),
      ((fun f : QueuedFill => f.ns == b) ∘ fun p : Placed => p.2.2) p = decide (p.1 < i + 1) :=
    fun p hp => h.queueFrom_keys hb hp
  have hsorted : (placed.filter fun p => decide (i ≤ p.1)).Pairwise fun p q => p.1 ≤ q.1 := h.sorted.filter _
  constructor
  · rw [queueFrom, takeWhile_map, takeWhile_congr hkeys, takeWhile_eq_filter Prod.fst hsorted,
      filter_filter]
    congr 1
    refine filter_congr fun p _ => ?_
    rw [← Bool.decide_and, decide_eq_decide]; omega
  · rw [queueFrom, dropWhile_map, dropWhile_congr hkeys, dropWhile_eq_filter Prod.fst hsorted,
      filter_filter]
    congr 1
    refine filter_congr fun p _ => ?_
    rw [← Bool.decide_and, decide_eq_decide]; omega

theorem fillsBefore_succ (i : ℕ) :
    fillsBefore placed (i + 1) = fillsBefore placed i ++ (group placed i).map fun p => p.2.2 := by
  rw [fillsBefore, filter_lt_succ h.sorted, map_append]; rfl

omit h in
theorem group_deltas (i : ℕ) :
    (group (deltas placed) i).map Prod.snd = ((group placed i).map fun p => p.2.2).map QueuedFill.delta := by
  rw [group, deltas, filter_map, map_map, map_map]; rfl

/-! ### The gap and the charge of a bar -/

theorem gap_eq (hi : i < w.barNs.length) :
    ((finRange n).find? fun c =>
        decide (qtyEps ≤ |(before state w cols backlog placed i).units c|) &&
          (!spread cols (w.planes i).2.2 true c || (spread cols (w.planes i).1 none c).isNone &&
            decide (spread cols (w.planes i).2.1 0 c ≠ 0))) =
      (gapWitness w cols (unitsAt state w cols backlog placed) i).bind fun j => cols[j]? := by
  rw [gapWitness, ← find?_columns (canonOrder cols) (fun j hj => mem_canonOrder.mp hj), canonOrder_columns h.nodup,
    find?_filter_of_imp]
  · intro c hc
    refine decide_eq_true ?_
    by_contra hnot; simp [spread, idxOf?_eq_none_of_notMem hnot] at hc
  · intro j c hc
    rw [gapAt, h.unitsAt_eq hi hc]; simp only [spread, idxOf?_of_getElem? h.nodup hc]; rfl

omit h in
theorem gap_isSome (i : ℕ) :
    ((gapWitness w cols (unitsAt state w cols backlog placed) i).bind fun j => cols[j]?).isSome =
      (gapWitness w cols (unitsAt state w cols backlog placed) i).isSome := by
  cases hgap : gapWitness w cols (unitsAt state w cols backlog placed) i with
  | none => rfl
  | some j =>
    have hj := mem_canonOrder.mp (mem_of_find?_eq_some hgap)
    rw [Option.bind_some, getElem?_eq_getElem hj]; rfl

theorem charge_eq (hi : i < w.barNs.length) {rates : Fin n → ℚ} (hrates : ∀ c, rates c =
      if (gapWitness w cols (unitsAt state w cols backlog placed) i).isSome && !spread cols (w.planes i).2.2 true c
      then 0 else spread cols (w.planes i).2.1 0 c) :
    chargeOf (before state w cols backlog placed i).units (spread cols (w.planes i).1 none) rates =
      chargeAt w cols (unitsAt state w cols backlog placed) i := by
  rw [chargeOf, ← foldl_filter_of_eq (fun c => decide (c ∈ cols)), ← canonOrder_columns h.nodup]
  · refine (foldl_columns (canonOrder cols) (fun j hj => mem_canonOrder.mp hj) _ _ (fun j c hc x => ?_) 0).symm
    rw [hrates, h.unitsAt_eq hi hc]; simp only [spread, idxOf?_of_getElem? h.nodup hc]; rfl
  · intro x c hc
    rw [decide_eq_false_iff_not] at hc; simp [spread, idxOf?_eq_none_of_notMem hc]

/-! ### One bar -/

theorem lastEventNs_before (hb : w.barNs[i]? = some b) :
    (before state w cols backlog placed i).lastEventNs.any (fun t => decide (b < t)) = false := by
  cases i with
  | zero =>
    have hhead : w.barNs.headD 0 = b := by rw [headD_eq_head?_getD, head?_eq_getElem?, hb, Option.getD_some]
    rw [← hhead]; exact h.notBefore
  | succ i =>
    obtain ⟨hi, rfl⟩ := List.getElem?_eq_some_iff.mp hb
    have hlt := pairwise_iff_getElem.mp h.increasing i (i + 1) (by omega) hi (Nat.lt_succ_self i)
    show (w.barNs[i]?).any _ = false
    rw [getElem?_eq_getElem (by omega), Option.any_some, decide_eq_false_iff_not]; omega

theorem lastMarks_succ (hi : i < w.barNs.length) (c : Fin n) :
    (before state w cols backlog placed (i + 1)).lastMarks c =
      (spread cols (w.planes i).1 none c).or ((before state w cols backlog placed i).lastMarks c) := by
  have hrow : w.marks[i]? = some (w.marks.getD i []) := by
    rw [getD_eq_getElem?_getD, getElem?_eq_getElem (h.marks ▸ hi), Option.getD_some]
  simp only [before, spread]
  cases hc : cols.idxOf? c with
  | none => rfl
  | some j =>
    simp only [lastFiniteMark, take_add_one, hrow, Option.toList_some, reverse_append,
      reverse_singleton, singleton_append, findSome?_cons, WindowArrays.planes]
    cases (w.marks.getD i []).getD j none with
    | none | some v => rfl

theorem scalarBar_before (hb : w.barNs[i]? = some b) :
    scalarBar cols (w.planes i) b (before state w cols backlog placed i) (queueFrom placed i) =
      (before state w cols backlog placed (i + 1),
        .ok (queueFrom placed (i + 1), chargeAt w cols (unitsAt state w cols backlog placed) i,
          (gapWitness w cols (unitsAt state w cols backlog placed) i).bind fun j => cols[j]?)) := by
  have hi := (List.getElem?_eq_some_iff.mp hb).1
  have hgap := h.gap_eq hi
  have hlast := h.lastEventNs_before hb
  -- on a gap bar all funding counts as known; otherwise no held column is unknown
  have hadvanced : ∃ rates known,
      (if (gapWitness w cols (unitsAt state w cols backlog placed) i).isSome then
        (before state w cols backlog placed i).advanceTo b (spread cols (w.planes i).1 none)
          (fun c => if spread cols (w.planes i).2.2 true c then spread cols (w.planes i).2.1 0 c
            else 0) fun _ => true
      else
        (before state w cols backlog placed i).advanceTo b (spread cols (w.planes i).1 none)
          (spread cols (w.planes i).2.1 0) (spread cols (w.planes i).2.2 true)) =
        (before state w cols backlog placed i).advanceTo b (spread cols (w.planes i).1 none) rates known ∧
      (∀ c, heldUnknown (before state w cols backlog placed i).units known c = false) ∧
      ∀ c, rates c =
        if (gapWitness w cols (unitsAt state w cols backlog placed) i).isSome &&
          !spread cols (w.planes i).2.2 true c then 0 else spread cols (w.planes i).2.1 0 c := by
    cases hw : gapWitness w cols (unitsAt state w cols backlog placed) i with
    | some j =>
      refine ⟨_, _, rfl, fun c => Bool.and_false _, fun c => ?_⟩
      cases spread cols (w.planes i).2.2 true c <;> rfl
    | none =>
      refine ⟨_, _, rfl, fun c => ?_, fun c => rfl⟩
      rw [hw] at hgap
      have hc := find?_eq_none.mp hgap c (mem_finRange c)
      rw [heldUnknown]
      revert hc
      cases decide (qtyEps ≤ |(before state w cols backlog placed i).units c|) <;>
        cases spread cols (w.planes i).2.2 true c <;> simp
  obtain ⟨rates, known, hadv, hknown, hrates⟩ := hadvanced
  have hcharge := h.charge_eq hi hrates
  have hqueue := h.queueFrom_split hb
  rw [scalarBar]
  simp only [hgap, gap_isSome i]
  rw [hadv, advanceTo_eq _ _ hlast hknown, hcharge]
  simp only [hqueue.1, hqueue.2, foldl_applyFill]
  refine Prod.ext ?_ rfl
  show CausalPortfolioState.mk _ _ _ _ = CausalPortfolioState.mk _ _ _ _
  congr 1
  · rw [merged_succ, foldl_append, group_deltas]; rfl
  · funext c
    rw [h.fillsBefore_succ, levelOf_append]; rfl
  · funext c; exact (h.lastMarks_succ hi c).symm
  · rw [if_neg (Nat.succ_ne_zero i), Nat.add_sub_cancel, hb]

/-! ### All bars -/

theorem scalarBars_before {i k : ℕ} (hik : i + k = w.barNs.length) :
    scalarBars cols ((range' i k).map fun m => (w.planes m, w.barNs.getD m 0)) i
        (before state w cols backlog placed i) (queueFrom placed i) =
      (before state w cols backlog placed w.barNs.length,
        .ok ((range' i k).map (chargeAt w cols (unitsAt state w cols backlog placed)),
          (range' i k).filterMap fun m =>
            (gapWitness w cols (unitsAt state w cols backlog placed) m).bind fun j =>
              cols[j]?.map fun c => (m, c))) := by
  induction k generalizing i with
  | zero =>
    obtain rfl : i = w.barNs.length := by omega
    rfl
  | succ k ih =>
    have hb : w.barNs[i]? = some (w.barNs.getD i 0) := by
      rw [getD_eq_getElem?_getD, getElem?_eq_getElem (by omega), Option.getD_some]
    rw [range'_succ, map_cons, scalarBars, h.scalarBar_before hb]
    simp only [ih (i := i + 1) (by omega)]
    refine Prod.ext rfl (congrArg Except.ok (Prod.ext rfl ?_))
    rw [filterMap_cons]
    cases gapWitness w cols (unitsAt state w cols backlog placed) i with
    | none => rfl
    | some j =>
      show ((cols[j]?).toList.map fun c => (i, c)) ++ _ = _
      cases hj : cols[j]? <;> simp [hj]

theorem scalarSettle_eq :
    scalarSettle cols ((List.range w.barNs.length).map w.planes) w.barNs w.sorted state =
      (before state w cols backlog placed w.barNs.length,
        .ok ((List.range w.barNs.length).map (chargeAt w cols (unitsAt state w cols backlog placed)),
          (List.range w.barNs.length).filterMap fun m =>
            (gapWitness w cols (unitsAt state w cols backlog placed) m).bind fun j =>
              cols[j]?.map fun c => (m, c))) := by
  have hstart : backlog.foldl CausalPortfolioState.join state = before state w cols backlog placed 0 := by
    rw [foldl_join]
    congr 1
    · rw [fillsBefore, filter_eq_nil_iff.mpr fun p _ => by simp]
      rfl
    · funext c
      cases cols.idxOf? c <;> rfl
  have hqueue : (w.sorted.dropWhile fun f => decide (f.ns < w.barNs.headD 0)) = queueFrom placed 0 := by
    rw [queueFrom, filter_eq_self.mpr fun p _ => decide_eq_true (Nat.zero_le p.1)]
    exact h.applied.symm
  have hzip : ((List.range w.barNs.length).map w.planes).zip w.barNs =
      (range' 0 w.barNs.length).map fun m => (w.planes m, w.barNs.getD m 0) := by
    refine ext_getElem (by simp) fun m hm _ => ?_
    have hlt : m < w.barNs.length := by simpa using hm
    simp [getD_eq_getElem?_getD, hlt]
  rw [scalarSettle, hzip, ← h.early, hstart, hqueue, h.scalarBars_before (Nat.zero_add _), range_eq_range']

/-! ### The pass -/

theorem foldCash_eq :
    foldCash state.cash
        ((List.range w.barNs.length).map (chargeAt w cols (unitsAt state w cols backlog placed))) placed =
      (before state w cols backlog placed w.barNs.length).cash := by
  have hsorted : (deltas placed).Pairwise fun x y => x.1 ≤ y.1 := pairwise_map.mpr h.sorted
  have hlt : ∀ p ∈ deltas placed, p.1 < w.barNs.length := fun p hp => by
    obtain ⟨q, hq, rfl⟩ := mem_map.mp hp; exact h.place_lt hq
  have hbelow : ∀ b, searchsorted (placed.map fun p => p.1) b = below (deltas placed) b := fun b => by
    rw [searchsorted, takeWhile_map, length_map, below, deltas, filter_map, length_map]
    exact congrArg List.length (takeWhile_eq_filter Prod.fst h.sorted b)
  have hbars : ((List.range ((List.range w.barNs.length).map
        (chargeAt w cols (unitsAt state w cols backlog placed))).length).map fun b =>
          (b + searchsorted (placed.map fun p => p.1) b,
            ((List.range w.barNs.length).map (chargeAt w cols (unitsAt state w cols backlog placed))).getD b 0)) =
      (List.range w.barNs.length).map fun b =>
        (b + below (deltas placed) b, chargeAt w cols (unitsAt state w cols backlog placed) b) := by
    rw [length_map, length_range]
    refine map_congr_left fun b hb => ?_
    rw [hbelow, getD_eq_getElem?_getD, getElem?_map, getElem?_range (mem_range.mp hb)]; rfl
  have hfills : (placed.zipIdx.map fun p => (p.1.1 + 1 + p.2, p.1.2.2.delta)) =
      (deltas placed).zipIdx.map fun p => (p.1.1 + 1 + p.2, p.1.2) := by
    rw [deltas, zipIdx_map, map_map]; rfl
  rw [foldCash]
  simp only [hbars, hfills]
  rw [scatter_merged _ hsorted hlt (by simp [deltas])]; rfl

end Accepted

end Pass

end CryptoPilot.Engine.Accounting
