/- # SettleContracts — what `settle_window` accepts, and what it leaves.

The checks refuse exactly the windows that are not well formed, before anything is changed
(`settleWindow_cases`); an accepted window ends where the loop over its events ends. -/
import CryptoPilot.Lib.Effect
import CryptoPilot.Engine.SettleFold

namespace CryptoPilot.Engine.Accounting

open CryptoPilot.Live (Exc)
open CryptoPilot.Lib List

variable {n : ℕ}

/-! ## §1 The checks -/

theorem column?_eq_some {c : ℤ} {d : Fin n} : column? n c = some d ↔ c = (d : ℤ) := by
  rw [column?]
  split
  · rw [Option.some.injEq, Fin.ext_iff]
    show c.toNat = (d : ℕ) ↔ _; omega
  · rename_i h
    refine ⟨fun h => (by cases h), fun heq => absurd ?_ h⟩
    omega

theorem column?_isSome {c : ℤ} : (column? n c).isSome = true ↔ 0 ≤ c ∧ c < n := by
  rw [column?]
  split
  · rename_i h; exact ⟨fun _ => h, fun _ => rfl⟩
  · rename_i h; exact ⟨fun heq => (by cases heq), fun h' => absurd h' h⟩

/-- The bars of a window: some, strictly increasing, and not before the last event. -/
structure OrderedBars (bars : List ℤ) (lastEventNs : Option ℤ) : Prop where
  nonempty : bars ≠ []
  increasing : bars.Pairwise (· < ·)
  notBefore : lastEventNs.any (fun t => decide (bars.headD 0 < t)) = false

variable {bars : List ℤ} {columns : List ℤ} {applied : List QueuedFill}

theorem coerceBarNs_eq_ok {lastEventNs : Option ℤ} :
    coerceBarNs bars lastEventNs = .ok () ↔ OrderedBars bars lastEventNs := by
  unfold coerceBarNs
  split
  · rename_i hnil; exact ⟨fun h => (by cases h), fun h => absurd hnil h.nonempty⟩
  · rename_i hnil
    split
    · rename_i hord; exact ⟨fun h => (by cases h), fun h => absurd h.increasing hord⟩
    · rename_i hord
      split
      · rename_i hlast
        refine ⟨fun h => (by cases h), fun h => ?_⟩
        rw [h.notBefore] at hlast; exact absurd hlast Bool.false_ne_true
      · rename_i hlast
        exact ⟨fun _ => ⟨hnil, not_not.mp hord, Bool.eq_false_iff.mpr hlast⟩, fun _ => rfl⟩

variable {cols : List (Fin n)}

theorem coerceColumns_eq_ok :
    coerceColumns n columns = .ok cols ↔ columns = (cols.map fun c : Fin n => (c : ℤ)) ∧ cols.Nodup := by
  have hmap : columns.mapM (column? n) = some cols ↔ columns = cols.map fun c : Fin n => (c : ℤ) := by
    rw [option_mapM_eq_some]
    simp only [column?_eq_some]
    rw [← forall₂_map_right_iff (R := Eq), forall₂_eq_eq_eq]
  rw [coerceColumns]
  split
  · rename_i hnone
    rw [← hmap, hnone]; exact ⟨fun h => (by cases h), fun h => (by cases h.1)⟩
  · rename_i cols' hsome
    rw [← hmap, hsome]
    split
    · rename_i hnodup
      rw [Except.ok.injEq, Option.some.injEq]; exact ⟨fun h => ⟨h, h ▸ hnodup⟩, fun h => h.1⟩
    · rename_i hdup
      refine ⟨fun h => (by cases h), fun h => absurd ?_ hdup⟩
      rw [Option.some.inj h.1]; exact h.2

/-- The planes have a row per bar and a value per column, and the fill arrays one length. -/
structure Shaped (w : WindowArrays) : Prop where
  marks : w.marks.length = w.barNs.length ∧ ∀ row ∈ w.marks, row.length = w.columns.length
  fundingRates : w.fundingRates.length = w.barNs.length ∧ ∀ row ∈ w.fundingRates, row.length = w.columns.length
  fundingKnown : w.fundingKnown.length = w.barNs.length ∧ ∀ row ∈ w.fundingKnown, row.length = w.columns.length
  fills : w.fillColumns.length = w.fillNs.length ∧ w.fillQuantities.length = w.fillNs.length ∧
    w.fillPrices.length = w.fillNs.length ∧ w.fillFeeBps.length = w.fillNs.length

theorem checkShapes_eq_ok {w : WindowArrays} : checkShapes w = .ok () ↔ Shaped w := by
  have hrows : ∀ {α : Type} (plane : List (List α)),
      (decide (plane.length = w.barNs.length) && plane.all fun row =>
        decide (row.length = w.columns.length)) = true ↔
        plane.length = w.barNs.length ∧ ∀ row ∈ plane, row.length = w.columns.length := by
    intro α plane
    rw [Bool.and_eq_true, all_eq_true]; simp only [decide_eq_true_eq]
  unfold checkShapes
  simp only [Bool.and_eq_true (a := (_ && _)), hrows]
  constructor
  · intro h
    split at h
    · cases h
    · rename_i hplanes
      split at h
      · cases h
      · rename_i hfills
        obtain ⟨⟨hmarks, hrates⟩, hknown⟩ := not_not.mp hplanes
        exact ⟨hmarks, hrates, hknown, not_not.mp hfills⟩
  · intro h
    rw [if_neg (not_not.mpr ⟨⟨h.marks, h.fundingRates⟩, h.fundingKnown⟩), if_neg (not_not.mpr h.fills)]

/-! ### Fills -/

theorem sorted_pairwise (w : WindowArrays) : w.sorted.Pairwise fun f g => f.ns ≤ g.ns :=
  pairwise_insertionSort (fun f g : QueuedFill => f.ns ≤ g.ns) w.fills

theorem mem_sorted {w : WindowArrays} {f : QueuedFill} : f ∈ w.sorted ↔ f ∈ w.fills := mem_insertionSort _

theorem sorted_stable (w : WindowArrays) (t : ℤ) :
    (w.sorted.filter fun f => f.ns == t) = w.fills.filter fun f => f.ns == t := by
  have hsub : (w.fills.filter fun f => f.ns == t).Sublist w.sorted := by
    refine sublist_insertionSort (pairwise_of_forall_mem_list fun f hf g hg => ?_) filter_sublist
    rw [beq_iff_eq.mp (mem_filter.mp hf).2, beq_iff_eq.mp (mem_filter.mp hg).2]
  have hfiltered := hsub.filter fun f => f.ns == t
  rw [filter_filter] at hfiltered
  simp only [Bool.and_self] at hfiltered
  refine (hfiltered.eq_of_length ?_).symm
  exact ((perm_insertionSort (fun f g : QueuedFill => f.ns ≤ g.ns) w.fills).filter _).length_eq.symm

/-- The count of `searchsorted` cuts the fills before the first bar. -/
theorem backlog_cut (fills : List QueuedFill) (b : ℤ) :
    fills.take (searchsorted (fills.map QueuedFill.ns) b) = fills.takeWhile (fun f => decide (f.ns < b)) ∧
      fills.drop (searchsorted (fills.map QueuedFill.ns) b) = fills.dropWhile fun f => decide (f.ns < b) := by
  have hcount : searchsorted (fills.map QueuedFill.ns) b = (fills.takeWhile fun f => decide (f.ns < b)).length := by
    rw [searchsorted, takeWhile_map, length_map]; rfl
  have hsplit := takeWhile_append_dropWhile (p := fun f : QueuedFill => decide (f.ns < b)) (l := fills)
  rw [hcount]
  constructor
  · exact (congrArg (take _) hsplit.symm).trans take_left
  · exact (congrArg (drop _) hsplit.symm).trans drop_left

theorem searchsorted_eq (h : bars.Pairwise (· < ·)) {i : ℕ} {b : ℤ} (hb : bars[i]? = some b) :
    searchsorted bars b = i := by
  obtain ⟨hi, rfl⟩ := List.getElem?_eq_some_iff.mp hb
  have hfirst : ∀ x ∈ bars.take i, x < bars[i] := fun x hx => by
    obtain ⟨j, hj, rfl⟩ := mem_iff_getElem.mp hx
    rw [length_take] at hj
    rw [getElem_take]; exact pairwise_iff_getElem.mp h j i (by omega) hi (by omega)
  have hsplit : bars = bars.take i ++ bars[i] :: bars.drop (i + 1) := by
    rw [← drop_eq_getElem_cons hi, take_append_drop]
  have hcount := congrArg (fun l => (l.takeWhile fun y => decide (y < bars[i])).length) hsplit
  refine hcount.trans ?_
  rw [takeWhile_append_of_pos fun x hx => decide_eq_true (hfirst x hx), takeWhile_cons_of_neg (by simp),
    append_nil, length_take, Nat.min_eq_left hi.le]

theorem locate_eq_some (hbars : bars.Pairwise (· < ·)) (hcols : cols.Nodup) {f : QueuedFill} {i j : ℕ} :
    locate bars cols f = some (i, j) ↔
      bars[i]? = some f.ns ∧ ∃ c, column? n f.column = some c ∧ cols[j]? = some c := by
  rw [locate, Option.bind_eq_some_iff]
  constructor
  · rintro ⟨c, hc, h⟩
    dsimp only at h
    split at h
    · rename_i hbar
      obtain ⟨k, hk, heq⟩ := Option.map_eq_some_iff.mp h
      cases heq; exact ⟨hbar, c, hc, getElem?_of_idxOf? hk⟩
    · cases h
  · rintro ⟨hbar, c, hc, hj⟩
    refine ⟨c, hc, ?_⟩
    simp only [searchsorted_eq hbars hbar, hbar, if_true, idxOf?_of_getElem? hcols hj, Option.map_some]

theorem validateAppliedFills_eq_ok {placed : List Placed} :
    validateAppliedFills bars cols applied = .ok placed ↔
      (placed.map fun p => p.2.2) = applied ∧ ∀ p ∈ placed, locate bars cols p.2.2 = some (p.1, p.2.1) := by
  have hone : ∀ {f : QueuedFill} {p : Placed},
      ((locate bars cols f).map fun q => ((q.1, q.2, f) : Placed)) = some p ↔
        f = p.2.2 ∧ locate bars cols p.2.2 = some (p.1, p.2.1) := by
    intro f p
    rw [Option.map_eq_some_iff]
    constructor
    · rintro ⟨q, hq, rfl⟩; exact ⟨rfl, hq⟩
    · rintro ⟨rfl, hp⟩; exact ⟨_, hp, rfl⟩
  have hall : applied.mapM (fun f => (locate bars cols f).map fun q => ((q.1, q.2, f) : Placed)) = some placed ↔
      (placed.map fun p => p.2.2) = applied ∧ ∀ p ∈ placed, locate bars cols p.2.2 = some (p.1, p.2.1) := by
    rw [option_mapM_eq_some]
    simp only [hone]
    constructor
    · intro h
      induction h with
      | nil => exact ⟨rfl, fun p hp => absurd hp not_mem_nil⟩
      | cons hp _ ih =>
        refine ⟨by rw [map_cons, ih.1, ← hp.1], fun q hq => ?_⟩
        rcases mem_cons.mp hq with rfl | hq
        · exact hp.2
        · exact ih.2 q hq
    · rintro ⟨rfl, hplaces⟩
      rw [forall₂_map_left_iff, forall₂_same]; exact fun p hp => ⟨rfl, hplaces p hp⟩
  rw [validateAppliedFills]
  split
  · rename_i hnone
    rw [← hall, hnone]; exact ⟨fun h => (by cases h), fun h => (by cases h)⟩
  · rename_i placed' hsome
    rw [← hall, hsome, Except.ok.injEq, Option.some.injEq]

/-! ## §2 Windows that are accepted -/

/-- A window as the doc of `settle_window` asks for it. -/
structure WellFormed (state : CausalPortfolioState n) (w : WindowArrays) : Prop where
  bars : OrderedBars w.barNs state.lastEventNs
  columns : (∀ c ∈ w.columns, 0 ≤ c ∧ c < n) ∧ w.columns.Nodup
  shaped : Shaped w
  backlog : ∀ f ∈ w.fills, f.ns < w.barNs.headD 0 → 0 ≤ f.column ∧ f.column < n
  applied : ∀ f ∈ w.fills, w.barNs.headD 0 ≤ f.ns → f.ns ∈ w.barNs ∧ f.column ∈ w.columns

theorem mem_columns (h : columns = cols.map fun c : Fin n => (c : ℤ))
    {c : ℤ} : c ∈ columns ↔ ∃ d ∈ cols, column? n c = some d := by
  rw [h, mem_map]
  simp only [column?_eq_some]; exact exists_congr fun d => and_congr_right fun _ => eq_comm

theorem exists_coerceColumns :
    (∃ cols : List (Fin n), coerceColumns n columns = .ok cols) ↔
      (∀ c ∈ columns, 0 ≤ c ∧ c < n) ∧ columns.Nodup := by
  simp only [coerceColumns_eq_ok]
  constructor
  · rintro ⟨cols, rfl, hnodup⟩
    refine ⟨fun c hc => ?_, hnodup.map fun c d hcd => Fin.ext (by exact_mod_cast hcd)⟩
    obtain ⟨d, -, rfl⟩ := mem_map.mp hc; omega
  · rintro ⟨hrange, hnodup⟩
    have hmap : ∃ cols : List (Fin n), columns = cols.map fun c : Fin n => (c : ℤ) := by
      cases hcols : columns.mapM (column? n) with
      | none =>
        obtain ⟨c, hc, hnone⟩ := option_mapM_eq_none.mp hcols
        have hsome := column?_isSome.mpr (hrange c hc)
        rw [hnone] at hsome; cases hsome
      | some cols =>
        refine ⟨cols, ?_⟩
        have h := option_mapM_eq_some.mp hcols
        simp only [column?_eq_some] at h
        rwa [← forall₂_map_right_iff (R := Eq), forall₂_eq_eq_eq] at h
    obtain ⟨cols, rfl⟩ := hmap; exact ⟨cols, rfl, List.Nodup.of_map _ hnodup⟩

theorem exists_validateAppliedFills (hbars : bars.Pairwise (· < ·)) (hcols : cols.Nodup) :
    (∃ placed, validateAppliedFills bars cols applied = .ok placed) ↔
      ∀ f ∈ applied, f.ns ∈ bars ∧ ∃ c ∈ cols, column? n f.column = some c := by
  constructor
  · rintro ⟨placed, h⟩ f hf
    obtain ⟨rfl, hplaces⟩ := validateAppliedFills_eq_ok.mp h
    obtain ⟨p, hp, rfl⟩ := mem_map.mp hf
    obtain ⟨hbar, c, hc, hj⟩ := (locate_eq_some hbars hcols).mp (hplaces p hp)
    exact ⟨mem_of_getElem? hbar, c, mem_of_getElem? hj, hc⟩
  · intro h
    rw [validateAppliedFills]
    split
    · rename_i hnone
      obtain ⟨f, hf, hnone⟩ := option_mapM_eq_none.mp hnone
      obtain ⟨hbar, c, hc, hcol⟩ := h f hf
      obtain ⟨i, hi⟩ := mem_iff_getElem?.mp hbar
      obtain ⟨j, hj⟩ := mem_iff_getElem?.mp hc
      rw [(locate_eq_some hbars hcols).mpr ⟨hi, c, hcol, hj⟩] at hnone; cases hnone
    · exact ⟨_, rfl⟩

/-! ### Out of the checks -/

section Accepted

variable {state : CausalPortfolioState n} {w : WindowArrays} {cols : List (Fin n)} {placed : List Placed}

theorem accepted_of_checks (hbars : OrderedBars w.barNs state.lastEventNs)
    (hcols : coerceColumns n w.columns = .ok cols) (hshaped : Shaped w) (hplaced : validateAppliedFills w.barNs cols
      (w.sorted.dropWhile fun f => decide (f.ns < w.barNs.headD 0)) = .ok placed) :
    Accepted state w cols (w.sorted.takeWhile fun f => decide (f.ns < w.barNs.headD 0)) placed := by
  obtain ⟨-, hnodup⟩ := coerceColumns_eq_ok.mp hcols
  obtain ⟨happlied, hplaces⟩ := validateAppliedFills_eq_ok.mp hplaced
  have hplace := fun p hp => (locate_eq_some hbars.increasing hnodup).mp (hplaces p hp)
  refine ⟨hnodup, hbars.nonempty, hbars.increasing, hbars.notBefore, hshaped.marks.1, rfl, happlied, hplace, ?_⟩
  -- fills in order of their labels are in order of their bars
  have hns : placed.Pairwise fun p q => p.2.2.ns ≤ q.2.2.ns := by
    have hdrop := (sorted_pairwise w).sublist (dropWhile_sublist fun f => decide (f.ns < w.barNs.headD 0))
    rw [← happlied] at hdrop; exact (pairwise_map (f := fun p : Placed => p.2.2)).mp hdrop
  refine hns.imp_of_mem fun {p q} hp hq hle => ?_
  obtain ⟨hi, hpbar⟩ := List.getElem?_eq_some_iff.mp (hplace p hp).1
  obtain ⟨hj, hqbar⟩ := List.getElem?_eq_some_iff.mp (hplace q hq).1
  by_contra hlt
  have hbar := pairwise_iff_getElem.mp hbars.increasing q.1 p.1 hj hi (not_le.mp hlt); omega

theorem window_state {backlog : List QueuedFill} (h : Accepted state w cols backlog placed) :
    ({ cash := foldCash state.cash
         ((List.range w.barNs.length).map (chargeAt w cols (unitsAt state w cols backlog placed))) placed
       units := (placed.foldl (fun s p => s.join p.2.2) (backlog.foldl CausalPortfolioState.join state)).units
       lastMarks := fun c =>
        match cols.idxOf? c with
        | some j => lastFiniteMark w.marks j (state.lastMarks c)
        | none => state.lastMarks c
       lastEventNs := some (w.barNs.getLastD 0) } : CausalPortfolioState n) =
      before state w cols backlog placed w.barNs.length := by
  have hall : (placed.filter fun p => decide (p.1 < w.barNs.length)) = placed :=
    filter_eq_self.mpr fun p hp => decide_eq_true (h.place_lt hp)
  have hpos : w.barNs.length ≠ 0 := fun hzero => h.nonempty (length_eq_zero_iff.mp hzero)
  rw [h.foldCash_eq]
  congr 1
  · rw [fillsBefore, hall, foldl_join, ← foldl_map (f := fun p : Placed => p.2.2), foldl_join]
  · have hmarks : w.marks.take w.barNs.length = w.marks := by rw [← h.marks, take_length]
    funext c
    cases cols.idxOf? c with
    | none => rfl
    | some j => exact congrArg (fun marks => lastFiniteMark marks j (state.lastMarks c)) hmarks.symm
  · rw [if_neg hpos, ← getLast?_eq_getElem?, getLastD_eq_getLast?]
    cases hlast : w.barNs.getLast? with
    | none => exact absurd (getLast?_eq_none_iff.mp hlast) h.nonempty
    | some b => rfl

end Accepted

theorem settleWindow_cases (state : CausalPortfolioState n) (w : WindowArrays) :
    (¬WellFormed state w ∧ ∃ e, settleWindow state w = (state, .error e)) ∨
      WellFormed state w ∧ ∃ cols backlog placed, coerceColumns n w.columns = .ok cols ∧
        Accepted state w cols backlog placed ∧
        settleWindow state w = (before state w cols backlog placed w.barNs.length,
          .ok ⟨(List.range w.barNs.length).filterMap fun m =>
              (gapWitness w cols (unitsAt state w cols backlog placed) m).bind fun j =>
                cols[j]?.map fun c => (m, c),
            (List.range w.barNs.length).map (chargeAt w cols (unitsAt state w cols backlog placed)),
            placed.length, backlog.length⟩) := by
  have hcut := backlog_cut w.sorted (w.barNs.headD 0)
  have hsorted : w.sorted.Pairwise fun f g => f.ns ≤ g.ns := sorted_pairwise w
  -- the checks in the order of the source: bars, columns, shapes, backlog, fills
  unfold settleWindow
  split
  · rename_i e hbars
    refine .inl ⟨fun hwf => ?_, e, rfl⟩
    rw [coerceBarNs_eq_ok.mpr hwf.bars] at hbars; cases hbars
  rename_i hbars
  replace hbars := coerceBarNs_eq_ok.mp hbars
  split
  · rename_i e hcols
    refine .inl ⟨fun hwf => ?_, e, rfl⟩
    obtain ⟨cols, hok⟩ := exists_coerceColumns.mpr hwf.columns
    rw [hok] at hcols; cases hcols
  rename_i cols hcols
  obtain ⟨hnamed, hnodup⟩ := coerceColumns_eq_ok.mp hcols
  split
  · rename_i e hshaped
    refine .inl ⟨fun hwf => ?_, e, rfl⟩
    rw [checkShapes_eq_ok.mpr hwf.shaped] at hshaped; cases hshaped
  rename_i hshaped
  replace hshaped := checkShapes_eq_ok.mp hshaped
  dsimp only
  rw [hcut.1, hcut.2, takeWhile_eq_filter QueuedFill.ns hsorted]
  split
  · rename_i hbacklog
    refine .inl ⟨fun hwf => hbacklog (all_eq_true.mpr fun f hf => ?_), _, rfl⟩
    obtain ⟨hmem, hearly⟩ := mem_filter.mp hf
    exact column?_isSome.mpr (hwf.backlog f (mem_sorted.mp hmem) (of_decide_eq_true hearly))
  rename_i hbacklog
  rw [not_not, all_eq_true] at hbacklog
  have hplaced : (∃ placed, validateAppliedFills w.barNs cols
      (w.sorted.dropWhile fun f => decide (f.ns < w.barNs.headD 0)) = .ok placed) ↔ _ :=
    exists_validateAppliedFills hbars.increasing hnodup
  have happlied : (∀ f ∈ w.sorted.dropWhile fun f => decide (f.ns < w.barNs.headD 0),
      f.ns ∈ w.barNs ∧ ∃ c ∈ cols, column? n f.column = some c) ↔
      ∀ f ∈ w.fills, w.barNs.headD 0 ≤ f.ns → f.ns ∈ w.barNs ∧ f.column ∈ w.columns := by
    rw [dropWhile_eq_filter QueuedFill.ns hsorted]
    simp only [mem_filter, decide_eq_true_eq, mem_sorted, and_imp, mem_columns hnamed]
  split
  · rename_i e hrefused
    refine .inl ⟨fun hwf => ?_, e, rfl⟩
    obtain ⟨placed, hok⟩ := hplaced.mpr (happlied.mpr hwf.applied)
    rw [hok] at hrefused; cases hrefused
  · rename_i placed hok
    have hwf : WellFormed state w :=
      ⟨hbars, exists_coerceColumns.mp ⟨cols, hcols⟩, hshaped,
        fun f hf hearly => column?_isSome.mp (hbacklog f (mem_filter.mpr
          ⟨mem_sorted.mpr hf, decide_eq_true hearly⟩)), happlied.mp (hplaced.mp ⟨placed, hok⟩)⟩
    have hacc := accepted_of_checks hbars hcols hshaped hok
    rw [takeWhile_eq_filter QueuedFill.ns hsorted] at hacc
    exact .inr ⟨hwf, cols, _, placed, hcols, hacc, Prod.ext (window_state hacc) rfl⟩

/-- The window at once is the loop: a well-formed window leaves the state of the loop over its bars
and stable-sorted fills, with its charges and gaps; any other is refused and leaves the state as it
was. -/
theorem settle_window_eq_scalar (state : CausalPortfolioState n) (w : WindowArrays) :
    (∀ t, (w.sorted.filter fun f => f.ns == t) = w.fills.filter fun f => f.ns == t) ∧
      ((¬WellFormed state w ∧ ∃ e, settleWindow state w = (state, .error e)) ∨
        WellFormed state w ∧ ∃ cols state' settled, coerceColumns n w.columns = .ok cols ∧
          settleWindow state w = (state', .ok settled) ∧
          scalarSettle cols ((List.range w.barNs.length).map w.planes) w.barNs w.sorted state =
            (state', .ok (settled.fundingCharged, settled.gaps))) := by
  refine ⟨sorted_stable w, ?_⟩
  rcases settleWindow_cases state w with hrefused | ⟨hwf, cols, backlog, placed, hcols, hacc, hsettled⟩
  · exact .inl hrefused
  · exact .inr ⟨hwf, cols, _, _, hcols, hsettled, hacc.scalarSettle_eq⟩

end CryptoPilot.Engine.Accounting
