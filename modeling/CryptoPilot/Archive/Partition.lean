/- # Partition — month partitions and how days are merged into them.

A partition holds the rows of one symbol and month.  `merge_day_batch` replaces the days of a batch
and sorts what it writes; `_merge_slice_files` does the same for trade slices by merging tables in
the order of their days, the rows of one day being cut into tables as the file reader likes. -/
import Mathlib.Data.List.Dedup
import Mathlib.Data.List.Sort
import CryptoPilot.Lib.Calendar

namespace CryptoPilot.Archive

open CryptoPilot.Lib List

/-- A row with its time key in milliseconds: `timestamp`, or `transact_time_ms` of a trade. -/
class Timed (ρ : Type) where
  stamp : ρ → ℤ

/-- A month as its year and its number. -/
abbrev Month : Type := ℤ × ℤ

def monthOf (day : ℤ) : Month := civilMonth day

section Rows

variable {ρ : Type} [Timed ρ]

def rowDay (r : ρ) : ℤ := Timed.stamp r / 86400000

def rowMonth (r : ρ) : Month := monthOf (rowDay r)

def onDay (day : ℤ) (rows : List ρ) : List ρ := rows.filter fun r => rowDay r = day

def Before (a b : ρ) : Prop := Timed.stamp a ≤ Timed.stamp b

instance : DecidableRel (Before (ρ := ρ)) := fun _ _ => inferInstanceAs (Decidable (_ ≤ _))

instance : IsTrans ρ Before := ⟨fun _ _ _ => le_trans⟩

instance : Std.Total (Before (ρ := ρ)) := ⟨fun _ _ => le_total _ _⟩

/-- `sort_values` by the time key, which keeps the order of equal keys. -/
def sortRows (rows : List ρ) : List ρ := rows.insertionSort Before

def SortedRows (rows : List ρ) : Prop := rows.Pairwise Before

instance (rows : List ρ) : Decidable (SortedRows rows) := inferInstanceAs (Decidable (rows.Pairwise Before))

/-! ## Days of sorted rows -/

theorem rowDay_mono {a b : ρ} (h : Before a b) : rowDay a ≤ rowDay b :=
  Int.ediv_le_ediv (by decide) h

theorem before_of_rowDay_lt {a b : ρ} (h : rowDay a < rowDay b) : Before a b := by
  unfold rowDay at h
  show Timed.stamp a ≤ Timed.stamp b; omega

theorem sortedRows_sortRows (rows : List ρ) : SortedRows (sortRows rows) := pairwise_insertionSort _ _

variable {rows : List ρ}

theorem sortRows_of_sorted (h : SortedRows rows) : sortRows rows = rows :=
  List.Pairwise.insertionSort_eq h

theorem filter_orderedInsert (p : ρ → Bool) (a : ρ) (h : SortedRows rows) :
    (rows.orderedInsert Before a).filter p
      = if p a then (rows.filter p).orderedInsert Before a else rows.filter p := by
  induction rows with
  | nil => by_cases ha : p a <;> simp [ha]
  | cons b rows ih =>
    obtain ⟨hb, hrows⟩ := pairwise_cons.mp h
    by_cases hab : Before a b
    · -- everything from `b` on comes behind `a`
      have hall : ∀ c ∈ (b :: rows).filter p, Before a c := by
        intro c hc
        rcases mem_cons.mp (mem_of_mem_filter hc) with rfl | hc
        · exact hab
        · exact le_trans hab (hb c hc)
      have hinsert : ∀ l : List ρ, (∀ c ∈ l, Before a c) → l.orderedInsert Before a = a :: l := by
        intro l hl
        cases l with
        | nil => rfl
        | cons c l => exact orderedInsert_cons_of_le _ _ (hl c mem_cons_self)
      rw [orderedInsert_cons_of_le _ _ hab, filter_cons, hinsert _ hall]
    · rw [orderedInsert_of_not_le _ _ hab, filter_cons, ih hrows]
      by_cases ha : p a <;> by_cases hpb : p b <;> simp [ha, hpb, hab]

theorem filter_sortRows (p : ρ → Bool) (rows : List ρ) : (sortRows rows).filter p = sortRows (rows.filter p) := by
  induction rows with
  | nil => rfl
  | cons a rows ih =>
    have hsort : ∀ l : List ρ, sortRows (a :: l) = (sortRows l).orderedInsert Before a := fun _ => rfl
    rw [hsort, filter_orderedInsert p a (sortedRows_sortRows rows), filter_cons, ih]
    by_cases ha : p a
    · rw [if_pos ha, if_pos ha, hsort]
    · rw [if_neg ha, if_neg ha]

theorem onDay_append (day : ℤ) (rows rows' : List ρ) :
    onDay day (rows ++ rows') = onDay day rows ++ onDay day rows' :=
  filter_append ..

variable {day : ℤ} {tables : List (ℤ × List ρ)} {t : ℤ × List ρ} {xs ys : List (ℤ × List ρ)}

theorem onDay_of_inside (h : ∀ r ∈ rows, rowDay r = day) : onDay day rows = rows :=
  filter_eq_self.mpr fun r hr => by simpa using h r hr

theorem onDay_of_other {day other : ℤ} (h : ∀ r ∈ rows, rowDay r = other) (hne : other ≠ day) :
    onDay day rows = [] :=
  filter_eq_nil_iff.mpr fun r hr => by simpa using fun heq => hne ((h r hr).symm.trans heq)

theorem SortedRows.onDay (h : SortedRows rows) (day : ℤ) : SortedRows (onDay day rows) :=
  h.sublist filter_sublist

theorem sortedRows_of_days (hdays : rows.Pairwise fun a b => rowDay a ≤ rowDay b)
    (h : ∀ day, SortedRows (onDay day rows)) : SortedRows rows := by
  induction rows with
  | nil => exact List.Pairwise.nil
  | cons a rows ih =>
    obtain ⟨ha, hrows⟩ := pairwise_cons.mp hdays
    have htail : ∀ day, SortedRows (Archive.onDay day rows) := fun day =>
      (h day).sublist ((sublist_cons_self a rows).filter _)
    refine pairwise_cons.mpr ⟨fun b hb => ?_, ih hrows htail⟩
    rcases (ha b hb).lt_or_eq with hlt | heq
    · exact before_of_rowDay_lt hlt
    · have hday : SortedRows (Archive.onDay (rowDay a) (a :: rows)) := h (rowDay a)
      rw [Archive.onDay, filter_cons_of_pos (by simp)] at hday
      exact (pairwise_cons.mp hday).1 b (mem_filter.mpr ⟨hb, by simpa using heq.symm⟩)

/-! ## Merging by day -/

/-- The frames of a batch: one for each of its days, sorted, and inside its day and the month. -/
structure DayBatch (month : Month) (batch : List (ℤ × List ρ)) : Prop where
  nodup : (batch.map Prod.fst).Nodup
  inside : ∀ t ∈ batch, ∀ r ∈ t.2, rowDay r = t.1
  sorted : ∀ t ∈ batch, SortedRows t.2
  inMonth : ∀ t ∈ batch, monthOf t.1 = month

structure PartitionRows (month : Month) (rows : List ρ) : Prop where
  sorted : SortedRows rows
  inMonth : ∀ r ∈ rows, rowMonth r = month

structure MergedDays (batch : List (ℤ × List ρ)) (before after : List ρ) : Prop where
  batched : ∀ t ∈ batch, onDay t.1 after = t.2
  kept : ∀ day, day ∉ batch.map Prod.fst → onDay day after = onDay day before

theorem partitionRows_nil (month : Month) : PartitionRows month ([] : List ρ) := ⟨List.Pairwise.nil, nofun⟩

theorem onDay_flatMap (h : ∀ t ∈ tables, ∀ r ∈ t.2, rowDay r = t.1) (day : ℤ) :
    onDay day (tables.flatMap Prod.snd) = (tables.filter fun t => t.1 = day).flatMap Prod.snd := by
  induction tables with
  | nil => rfl
  | cons t tables ih =>
    have ht : ∀ r ∈ t.2, rowDay r = t.1 := h t mem_cons_self
    rw [flatMap_cons, onDay_append, ih fun t' ht' => h t' (mem_cons_of_mem t ht'), filter_cons]
    by_cases hday : t.1 = day
    · rw [if_pos (by simpa using hday), flatMap_cons, onDay_of_inside fun r hr => (ht r hr).trans hday]
    · rw [if_neg (by simpa using hday), onDay_of_other ht hday, nil_append]

variable {batch : List (ℤ × List ρ)}

omit [Timed ρ] in
theorem filter_of_nodup (h : (batch.map Prod.fst).Nodup)
    (ht : t ∈ batch) : (batch.filter fun t' => t'.1 = t.1) = [t] := by
  induction batch with
  | nil => cases ht
  | cons t' batch ih =>
    obtain ⟨hfresh, hnodup⟩ := nodup_cons.mp h
    rcases mem_cons.mp ht with rfl | ht
    · have hrest : (batch.filter fun t' => t'.1 = t.1) = [] := by
        refine filter_eq_nil_iff.mpr fun t' ht' heq => hfresh ?_
        rw [← of_decide_eq_true heq]; exact mem_map_of_mem ht'
      rw [filter_cons_of_pos (by simp), hrest]
    · have hne : t'.1 ≠ t.1 := fun heq => hfresh (heq ▸ mem_map_of_mem ht)
      rw [filter_cons_of_neg (by simpa using hne), ih hnodup ht]

omit [Timed ρ] in
theorem filter_of_notMem (h : day ∉ batch.map Prod.fst) :
    (batch.filter fun t => t.1 = day) = [] := by
  refine filter_eq_nil_iff.mpr fun t ht heq => h ?_
  rw [← of_decide_eq_true heq]; exact mem_map_of_mem ht

theorem onDay_batch (hnodup : (batch.map Prod.fst).Nodup)
    (hinside : ∀ t ∈ batch, ∀ r ∈ t.2, rowDay r = t.1) (ht : t ∈ batch) :
    onDay t.1 (batch.flatMap Prod.snd) = t.2 := by
  rw [onDay_flatMap hinside, filter_of_nodup hnodup ht, flatMap_cons, flatMap_nil, append_nil]

theorem onDay_batch_of_notMem (hinside : ∀ t ∈ batch, ∀ r ∈ t.2, rowDay r = t.1)
    (h : day ∉ batch.map Prod.fst) : onDay day (batch.flatMap Prod.snd) = [] := by
  rw [onDay_flatMap hinside, filter_of_notMem h, flatMap_nil]

/-! ## `merge_day_batch` -/

inductive MergeExc where
  | rowOutsideMonth
  deriving DecidableEq, Repr

/-- `merge_day_batch` on a partition, `none` being a missing file; it answers what is written, if
anything. -/
def mergeDayBatch (month : Month) (existing : Option (List ρ)) (batch : List (ℤ × List ρ)) :
    Except MergeExc (Option (List ρ)) :=
  let drop := batch.map Prod.fst
  let kept := (existing.getD []).filter fun r => rowDay r ∉ drop
  let merged := kept ++ batch.flatMap Prod.snd
  if merged.any fun r => decide (rowMonth r ≠ month) then .error .rowOutsideMonth
  else if existing.isNone && merged.isEmpty then .ok none
  else .ok (some (sortRows merged))

/-- What `merge_day_batch` sorts. -/
def mergedRows (existing : List ρ) (batch : List (ℤ × List ρ)) : List ρ :=
  existing.filter (fun r => rowDay r ∉ batch.map Prod.fst) ++ batch.flatMap Prod.snd

variable {month : Month} {existing : Option (List ρ)}

theorem onDay_kept (day : ℤ) (days : List ℤ) (rows : List ρ) :
    onDay day (rows.filter fun r => rowDay r ∉ days) = if day ∈ days then [] else onDay day rows := by
  rw [onDay, filter_filter]
  split
  next h =>
    refine filter_eq_nil_iff.mpr fun r _ => ?_
    simp only [Bool.and_eq_true, decide_eq_true_eq, not_and]
    rintro rfl hnot; exact hnot h
  next h =>
    refine filter_congr fun r _ => ?_
    by_cases hr : rowDay r = day
    · simp [hr, h]
    · simp [hr]

section

variable (h : DayBatch month batch) (hrows : PartitionRows month rows)

include h hrows

theorem mergedDays_sortRows :
    MergedDays batch rows (sortRows (mergedRows rows batch)) := by
  have hday : ∀ day, onDay day (sortRows (mergedRows rows batch))
      = sortRows ((if day ∈ batch.map Prod.fst then [] else onDay day rows) ++ onDay day
        (batch.flatMap Prod.snd)) := by
    intro day
    have hfilter := filter_sortRows (fun r => decide (rowDay r = day)) (mergedRows rows batch)
    rw [← onDay_kept, ← onDay_append]; exact hfilter
  refine ⟨fun t ht => ?_, fun day hnot => ?_⟩
  · rw [hday, if_pos (mem_map_of_mem ht), nil_append, onDay_batch h.nodup h.inside ht,
      sortRows_of_sorted (h.sorted t ht)]
  · rw [hday, if_neg hnot, onDay_batch_of_notMem h.inside hnot, append_nil,
      sortRows_of_sorted (hrows.sorted.onDay day)]

theorem inMonth_mergedRows :
    ∀ r ∈ mergedRows rows batch, rowMonth r = month := by
  intro r hr
  rcases mem_append.mp hr with hr | hr
  · exact hrows.inMonth r (mem_of_mem_filter hr)
  · obtain ⟨t, ht, hr⟩ := mem_flatMap.mp hr
    rw [rowMonth, h.inside t ht r hr]; exact h.inMonth t ht

end

theorem mergeDayBatch_spec (h : DayBatch month batch) (hrows : PartitionRows month (existing.getD [])) :
    ∃ put, mergeDayBatch month existing batch = .ok put ∧
      MergedDays batch (existing.getD []) ((put <|> existing).getD []) ∧
      PartitionRows month ((put <|> existing).getD []) ∧
      ((∃ t ∈ batch, t.2 ≠ []) → put.isSome) := by
  have hmonth : ∀ r ∈ mergedRows (existing.getD []) batch, rowMonth r = month := inMonth_mergedRows h hrows
  have hany : ¬ ((mergedRows (existing.getD []) batch).any fun r => decide (rowMonth r ≠ month)) = true := by
    rw [any_eq_true]
    rintro ⟨r, hr, hne⟩; exact of_decide_eq_true hne (hmonth r hr)
  have hmerge : mergeDayBatch month existing batch
      = if existing.isNone && (mergedRows (existing.getD []) batch).isEmpty then .ok none
        else .ok (some (sortRows (mergedRows (existing.getD []) batch))) := by
    exact if_neg hany
  have hsorted : PartitionRows month (sortRows (mergedRows (existing.getD []) batch)) :=
    ⟨sortedRows_sortRows _, fun r hr => hmonth r ((mem_insertionSort _).mp hr)⟩
  by_cases hnone : existing.isNone && (mergedRows (existing.getD []) batch).isEmpty
  · rw [if_pos hnone] at hmerge
    obtain ⟨hmissing, hempty⟩ := Bool.and_eq_true_iff.mp hnone
    obtain rfl : existing = none := Option.isNone_iff_eq_none.mp hmissing
    have hnil : mergedRows [] batch = [] := isEmpty_iff.mp hempty
    have hdays : MergedDays batch [] (sortRows (mergedRows [] batch)) := mergedDays_sortRows h hrows
    rw [hnil] at hdays
    refine ⟨none, hmerge, hdays, hrows, ?_⟩
    rintro ⟨t, ht, hne⟩
    have hflat : batch.flatMap Prod.snd = [] := (append_eq_nil_iff.mp hnil).2
    exact absurd (flatMap_eq_nil_iff.mp hflat t ht) hne
  · rw [if_neg hnone] at hmerge
    exact ⟨_, hmerge, mergedDays_sortRows h hrows, hsorted, fun _ => rfl⟩

/-! ## `_merge_slice_files` -/

structure Chunking (ρ : Type) where
  cut : List ρ → List (List ρ)
  flatten_cut : ∀ rows, (cut rows).flatten = rows

/-- `groupby` of a record batch by day. -/
def dayGroups (chunk : List ρ) : List (ℤ × List ρ) :=
  ((chunk.map rowDay).dedup.insertionSort (· ≤ ·)).map fun day => (day, onDay day chunk)

def existingChunks (C : Chunking ρ) (replaced : List ℤ) (existing : List ρ) : List (ℤ × List ρ) :=
  ((C.cut existing).flatMap dayGroups).filter fun t => t.1 ∉ replaced

def newChunks (C : Chunking ρ) (batch : List (ℤ × List ρ)) : List (ℤ × List ρ) :=
  (batch.insertionSort fun a b => a.1 ≤ b.1).flatMap fun t => (C.cut t.2).map fun chunk => (t.1, chunk)

/-- `_merge_slice_files`: the rows of the tables that `heapq.merge` yields; the file is always
written. -/
def mergeSliceFiles (C : Chunking ρ) (existing : Option (List ρ)) (batch : List (ℤ × List ρ)) : List ρ :=
  ((existingChunks C (batch.map Prod.fst) (existing.getD [])).merge (newChunks C batch)
    fun a b => decide (a.1 ≤ b.1)).flatMap Prod.snd

structure DayTables (tables : List (ℤ × List ρ)) : Prop where
  inside : ∀ t ∈ tables, ∀ r ∈ t.2, rowDay r = t.1
  ordered : tables.Pairwise fun a b => a.1 ≤ b.1

variable (p : ℤ × List ρ → Bool)

omit [Timed ρ] in
theorem filter_merge_left (h : ∀ y ∈ ys, p y = false)
    (le : ℤ × List ρ → ℤ × List ρ → Bool) : (xs.merge ys le).filter p = xs.filter p := by
  induction xs generalizing ys with
  | nil =>
    rw [nil_merge]; exact filter_eq_nil_iff.mpr fun y hy => by simp [h y hy]
  | cons x xs ihx =>
    induction ys with
    | nil => rw [merge_right]
    | cons y ys ihy =>
      rw [merge]
      by_cases hle : le x y
      · rw [if_pos hle, filter_cons, filter_cons, ihx h]
      · rw [if_neg hle, filter_cons, h y mem_cons_self]
        exact ihy fun y' hy' => h y' (mem_cons_of_mem y hy')

omit [Timed ρ] in
theorem filter_merge_right (h : ∀ x ∈ xs, p x = false)
    (le : ℤ × List ρ → ℤ × List ρ → Bool) : (xs.merge ys le).filter p = ys.filter p := by
  induction xs generalizing ys with
  | nil => rw [nil_merge]
  | cons x xs ihx =>
    have hx : p x = false := h x mem_cons_self
    have hxs : ∀ x' ∈ xs, p x' = false := fun x' hx' => h x' (mem_cons_of_mem x hx')
    induction ys with
    | nil =>
      rw [merge_right]; exact filter_eq_nil_iff.mpr fun x' hx' => by simp [h x' hx']
    | cons y ys ihy =>
      rw [merge]
      by_cases hle : le x y
      · rw [if_pos hle, filter_cons, hx, if_neg Bool.false_ne_true, ihx hxs]
      · rw [if_neg hle, filter_cons, filter_cons, ihy]

theorem DayTables.merge (hx : DayTables xs) (hy : DayTables ys) :
    DayTables (xs.merge ys fun a b => decide (a.1 ≤ b.1)) where
  inside t ht := (mem_merge.mp ht).elim (hx.inside t) (hy.inside t)
  ordered := by
    have htrans : ∀ a b c : ℤ × List ρ, decide (a.1 ≤ b.1) = true → decide (b.1 ≤ c.1) = true →
        decide (a.1 ≤ c.1) = true := by
      intro a b c hab hbc; simp only [decide_eq_true_eq] at hab hbc ⊢; exact le_trans hab hbc
    have htotal : ∀ a b : ℤ × List ρ, (decide (a.1 ≤ b.1) || decide (b.1 ≤ a.1)) = true := by
      intro a b; simp only [Bool.or_eq_true, decide_eq_true_eq]; exact le_total a.1 b.1
    have hordered := pairwise_merge htrans htotal xs ys (hx.ordered.imp (by simp)) (hy.ordered.imp (by simp))
    exact hordered.imp of_decide_eq_true

theorem DayTables.sortedRows (h : DayTables tables)
    (hday : ∀ day, SortedRows (onDay day (tables.flatMap Prod.snd))) : SortedRows (tables.flatMap Prod.snd) := by
  refine sortedRows_of_days (pairwise_flatMap.mpr ⟨fun t ht => ?_, ?_⟩) hday
  · refine pairwise_of_forall_mem_list fun a ha b hb => ?_
    exact le_of_eq ((h.inside t ht a ha).trans (h.inside t ht b hb).symm)
  · refine h.ordered.imp_of_mem fun {t t'} ht ht' hle a ha b hb => ?_
    rw [h.inside t ht a ha, h.inside t' ht' b hb]; exact hle

variable (C : Chunking ρ)

theorem mem_dayGroups {chunk : List ρ} (h : t ∈ dayGroups chunk) :
    (∃ r ∈ chunk, rowDay r = t.1) ∧ t.2 = onDay t.1 chunk := by
  obtain ⟨day, hday, rfl⟩ := mem_map.mp h
  rw [mem_insertionSort, mem_dedup] at hday
  obtain ⟨r, hr, hrday⟩ := mem_map.mp hday; exact ⟨⟨r, hr, hrday⟩, rfl⟩

theorem dayGroups_inside {chunk : List ρ} : ∀ t ∈ dayGroups chunk, ∀ r ∈ t.2, rowDay r = t.1 := by
  intro t ht r hr
  rw [(mem_dayGroups ht).2] at hr; exact of_decide_eq_true (mem_filter.mp hr).2

theorem filter_dayGroups (chunk : List ρ) (day : ℤ) :
    ((dayGroups chunk).filter fun t => t.1 = day).flatMap Prod.snd = onDay day chunk := by
  have hnodup : ((dayGroups chunk).map Prod.fst).Nodup := by
    have hfst : (dayGroups chunk).map Prod.fst = (chunk.map rowDay).dedup.insertionSort (· ≤ ·) := by
      rw [dayGroups, map_map]; exact map_id _
    rw [hfst]; exact (perm_insertionSort _ _).nodup_iff.mpr (nodup_dedup _)
  by_cases hday : day ∈ chunk.map rowDay
  · have hmem : (day, onDay day chunk) ∈ dayGroups chunk :=
      mem_map_of_mem ((mem_insertionSort _).mpr (mem_dedup.mpr hday))
    rw [filter_of_nodup hnodup hmem, flatMap_cons, flatMap_nil, append_nil]
  · have hnone : onDay day chunk = [] := by
      refine filter_eq_nil_iff.mpr fun r hr heq => hday ?_
      rw [← of_decide_eq_true heq]; exact mem_map_of_mem hr
    have hnot : day ∉ (dayGroups chunk).map Prod.fst := by
      intro hmem
      obtain ⟨t, ht, rfl⟩ := mem_map.mp hmem
      obtain ⟨r, hr, hrday⟩ := (mem_dayGroups ht).1; exact hday (hrday ▸ mem_map_of_mem hr)
    rw [filter_of_notMem hnot, hnone, flatMap_nil]

theorem existingChunks_tables {existing : List ρ} (h : SortedRows existing) (replaced : List ℤ) :
    DayTables (existingChunks C replaced existing) where
  inside t ht := by
    obtain ⟨chunk, -, ht⟩ := mem_flatMap.mp (mem_of_mem_filter ht); exact dayGroups_inside t ht
  ordered := by
    refine List.Pairwise.filter _ (pairwise_flatMap.mpr ⟨fun chunk _ => ?_, ?_⟩)
    · exact pairwise_map.mpr (pairwise_insertionSort (· ≤ ·) _)
    · have hcut : ((C.cut existing).flatten).Pairwise Before := by
        rw [C.flatten_cut]; exact h
      refine (pairwise_flatten.mp hcut).2.imp fun {c c'} hc t ht t' ht' => ?_
      obtain ⟨r, hr, hrday⟩ := (mem_dayGroups ht).1
      obtain ⟨r', hr', hrday'⟩ := (mem_dayGroups ht').1
      rw [← hrday, ← hrday']; exact rowDay_mono (hc r hr r' hr')

theorem filter_chunkGroups (chunks : List (List ρ)) (day : ℤ) :
    ((chunks.flatMap dayGroups).filter fun t => t.1 = day).flatMap Prod.snd = onDay day chunks.flatten := by
  induction chunks with
  | nil => rfl
  | cons chunk chunks ih =>
    rw [flatMap_cons, filter_append, flatMap_append, filter_dayGroups, ih, flatten_cons, onDay_append]

theorem onDay_existingChunks {existing : List ρ} {replaced : List ℤ} (hday : day ∉ replaced) :
    ((existingChunks C replaced existing).filter fun t => t.1 = day).flatMap Prod.snd = onDay day existing := by
  have hfilter : (existingChunks C replaced existing).filter (fun t => t.1 = day)
      = ((C.cut existing).flatMap dayGroups).filter fun t => t.1 = day := by
    rw [existingChunks, filter_filter]
    refine filter_congr fun t _ => ?_
    by_cases ht : t.1 = day
    · simp [ht, hday]
    · simp [ht]
  rw [hfilter, filter_chunkGroups, C.flatten_cut]

omit [Timed ρ] in
theorem newChunks_rows (batch : List (ℤ × List ρ)) :
    (newChunks C batch).flatMap Prod.snd = (batch.insertionSort fun a b => a.1 ≤ b.1).flatMap Prod.snd := by
  rw [newChunks, flatMap_assoc]
  refine flatMap_congr fun t _ => ?_
  rw [flatMap_map]; exact flatMap_id.trans (C.flatten_cut t.2)

theorem newChunks_tables (h : ∀ t ∈ batch, ∀ r ∈ t.2, rowDay r = t.1) :
    DayTables (newChunks C batch) where
  inside t ht r hr := by
    obtain ⟨t', ht', htable⟩ := mem_flatMap.mp ht
    obtain ⟨chunk, hchunk, rfl⟩ := mem_map.mp htable
    have hr' : r ∈ t'.2 := by
      rw [← C.flatten_cut t'.2]; exact mem_flatten_of_mem hchunk hr
    exact h t' ((mem_insertionSort _).mp ht') r hr'
  ordered := by
    refine pairwise_flatMap.mpr ⟨fun t _ => ?_, ?_⟩
    · exact pairwise_map.mpr (pairwise_of_forall_mem_list fun _ _ _ _ => le_refl _)
    · have hsort := pairwise_insertionSort (fun a b : ℤ × List ρ => a.1 ≤ b.1) batch
      refine hsort.imp fun {t t'} hle u hu u' hu' => ?_
      obtain ⟨chunk, -, rfl⟩ := mem_map.mp hu
      obtain ⟨chunk', -, rfl⟩ := mem_map.mp hu'; exact hle

omit [Timed ρ] in
theorem fst_mem_of_newChunks (h : t ∈ newChunks C batch) : t.1 ∈ batch.map Prod.fst := by
  obtain ⟨t', ht', hchunk⟩ := mem_flatMap.mp h
  obtain ⟨chunk, -, rfl⟩ := mem_map.mp hchunk
  have hbatch : t' ∈ batch := (mem_insertionSort _).mp ht'; exact mem_map.mpr ⟨t', hbatch, rfl⟩

theorem mergeSliceFiles_spec {month : Month} {existing : Option (List ρ)}
    (h : DayBatch month batch) (hrows : PartitionRows month (existing.getD [])) :
    MergedDays batch (existing.getD []) (mergeSliceFiles C existing batch) ∧
      PartitionRows month (mergeSliceFiles C existing batch) := by
  have hold : DayTables (existingChunks C (batch.map Prod.fst) (existing.getD [])) :=
    existingChunks_tables C hrows.sorted _
  have hnew : DayTables (newChunks C batch) := newChunks_tables C h.inside
  have htables := hold.merge hnew
  have hperm : (batch.insertionSort fun a b => a.1 ≤ b.1).Perm batch := perm_insertionSort _ _
  have hmerged : MergedDays batch (existing.getD []) (mergeSliceFiles C existing batch) := by
    refine ⟨fun t ht => ?_, fun day hday => ?_⟩
    · -- a day of the batch is in the new tables only
      rw [mergeSliceFiles, onDay_flatMap htables.inside, filter_merge_right, ← onDay_flatMap hnew.inside,
        newChunks_rows, onDay_batch ((hperm.map Prod.fst).nodup_iff.mpr h.nodup)
          (fun t' ht' => h.inside t' (hperm.mem_iff.mp ht')) (hperm.mem_iff.mpr ht)]
      intro t' ht'
      have hnot := of_decide_eq_true (mem_filter.mp ht').2
      exact decide_eq_false fun heq => hnot (heq ▸ mem_map_of_mem ht)
    · rw [mergeSliceFiles, onDay_flatMap htables.inside, filter_merge_left, onDay_existingChunks C hday]
      intro t ht; exact decide_eq_false fun heq => hday (heq ▸ fst_mem_of_newChunks C ht)
  refine ⟨hmerged, htables.sortedRows fun day => ?_, fun r hr => ?_⟩
  · by_cases hday : day ∈ batch.map Prod.fst
    · obtain ⟨t, ht, rfl⟩ := mem_map.mp hday; exact (hmerged.batched t ht).symm ▸ h.sorted t ht
    · exact (hmerged.kept day hday).symm ▸ hrows.sorted.onDay day
  · have hday : r ∈ onDay (rowDay r) (mergeSliceFiles C existing batch) := mem_filter.mpr ⟨hr, by simp⟩
    by_cases hbatch : rowDay r ∈ batch.map Prod.fst
    · obtain ⟨t, ht, heq⟩ := mem_map.mp hbatch
      rw [rowMonth, ← heq]; exact h.inMonth t ht
    · rw [hmerged.kept _ hbatch] at hday; exact hrows.inMonth r (mem_of_mem_filter hday)

end Rows

theorem nodup_eraseDups {α : Type} [BEq α] [LawfulBEq α] (l : List α) : l.eraseDups.Nodup := by
  match l with
  | [] => exact nodup_nil
  | a :: l =>
    rw [eraseDups_cons]
    refine nodup_cons.mpr ⟨fun hin => ?_, nodup_eraseDups _⟩
    have hmem := (mem_filter.mp (mem_eraseDups.mp hin)).2
    rw [beq_self_eq_true] at hmem; cases hmem
termination_by l.length
decreasing_by
  exact Nat.lt_succ_of_le (length_filter_le _ _)

end CryptoPilot.Archive
