/- # CollectRuns — what the coverage says about the partitions.

`Sound` is the invariant of a symbol's archive: partitions are sorted and of their month, and a day
whose last row is `ok`, appended since the day was last derived, holds exactly what was derived.
Along the script of a month the days of its batch are unrecorded until their rows are appended, so
that what is written for them breaks nothing; the other days keep their rows. -/
import CryptoPilot.Archive.Collect

namespace CryptoPilot.Archive

open CryptoPilot.Lib List Option
open CryptoPilot.Lib.Interleave (execute Along Interleaving interleaved)

variable {ρ σ : Type} [Timed ρ] [Timed σ]

/-! ## Reading an archive -/

section Reading

variable {s : SymbolArchive ρ σ} {dataset dataset' : ArchiveDataset} {day day' : ℤ} {month month' : Month}

def SymbolArchive.derivedRows (s : SymbolArchive ρ σ) (dataset : ArchiveDataset) (month : Month) : List ρ :=
  (s.derived dataset month).getD []

def SymbolArchive.sliceRows (s : SymbolArchive ρ σ) (dataset : ArchiveDataset) (month : Month) : List σ :=
  (s.slice dataset month).getD []

/-- The partitions hold a derivation: its frame, and its slice if it has one. -/
def Holds (s : SymbolArchive ρ σ) (dataset : ArchiveDataset) (day : ℤ) (d : Derivation ρ σ) : Prop :=
  onDay day (s.derivedRows dataset (monthOf day)) = d.frame ∧
    ∀ slice, d.sliced = some slice → onDay day (s.sliceRows dataset (monthOf day)) = slice

def Written (s : SymbolArchive ρ σ) (dataset : ArchiveDataset) (day : ℤ) : Prop :=
  ∃ d, s.latest dataset day = some d ∧ Holds s dataset day d

def RowIsCurrent (s : SymbolArchive ρ σ) (dataset : ArchiveDataset) (day : ℤ) : Prop :=
  ∃ d, s.latest dataset day = some d ∧ d.recorded = true

variable {κ α : Type}

variable (f : ArchiveDataset → κ → α)

@[simp] theorem setEntry_self [DecidableEq κ] (dataset : ArchiveDataset)
    (k : κ) (v : α) : setEntry f dataset k v dataset k = v :=
  if_pos ⟨rfl, rfl⟩

theorem setEntry_other [DecidableEq κ] {k k' : κ} (v : α)
    (h : ¬ (dataset' = dataset ∧ k' = k)) : setEntry f dataset k v dataset' k' = f dataset' k' :=
  if_neg h

theorem setEntry_undo [DecidableEq κ] (k : κ) (v : α) :
    setEntry (setEntry f dataset k v) dataset k (f dataset k) = f := by
  funext dataset' k'
  by_cases h : dataset' = dataset ∧ k' = k
  · obtain ⟨rfl, rfl⟩ := h
    rw [setEntry_self]
  · rw [setEntry_other _ _ h, setEntry_other _ _ h]

theorem setEntry_same [DecidableEq κ] (k : κ) : setEntry f dataset k (f dataset k) = f := by
  funext dataset' k'
  by_cases h : dataset' = dataset ∧ k' = k
  · obtain ⟨rfl, rfl⟩ := h
    rw [setEntry_self]
  · rw [setEntry_other _ _ h]

omit [Timed ρ] [Timed σ] in
theorem row_append (row : CoverageRow) (dataset' : ArchiveDataset) (day : ℤ) :
    (s.apply (.append dataset row)).row dataset' day
      = if dataset' = dataset ∧ row.day = day then some row else s.row dataset' day := by
  by_cases hdataset : dataset' = dataset
  · subst hdataset
    by_cases hday : row.day = day <;> simp [SymbolArchive.row, SymbolArchive.apply, filter_append, hday]
  · simp [SymbolArchive.row, SymbolArchive.apply, hdataset]

omit [Timed ρ] [Timed σ] in
theorem latest_append (row : CoverageRow) (dataset' : ArchiveDataset) (day : ℤ) :
    (s.apply (.append dataset row)).latest dataset' day
      = if dataset' = dataset ∧ day = row.day then (s.latest dataset day).map fun d => { d with recorded := true }
        else s.latest dataset' day := by
  by_cases h : dataset' = dataset ∧ day = row.day
  · obtain ⟨rfl, rfl⟩ := h
    rw [if_pos ⟨rfl, rfl⟩]; exact setEntry_self _ _ _ _
  · rw [if_neg h]; exact setEntry_other _ _ h

end Reading

/-! ## The invariant and the operations -/

section Operations

structure Sound (s : SymbolArchive ρ σ) : Prop where
  derived : ∀ dataset month, PartitionRows month (s.derivedRows dataset month)
  slice : ∀ dataset month, PartitionRows month (s.sliceRows dataset month)
  known : ∀ dataset day row, s.row dataset day = some row → row.status = .ok → (s.latest dataset day).isSome
  held : ∀ dataset day row d, s.row dataset day = some row → row.status = .ok → s.latest dataset day = some d →
    d.recorded = true → Holds s dataset day d

variable {s : SymbolArchive ρ σ} {dataset : ArchiveDataset} {month : Month}

theorem sound_empty : Sound (SymbolArchive.empty : SymbolArchive ρ σ) where
  derived _ month := partitionRows_nil month
  slice _ month := partitionRows_nil month
  known _ _ _ h := by cases h
  held _ _ _ _ h := by cases h

theorem Sound.derive (h : Sound s) (day : ℤ) (frame : List ρ) (sliced : Option (List σ)) :
    Sound (s.apply (.derive dataset day frame sliced)) where
  derived := h.derived
  slice := h.slice
  known dataset' day' row hrow hok := by
    show (setEntry s.latest dataset day _ dataset' day').isSome
    by_cases hsame : dataset' = dataset ∧ day' = day
    · rw [setEntry, if_pos hsame]; rfl
    · rw [setEntry_other _ _ hsame]; exact h.known dataset' day' row hrow hok
  held dataset' day' row d hrow hok hlatest hrecorded := by
    have hlatest' : setEntry s.latest dataset day _ dataset' day' = some d := hlatest
    by_cases hsame : dataset' = dataset ∧ day' = day
    · rw [setEntry, if_pos hsame] at hlatest'; cases hlatest'; cases hrecorded
    · rw [setEntry_other _ _ hsame] at hlatest'
      exact h.held dataset' day' row d hrow hok hlatest' hrecorded

/-- Appending a row: an `ok` row needs its derivation in the partitions. -/
theorem Sound.append (h : Sound s) {row : CoverageRow} (hok : row.status = .ok → Written s dataset row.day) :
    Sound (s.apply (.append dataset row)) where
  derived := h.derived
  slice := h.slice
  known dataset' day row' hrow hstatus := by
    rw [row_append] at hrow
    rw [latest_append]
    split at hrow
    next hsame =>
      obtain ⟨rfl, rfl⟩ := hsame
      cases hrow
      obtain ⟨d, hd, -⟩ := hok hstatus
      rw [if_pos ⟨rfl, rfl⟩, hd]; rfl
    next hother =>
      have hother' : ¬ (dataset' = dataset ∧ day = row.day) := fun hsame => hother ⟨hsame.1, hsame.2.symm⟩
      rw [if_neg hother']; exact h.known dataset' day row' hrow hstatus
  held dataset' day row' d hrow hstatus hlatest hrecorded := by
    rw [row_append] at hrow
    rw [latest_append] at hlatest
    split at hrow
    next hsame =>
      obtain ⟨rfl, rfl⟩ := hsame
      cases hrow
      obtain ⟨d', hd', hholds⟩ := hok hstatus
      rw [if_pos ⟨rfl, rfl⟩, hd'] at hlatest; cases hlatest; exact hholds
    next hother =>
      have hother' : ¬ (dataset' = dataset ∧ day = row.day) := fun hsame => hother ⟨hsame.1, hsame.2.symm⟩
      rw [if_neg hother'] at hlatest
      exact h.held dataset' day row' d hrow hstatus hlatest hrecorded

section Tables

variable {α : Type} [Timed α] {f : ArchiveDataset → Month → Option (List α)} {rows : Option (List α)}
  {dataset' : ArchiveDataset}

theorem partitionRows_put (h : ∀ dataset month, PartitionRows month ((f dataset month).getD []))
    (hrows : PartitionRows month (rows.getD [])) (dataset' : ArchiveDataset) (month' : Month) :
    PartitionRows month' ((setEntry f dataset month rows dataset' month').getD []) := by
  rw [setEntry]
  split
  next hsame => exact hsame.2 ▸ hrows
  next => exact h dataset' month'

/-- A put leaves the days whose rows it keeps. -/
theorem onDay_put {day : ℤ} (hkeep : dataset' = dataset → monthOf day = month →
      onDay day (rows.getD []) = onDay day ((f dataset' (monthOf day)).getD [])) :
    onDay day ((setEntry f dataset month rows dataset' (monthOf day)).getD [])
      = onDay day ((f dataset' (monthOf day)).getD []) := by
  rw [setEntry]
  split
  next hsame => exact hkeep hsame.1 hsame.2
  next => rfl

omit [Timed α] in
theorem isSome_put {month' : Month} (hrows : dataset' = dataset → month' = month → rows.isSome)
    (h : (f dataset' month').isSome) : (setEntry f dataset month rows dataset' month').isSome := by
  rw [setEntry]
  split
  next hsame => exact hrows hsame.1 hsame.2
  next => exact h

end Tables

theorem Sound.putDerived (h : Sound s) {rows : Option (List ρ)} (hrows : PartitionRows month (rows.getD []))
    (hkeep : ∀ day, monthOf day = month → RowIsCurrent s dataset day →
      onDay day (rows.getD []) = onDay day (s.derivedRows dataset (monthOf day))) :
    Sound (s.apply (.putDerived dataset month rows)) where
  derived := partitionRows_put h.derived hrows
  slice := h.slice
  known := h.known
  held dataset' day row d hrow hok hlatest hrecorded := by
    obtain ⟨hframe, hslice⟩ := h.held dataset' day row d hrow hok hlatest hrecorded
    refine ⟨(onDay_put ?_).trans hframe, hslice⟩
    rintro rfl hmonth; exact hkeep day hmonth ⟨d, hlatest, hrecorded⟩

theorem Sound.putSlice (h : Sound s) {rows : List σ} (hrows : PartitionRows month rows)
    (hkeep : ∀ day, monthOf day = month → RowIsCurrent s dataset day →
      onDay day rows = onDay day (s.sliceRows dataset (monthOf day))) :
    Sound (s.apply (.putSlice dataset month rows)) where
  derived := h.derived
  slice := by
    refine partitionRows_put h.slice ?_; exact hrows
  known := h.known
  held dataset' day row d hrow hok hlatest hrecorded := by
    obtain ⟨hframe, hslice⟩ := h.held dataset' day row d hrow hok hlatest hrecorded
    refine ⟨hframe, fun slice hsliced => (onDay_put ?_).trans (hslice slice hsliced)⟩
    rintro rfl hmonth; exact hkeep day hmonth ⟨d, hlatest, hrecorded⟩

end Operations

/-! ## What `gather_month` leaves -/

section Gathering

variable {w : MonthWork ρ σ} {day : ℤ} {frame : List ρ} {sliced : Option (List σ)} {s : SymbolArchive ρ σ}

/-- The day's file was derived, and its slice staged if the plan has a window. -/
def Gives (w : MonthWork ρ σ) (day : ℤ) (frame : List ρ) (sliced : Option (List σ)) : Prop :=
  ∃ d, w.env.fetched day = .derived d ∧ frame = d.frame ∧ sliced = w.plan.sliceHours.map d.slice ∧
    (sliced.isSome → w.env.stagingFails day = none)

/-- `gather_month` notes a derivation or appends a row that is not `ok`. -/
def NoteOp (dataset : ArchiveDataset) (days : List ℤ) : ArchiveOp ρ σ → Prop
  | .derive dataset' day _ _ => dataset' = dataset ∧ day ∈ days
  | .append dataset' row => dataset' = dataset ∧ row.day ∈ days ∧ row.status ≠ .ok
  | _ => False

theorem recordOps_note {day : ℤ} {status : CoverageStatus} (hstatus : status ≠ .ok) (sha : Option String) (rows : ℕ)
    (detail : Option String) : ∀ op ∈ recordOps w day status sha rows detail, NoteOp w.plan.dataset [day] op := by
  intro op hop
  rw [recordOps] at hop
  split at hop
  next =>
    rw [mem_singleton.mp hop]; exact ⟨rfl, mem_singleton_self _, hstatus⟩
  next => cases hop

theorem gatherDay_cases (w : MonthWork ρ σ) (day : ℤ) (later : Gathered ρ σ) :
    (∃ ops outcomes, (∀ frame sliced, ¬ Gives w day frame sliced) ∧ (∀ op ∈ ops, NoteOp w.plan.dataset [day] op) ∧
      (∀ o ∈ outcomes, o.status = .failed ∧ o.day = day) ∧ gatherDay w day later =
        { later with outcomes := outcomes ++ later.outcomes, ops := ops ++ later.ops }) ∨
    ∃ frame sliced sha, Gives w day frame sliced ∧ gatherDay w day later =
      { derived := (day, frame) :: later.derived
        slices := (sliced.map fun slice => (day, slice)).toList ++ later.slices
        outcomes := { day := day, status := .ok, info := sha, rows := frame.length } :: later.outcomes
        ops := .derive w.plan.dataset day frame sliced :: later.ops } := by
  cases hfetch : w.env.fetched day with
  | missing =>
    refine Or.inl ⟨[], [], ?_, forall_mem_nil _, forall_mem_nil _, by simp [gatherDay, hfetch]⟩
    rintro frame sliced ⟨d, hd, -⟩
    rw [hfetch] at hd; cases hd
  | failed detail =>
    refine Or.inl ⟨[], [{ day := day, status := .failed, info := detail, rows := 0 }], ?_, forall_mem_nil _, ?_,
      by simp [gatherDay, hfetch]⟩
    · rintro frame sliced ⟨d, hd, -⟩
      rw [hfetch] at hd; cases hd
    · intro o ho
      rw [mem_singleton.mp ho]; exact ⟨rfl, rfl⟩
  | defective detail sha =>
    have hdefective : CoverageStatus.defective ≠ .ok := by decide
    refine Or.inl ⟨_, [], ?_, recordOps_note hdefective (some sha) 0 (some detail), forall_mem_nil _,
      by simp [gatherDay, hfetch]⟩
    rintro frame sliced ⟨d, hd, -⟩
    rw [hfetch] at hd; cases hd
  | derived d =>
    cases hwindow : w.plan.sliceHours with
    | none =>
      refine Or.inr ⟨d.frame, none, d.sha, ⟨d, hfetch, rfl, by rw [hwindow]; rfl, nofun⟩, ?_⟩
      simp [gatherDay, hfetch, hwindow]
    | some window =>
      cases hstaging : w.env.stagingFails day with
      | some detail =>
        refine Or.inl ⟨[.derive w.plan.dataset day d.frame (some (d.slice window))],
          [{ day := day, status := .failed, info := detail, rows := 0 }], ?_, ?_, ?_,
          by simp [gatherDay, hfetch, hwindow, hstaging]⟩
        · rintro frame sliced ⟨d', -, -, rfl, hstaged⟩
          rw [hwindow, hstaging] at hstaged; cases hstaged rfl
        · intro op hop
          rw [mem_singleton.mp hop]; exact ⟨rfl, mem_singleton_self _⟩
        · intro o ho
          rw [mem_singleton.mp ho]; exact ⟨rfl, rfl⟩
      | none =>
        refine Or.inr ⟨d.frame, some (d.slice window), d.sha,
          ⟨d, hfetch, rfl, by rw [hwindow]; rfl, fun _ => hstaging⟩, ?_⟩
        simp [gatherDay, hfetch, hwindow, hstaging]

variable {op : ArchiveOp ρ σ} {days : List ℤ}

variable {dataset : ArchiveDataset}

omit [Timed ρ] [Timed σ] in
theorem NoteOp.mono {days days' : List ℤ}
    (h : NoteOp dataset days op) (hsub : ∀ day ∈ days, day ∈ days') : NoteOp dataset days' op := by
  cases op with
  | derive => exact ⟨h.1, hsub _ h.2⟩
  | append => exact ⟨h.1, hsub _ h.2.1, h.2.2⟩
  | putDerived | putSlice => exact h

omit [Timed ρ] [Timed σ] in
theorem NoteOp.leaves (h : NoteOp dataset days op)
    (s : SymbolArchive ρ σ) : (s.apply op).derived = s.derived ∧ (s.apply op).slice = s.slice ∧
      ∀ day ∉ days, (s.apply op).latest dataset day = s.latest dataset day := by
  cases op with
  | derive dataset' day' =>
    obtain ⟨rfl, hday⟩ := h
    refine ⟨rfl, rfl, fun day hnot => setEntry_other _ _ ?_⟩
    rintro ⟨-, rfl⟩; exact hnot hday
  | append dataset' row =>
    obtain ⟨rfl, hday, -⟩ := h
    refine ⟨rfl, rfl, fun day hnot => setEntry_other _ _ ?_⟩
    rintro ⟨-, rfl⟩; exact hnot hday
  | putDerived | putSlice => exact h.elim

theorem NoteOp.sound (h : NoteOp dataset days op) (hs : Sound s) : Sound (s.apply op) := by
  cases op with
  | derive => exact hs.derive _ _ _
  | append => exact hs.append fun hok => absurd hok h.2.2
  | putDerived | putSlice => exact h.elim

omit [Timed ρ] [Timed σ] in
theorem notes_frame {ops : List (ArchiveOp ρ σ)} (h : ∀ op ∈ ops, NoteOp dataset days op) (s : SymbolArchive ρ σ) :
    (execute SymbolArchive.apply s ops).derived = s.derived ∧ (execute SymbolArchive.apply s ops).slice = s.slice ∧
      ∀ day ∉ days, (execute SymbolArchive.apply s ops).latest dataset day = s.latest dataset day := by
  induction ops generalizing s with
  | nil => exact ⟨rfl, rfl, fun _ _ => rfl⟩
  | cons op ops ih =>
    obtain ⟨hderived, hslice, hlatest⟩ := (h op mem_cons_self).leaves s
    obtain ⟨hderived', hslice', hlatest'⟩ := ih (fun op' hop' => h op' (mem_cons_of_mem op hop')) (s.apply op)
    exact ⟨hderived'.trans hderived, hslice'.trans hslice,
      fun day hday => (hlatest' day hday).trans (hlatest day hday)⟩

/-- What `gather_month` gathers from some days. -/
structure GatherSpec (w : MonthWork ρ σ) (days : List ℤ) (g : Gathered ρ σ) : Prop where
  derivedDays : (g.derived.map Prod.fst).Sublist days
  sliceDays : (g.slices.map Prod.fst).Sublist (g.derived.map Prod.fst)
  derived : ∀ t ∈ g.derived, ∃ sliced, Gives w t.1 t.2 sliced
  slices : ∀ t ∈ g.slices, ∃ frame, Gives w t.1 frame (some t.2)
  given : ∀ day ∈ days, ∀ frame sliced, Gives w day frame sliced →
    (day, frame) ∈ g.derived ∧ ∀ slice, sliced = some slice → (day, slice) ∈ g.slices
  outcomes : ∀ o ∈ g.outcomes, o.day ∈ days ∧
    (o.status = .ok → ∃ frame sliced, Gives w o.day frame sliced ∧ o.rows = frame.length)
  notes : ∀ op ∈ g.ops, NoteOp w.plan.dataset days op

theorem Gives.unique {frame' : List ρ} {sliced' : Option (List σ)} (h : Gives w day frame sliced)
    (h' : Gives w day frame' sliced') : frame' = frame ∧ sliced' = sliced := by
  obtain ⟨d, hd, rfl, rfl, -⟩ := h
  obtain ⟨d', hd', rfl, rfl, -⟩ := h'
  rw [hd] at hd'; cases hd'; exact ⟨rfl, rfl⟩

theorem gatherMonth_spec (w : MonthWork ρ σ) (days : List ℤ) : GatherSpec w days (gatherMonth w days) := by
  induction days with
  | nil =>
    exact { derivedDays := List.Sublist.slnil, sliceDays := List.Sublist.slnil, derived := forall_mem_nil _
            slices := forall_mem_nil _, given := nofun, outcomes := forall_mem_nil _, notes := forall_mem_nil _ }
  | cons day days ih =>
    have hfold : gatherMonth w (day :: days) = gatherDay w day (gatherMonth w days) := rfl
    rw [hfold]
    have hweak : ∀ op ∈ (gatherMonth w days).ops, NoteOp w.plan.dataset (day :: days) op :=
      fun op hop => (ih.notes op hop).mono fun _ => mem_cons_of_mem day
    rcases gatherDay_cases w day (gatherMonth w days) with
      ⟨ops, outcomes, hgives, hops, houtcomes, heq⟩ | ⟨frame, sliced, sha, hgives, heq⟩
    · rw [heq]
      refine { derivedDays := ih.derivedDays.cons day, sliceDays := ih.sliceDays, derived := ih.derived
               slices := ih.slices, given := ?_, outcomes := ?_, notes := ?_ }
      · intro day' hday' frame sliced hgives'
        rcases mem_cons.mp hday' with rfl | hday'
        · exact absurd hgives' (hgives frame sliced)
        · exact ih.given day' hday' frame sliced hgives'
      · intro o ho
        rcases mem_append.mp ho with ho | ho
        · obtain ⟨hfailed, rfl⟩ := houtcomes o ho
          exact ⟨mem_cons_self, fun hok => by rw [hfailed] at hok; cases hok⟩
        · exact ⟨mem_cons_of_mem day (ih.outcomes o ho).1, (ih.outcomes o ho).2⟩
      · intro op hop
        rcases mem_append.mp hop with hop | hop
        · exact (hops op hop).mono fun day' hday' => mem_singleton.mp hday' ▸ mem_cons_self
        · exact hweak op hop
    · rw [heq]
      refine { derivedDays := ih.derivedDays.cons_cons day, sliceDays := ?_, derived := ?_, slices := ?_
               given := ?_, outcomes := ?_, notes := ?_ }
      · cases sliced with
        | none => exact ih.sliceDays.cons day
        | some slice => exact ih.sliceDays.cons_cons day
      · exact forall_mem_cons.mpr ⟨⟨sliced, hgives⟩, ih.derived⟩
      · intro t ht
        rcases mem_append.mp ht with ht | ht
        · obtain ⟨slice, rfl, rfl⟩ := map_eq_some_iff.mp (mem_toList.mp ht); exact ⟨frame, hgives⟩
        · exact ih.slices t ht
      · intro day' hday' frame' sliced' hgives'
        rcases mem_cons.mp hday' with rfl | hday'
        · obtain ⟨rfl, rfl⟩ := hgives.unique hgives'
          refine ⟨mem_cons_self, ?_⟩
          rintro slice rfl; exact mem_append_left _ (mem_toList.mpr rfl)
        · obtain ⟨hmem, hslice⟩ := ih.given day' hday' frame' sliced' hgives'
          exact ⟨mem_cons_of_mem _ hmem, fun slice heq => mem_append_right _ (hslice slice heq)⟩
      · intro o ho
        rcases mem_cons.mp ho with rfl | ho
        · exact ⟨mem_cons_self, fun _ => ⟨frame, sliced, hgives, rfl⟩⟩
        · exact ⟨mem_cons_of_mem day (ih.outcomes o ho).1, (ih.outcomes o ho).2⟩
      · exact forall_mem_cons.mpr ⟨⟨rfl, mem_cons_self⟩, hweak⟩

theorem latest_gatherMonth (hnodup : days.Nodup) (s : SymbolArchive ρ σ) (hday : day ∈ days)
    (h : Gives w day frame sliced) :
    (execute SymbolArchive.apply s (gatherMonth w days).ops).latest w.plan.dataset day
      = some { frame := frame, sliced := sliced, recorded := false } := by
  induction days generalizing s with
  | nil => cases hday
  | cons day' days ih =>
    obtain ⟨hfresh, hnodup⟩ := nodup_cons.mp hnodup
    have hfold : gatherMonth w (day' :: days) = gatherDay w day' (gatherMonth w days) := rfl
    rw [hfold]
    rcases gatherDay_cases w day' (gatherMonth w days) with
      ⟨ops, outcomes, hgives, -, -, heq⟩ | ⟨frame', sliced', sha, hgives, heq⟩
    · rw [heq, Interleave.execute_append]
      rcases mem_cons.mp hday with rfl | hday
      · exact absurd h (hgives frame sliced)
      · exact ih hnodup _ hday
    · rw [heq, Interleave.execute_cons]
      rcases mem_cons.mp hday with rfl | hday
      · -- the later days are other days
        obtain ⟨rfl, rfl⟩ := h.unique hgives
        rw [(notes_frame (gatherMonth_spec w days).notes _).2.2 day hfresh]
        exact setEntry_self _ _ _ _
      · exact ih hnodup _ hday

end Gathering

/-! ## What `commit_month` leaves -/

section Committing

variable {w : MonthWork ρ σ} {s s' : SymbolArchive ρ σ} {isSealed : Sealed}

structure MonthWork.WellFormed (w : MonthWork ρ σ) : Prop where
  nodup : w.days.Nodup
  inMonth : ∀ day ∈ w.days, monthOf day = w.month

def MonthWork.batch (w : MonthWork ρ σ) : List ℤ := (gatherMonth w w.days).derived.map Prod.fst

theorem derivedBatch (hw : w.WellFormed) : DayBatch w.month (gatherMonth w w.days).derived where
  nodup := (gatherMonth_spec w w.days).derivedDays.nodup hw.nodup
  inside t ht := by
    obtain ⟨_, d, -, hframe, -⟩ := (gatherMonth_spec w w.days).derived t ht
    rw [hframe]; exact d.frame_inside
  sorted t ht := by
    obtain ⟨_, d, -, hframe, -⟩ := (gatherMonth_spec w w.days).derived t ht
    rw [hframe]; exact d.frame_sorted
  inMonth t ht := hw.inMonth _ ((gatherMonth_spec w w.days).derivedDays.subset (mem_map_of_mem ht))

theorem sliceBatch (hw : w.WellFormed) : DayBatch w.month (gatherMonth w w.days).slices where
  nodup := (gatherMonth_spec w w.days).sliceDays.nodup (derivedBatch hw).nodup
  inside t ht := by
    obtain ⟨_, d, -, -, hslice, -⟩ := (gatherMonth_spec w w.days).slices t ht
    obtain ⟨window, -, hwindow⟩ := map_eq_some_iff.mp hslice.symm
    rw [← hwindow]; exact d.slice_inside window
  sorted t ht := by
    obtain ⟨_, d, -, -, hslice, -⟩ := (gatherMonth_spec w w.days).slices t ht
    obtain ⟨window, -, hwindow⟩ := map_eq_some_iff.mp hslice.symm
    rw [← hwindow]; exact d.slice_sorted window
  inMonth t ht :=
    hw.inMonth _ ((gatherMonth_spec w w.days).derivedDays.subset
      ((gatherMonth_spec w w.days).sliceDays.subset (mem_map_of_mem ht)))

/-- What `writeDerived` writes: nothing, or one partition with the days of the batch replaced. -/
theorem writeDerived_spec (hw : w.WellFormed) (hs : Sound s) {written : List (ArchiveOp ρ σ)}
    (h : writeDerived w (gatherMonth w w.days) s = .ok written) :
    ∃ put : Option (List ρ), written = put.toList.map (fun rows => .putDerived w.plan.dataset w.month (some rows)) ∧
      MergedDays (gatherMonth w w.days).derived (s.derivedRows w.plan.dataset w.month)
        ((put <|> s.derived w.plan.dataset w.month).getD []) ∧
      PartitionRows w.month ((put <|> s.derived w.plan.dataset w.month).getD []) ∧
      ((∃ t ∈ (gatherMonth w w.days).derived, t.2 ≠ []) → put.isSome) ∧
      ((gatherMonth w w.days).derived ≠ [] → w.env.derivedFails = none) := by
  have hrows : PartitionRows w.month ((s.derived w.plan.dataset w.month).getD []) := hs.derived _ _
  rw [writeDerived] at h
  by_cases hempty : (gatherMonth w w.days).derived.isEmpty
  · rw [if_pos hempty] at h
    cases h
    have hnil : (gatherMonth w w.days).derived = [] := isEmpty_iff.mp hempty
    refine ⟨none, rfl, ⟨?_, fun _ _ => rfl⟩, hrows, ?_, fun hne => absurd hnil hne⟩
    · rw [hnil]; exact forall_mem_nil _
    · rw [hnil]
      rintro ⟨t, ht, -⟩; cases ht
  · rw [if_neg hempty] at h
    cases hfail : w.env.derivedFails with
    | some detail =>
      rw [hfail] at h; cases h
    | none =>
      rw [hfail] at h
      obtain ⟨put, hput, hmerged, hmonth, hsome⟩ := mergeDayBatch_spec (derivedBatch hw) hrows
      rw [hput] at h
      refine ⟨put, ?_, hmerged, hmonth, hsome, fun _ => rfl⟩
      cases put <;> cases h <;> rfl

/-- The days that are not touched keep their rows, and no partition is lost. -/
structure Keeps (touched : ArchiveDataset → ℤ → Prop) (s s' : SymbolArchive ρ σ) : Prop where
  derived : ∀ dataset day, ¬ touched dataset day →
    onDay day (s'.derivedRows dataset (monthOf day)) = onDay day (s.derivedRows dataset (monthOf day))
  slice : ∀ dataset day, ¬ touched dataset day →
    onDay day (s'.sliceRows dataset (monthOf day)) = onDay day (s.sliceRows dataset (monthOf day))
  derivedStays : ∀ dataset month, (s.derived dataset month).isSome → (s'.derived dataset month).isSome
  sliceStays : ∀ dataset month, (s.slice dataset month).isSome → (s'.slice dataset month).isSome

def MonthWork.Touches (w : MonthWork ρ σ) (dataset : ArchiveDataset) (day : ℤ) : Prop :=
  dataset = w.plan.dataset ∧ day ∈ w.batch

/-- A state of a commit: sound, the other days kept, nothing recorded. -/
structure Committed (w : MonthWork ρ σ) (s s' : SymbolArchive ρ σ) : Prop where
  sound : Sound s'
  keeps : Keeps w.Touches s s'
  latest : s'.latest = s.latest
  log : s'.log = s.log

theorem Keeps.refl (touched : ArchiveDataset → ℤ → Prop) (s : SymbolArchive ρ σ) : Keeps touched s s :=
  ⟨fun _ _ _ => rfl, fun _ _ _ => rfl, fun _ _ h => h, fun _ _ h => h⟩

variable {touched : ArchiveDataset → ℤ → Prop} {s₁ s₂ s₃ : SymbolArchive ρ σ}

theorem Keeps.trans (h : Keeps touched s₁ s₂) (h' : Keeps touched s₂ s₃) : Keeps touched s₁ s₃ where
  derived dataset day hout := (h'.derived dataset day hout).trans (h.derived dataset day hout)
  slice dataset day hout := (h'.slice dataset day hout).trans (h.slice dataset day hout)
  derivedStays dataset month hsome := h'.derivedStays dataset month (h.derivedStays dataset month hsome)
  sliceStays dataset month hsome := h'.sliceStays dataset month (h.sliceStays dataset month hsome)

theorem Keeps.mono {touched touched' : ArchiveDataset → ℤ → Prop} (h : Keeps touched s s')
    (hsub : ∀ dataset day, touched dataset day → touched' dataset day) : Keeps touched' s s' where
  derived dataset day hout := h.derived dataset day fun hin => hout (hsub dataset day hin)
  slice dataset day hout := h.slice dataset day fun hin => hout (hsub dataset day hin)
  derivedStays := h.derivedStays
  sliceStays := h.sliceStays

theorem Keeps.of_partitions
    (h : Keeps touched s₁ s₂) (hderived : s₃.derived = s₂.derived) (hslice : s₃.slice = s₂.slice) :
    Keeps touched s₁ s₃ where
  derived dataset day hout := by
    rw [← h.derived dataset day hout, SymbolArchive.derivedRows, SymbolArchive.derivedRows, hderived]
  slice dataset day hout := by
    rw [← h.slice dataset day hout, SymbolArchive.sliceRows, SymbolArchive.sliceRows, hslice]
  derivedStays dataset month hsome := hderived ▸ h.derivedStays dataset month hsome
  sliceStays dataset month hsome := hslice ▸ h.sliceStays dataset month hsome

/-- No row was appended for the days of the batch since they were derived. -/
def Fresh (w : MonthWork ρ σ) (s : SymbolArchive ρ σ) : Prop :=
  ∀ day ∈ w.batch, ¬ RowIsCurrent s w.plan.dataset day

theorem Committed.fresh (h : Committed w s s') (hfresh : Fresh w s) {day : ℤ}
    (hcurrent : RowIsCurrent s' w.plan.dataset day) : day ∉ w.batch := by
  intro hin
  obtain ⟨d, hd, hrecorded⟩ := hcurrent
  exact hfresh day hin ⟨d, h.latest ▸ hd, hrecorded⟩

theorem Committed.putDerived (h : Committed w s s') (hfresh : Fresh w s) {rows : Option (List ρ)}
    (hrows : PartitionRows w.month (rows.getD [])) (hkept : ∀ day, monthOf day = w.month → day ∉ w.batch →
      onDay day (rows.getD []) = onDay day (s.derivedRows w.plan.dataset w.month))
    (hstays : (s.derived w.plan.dataset w.month).isSome → rows.isSome) :
    Committed w s (s'.apply (.putDerived w.plan.dataset w.month rows)) := by
  have hkeep : ∀ day, monthOf day = w.month → day ∉ w.batch →
      onDay day (rows.getD []) = onDay day (s'.derivedRows w.plan.dataset (monthOf day)) :=
        fun day hmonth hout => by
    rw [h.keeps.derived _ day fun hin => hout hin.2, hkept day hmonth hout, hmonth]
  refine ⟨h.sound.putDerived hrows fun day hmonth hcurrent => hkeep day hmonth (h.fresh hfresh hcurrent),
    ⟨fun dataset' day hout => (onDay_put ?_).trans (h.keeps.derived dataset' day hout), h.keeps.slice,
      fun dataset' month hsome => ?_, h.keeps.sliceStays⟩, h.latest, h.log⟩
  · rintro rfl hmonth; exact hkeep day hmonth fun hin => hout ⟨rfl, hin⟩
  · refine isSome_put ?_ (h.keeps.derivedStays dataset' month hsome)
    rintro rfl rfl; exact hstays hsome

theorem Committed.putSlice (h : Committed w s s') (hfresh : Fresh w s) {rows : List σ}
    (hrows : PartitionRows w.month rows) (hkept : ∀ day, monthOf day = w.month → day ∉ w.batch →
      onDay day rows = onDay day (s.sliceRows w.plan.dataset w.month)) :
    Committed w s (s'.apply (.putSlice w.plan.dataset w.month rows)) := by
  have hkeep : ∀ day, monthOf day = w.month → day ∉ w.batch →
      onDay day rows = onDay day (s'.sliceRows w.plan.dataset (monthOf day)) := fun day hmonth hout => by
    rw [h.keeps.slice _ day fun hin => hout hin.2, hkept day hmonth hout, hmonth]
  refine ⟨h.sound.putSlice hrows fun day hmonth hcurrent => hkeep day hmonth (h.fresh hfresh hcurrent),
    ⟨h.keeps.derived, fun dataset' day hout => (onDay_put ?_).trans (h.keeps.slice dataset' day hout),
      h.keeps.derivedStays, fun dataset' month hsome => ?_⟩, h.latest, h.log⟩
  · rintro rfl hmonth; exact hkeep day hmonth fun hin => hout ⟨rfl, hin⟩
  · exact isSome_put (fun _ _ => rfl) (h.keeps.sliceStays dataset' month hsome)

structure BatchWritten (w : MonthWork ρ σ) (s : SymbolArchive ρ σ) : Prop where
  written : ∀ day ∈ w.days, ∀ frame sliced, Gives w day frame sliced →
    onDay day (s.derivedRows w.plan.dataset w.month) = frame ∧
      ∀ slice, sliced = some slice → onDay day (s.sliceRows w.plan.dataset w.month) = slice
  derivedThere : ∀ day ∈ w.days, ∀ frame sliced, Gives w day frame sliced → frame ≠ [] →
    (s.derived w.plan.dataset w.month).isSome
  sliceThere : ∀ day ∈ w.days, ∀ frame slice, Gives w day frame (some slice) →
    (s.slice w.plan.dataset w.month).isSome
  writable : ∀ day ∈ w.days, ∀ frame sliced, Gives w day frame sliced → w.env.derivedFails = none

def putOps (w : MonthWork ρ σ) (put : Option (List ρ)) : List (ArchiveOp ρ σ) :=
  put.toList.map fun rows => .putDerived w.plan.dataset w.month (some rows)

def behindPut (w : MonthWork ρ σ) (put : Option (List ρ)) (s : SymbolArchive ρ σ) : SymbolArchive ρ σ :=
  execute SymbolArchive.apply s (putOps w put)

variable (put : Option (List ρ))

theorem behindPut_rows (s : SymbolArchive ρ σ) :
    (behindPut w put s).derivedRows w.plan.dataset w.month = (put <|> s.derived w.plan.dataset w.month).getD [] ∧
      ((behindPut w put s).derived w.plan.dataset w.month) = (put <|> s.derived w.plan.dataset w.month) ∧
      (behindPut w put s).slice = s.slice := by
  cases put with
  | none => exact ⟨rfl, rfl, rfl⟩
  | some rows =>
    have hentry : (behindPut w (some rows) s).derived w.plan.dataset w.month = some rows := setEntry_self _ _ _ _
    exact ⟨congrArg (fun rows => rows.getD []) hentry, hentry, rfl⟩

theorem behindPut_undo (s : SymbolArchive ρ σ) :
    ((behindPut w put s).apply (.putDerived w.plan.dataset w.month (s.derived w.plan.dataset w.month))).derived
      = s.derived := by
  cases put with
  | none => exact setEntry_same s.derived w.month
  | some rows => exact setEntry_undo s.derived w.month (some rows)

theorem along_putOps (hs : Sound s) (hfresh : Fresh w s) {put : Option (List ρ)}
    (hmerged : MergedDays (gatherMonth w w.days).derived (s.derivedRows w.plan.dataset w.month)
      ((put <|> s.derived w.plan.dataset w.month).getD []))
    (hrows : PartitionRows w.month ((put <|> s.derived w.plan.dataset w.month).getD [])) :
    Along SymbolArchive.apply (Committed w s) s (putOps w put) := by
  have hstart : Committed w s s := ⟨hs, Keeps.refl _ _, rfl, rfl⟩
  cases put with
  | none => exact Along.nil hstart
  | some rows =>
    exact Along.cons hstart (Along.nil (hstart.putDerived hfresh hrows
      (fun day _ hout => hmerged.kept day hout) fun _ => rfl))

/-- A commit passes through sound states that keep the other days; it leaves the partitions as they
were, or with the batch. -/
structure CommitResult (w : MonthWork ρ σ) (s : SymbolArchive ρ σ) (r : List (ArchiveOp ρ σ) × Option String) :
    Prop where
  along : Along SymbolArchive.apply (Committed w s) s r.1
  failed : r.2.isSome → (execute SymbolArchive.apply s r.1).derived = s.derived ∧
    (execute SymbolArchive.apply s r.1).slice = s.slice
  done : r.2 = none → BatchWritten w (execute SymbolArchive.apply s r.1)

theorem commitResult_nothing (hs : Sound s) (detail : String) : CommitResult w s ([], some detail) where
  along := Along.nil ⟨hs, Keeps.refl _ _, rfl, rfl⟩
  failed _ := ⟨rfl, rfl⟩
  done h := by cases h

/-- **The commit of a month.** -/
theorem commitMonth_spec (hw : w.WellFormed) (hs : Sound s) (hfresh : Fresh w s) (isSealed : Sealed) :
    CommitResult w s (commitMonth isSealed w (gatherMonth w w.days) s) := by
  have hg : GatherSpec w w.days (gatherMonth w w.days) := gatherMonth_spec w w.days
  rw [commitMonth]
  by_cases hsealed : sealedMonth isSealed w (gatherMonth w w.days) s
  · rw [if_pos hsealed]; exact commitResult_nothing hs _
  rw [if_neg hsealed]
  cases hwrite : writeDerived w (gatherMonth w w.days) s with
  | error detail => exact commitResult_nothing hs detail
  | ok written =>
    obtain ⟨put, hwritten, hmerged, hrows, hput, hfine⟩ := writeDerived_spec hw hs hwrite
    obtain rfl : written = putOps w put := hwritten
    obtain ⟨hputRows, hputEntry, hputSlice⟩ := behindPut_rows (w := w) put s
    have halong : Along SymbolArchive.apply (Committed w s) s (putOps w put) := along_putOps hs hfresh hmerged hrows
    have hbehind : Committed w s (behindPut w put s) := halong.finish
    have hframes : ∀ day ∈ w.days, ∀ frame sliced, Gives w day frame sliced →
        onDay day ((put <|> s.derived w.plan.dataset w.month).getD []) = frame :=
          fun day hday frame sliced hgives =>
      hmerged.batched _ (hg.given day hday frame sliced hgives).1
    have hthere : ∀ day ∈ w.days, ∀ frame sliced, Gives w day frame sliced → frame ≠ [] →
        (put <|> s.derived w.plan.dataset w.month).isSome := by
      intro day hday frame sliced hgives hne
      have hsome : put.isSome := hput ⟨_, (hg.given day hday frame sliced hgives).1, hne⟩
      obtain ⟨rows, rfl⟩ := isSome_iff_exists.mp hsome; rfl
    have hwritable : ∀ day ∈ w.days, ∀ frame sliced, Gives w day frame sliced → w.env.derivedFails = none :=
      fun day hday frame sliced hgives => hfine (ne_nil_of_mem (hg.given day hday frame sliced hgives).1)
    show CommitResult w s (if (gatherMonth w w.days).slices.isEmpty then (putOps w put, none) else _)
    by_cases hslices : (gatherMonth w w.days).slices.isEmpty
    · -- without slices the derived partition is the whole commit
      rw [if_pos hslices]
      have hno : ∀ day ∈ w.days, ∀ frame slice, ¬ Gives w day frame (some slice) := by
        intro day hday frame slice hgives
        have hmem := (hg.given day hday frame _ hgives).2 slice rfl
        rw [isEmpty_iff.mp hslices] at hmem; cases hmem
      refine ⟨halong, (fun h => by cases h), fun _ => ⟨fun day hday frame sliced hgives => ?_, ?_, ?_, hwritable⟩⟩
      · refine ⟨(congrArg (onDay day) hputRows).trans (hframes day hday frame sliced hgives), ?_⟩
        rintro slice rfl; exact absurd hgives (hno day hday frame slice)
      · intro day hday frame sliced hgives hne
        exact (congrArg isSome hputEntry).trans (hthere day hday frame sliced hgives hne)
      · intro day hday frame slice hgives; exact absurd hgives (hno day hday frame slice)
    · rw [if_neg hslices]
      cases hfail : w.env.slicesFail with
      | some detail =>
        show CommitResult w s (if (gatherMonth w w.days).derived.isEmpty then (putOps w put, some detail) else _)
        -- a failure of the slices takes the derived partition back
        have hback : PartitionRows w.month ((s.derived w.plan.dataset w.month).getD []) := hs.derived _ _
        by_cases hempty : (gatherMonth w w.days).derived.isEmpty
        · -- a slice comes with a frame
          have hnil : (gatherMonth w w.days).slices.map Prod.fst = [] := by
            have hsub := hg.sliceDays
            rw [isEmpty_iff.mp hempty] at hsub; exact sublist_nil.mp hsub
          exact absurd (isEmpty_iff.mpr (map_eq_nil_iff.mp hnil)) hslices
        · rw [if_neg hempty]
          refine ⟨halong.append (Along.cons hbehind (Along.nil (hbehind.putDerived hfresh hback
            (fun _ _ _ => rfl) fun hsome => hsome))), fun _ => ?_, fun h => by cases h⟩
          rw [Interleave.execute_append]; exact ⟨behindPut_undo put s, hputSlice⟩
      | none =>
        obtain ⟨hmergedSlices, hrowsSlices⟩ := mergeSliceFiles_spec w.env.chunking (sliceBatch hw)
          (hs.slice w.plan.dataset w.month)
        have hlast : Committed w s ((behindPut w put s).apply (.putSlice w.plan.dataset w.month
            (mergeSliceFiles w.env.chunking (s.slice w.plan.dataset w.month) (gatherMonth w w.days).slices))) :=
          hbehind.putSlice hfresh hrowsSlices fun day _ hout =>
            hmergedSlices.kept day fun hin => hout (hg.sliceDays.subset hin)
        refine ⟨halong.append (Along.cons hbehind (Along.nil hlast)), (fun h => by cases h), fun _ => ?_⟩
        rw [Interleave.execute_append]
        refine ⟨fun day hday frame sliced hgives => ⟨?_, ?_⟩, ?_, ?_, hwritable⟩
        · exact (congrArg (onDay day) hputRows).trans (hframes day hday frame sliced hgives)
        · rintro slice rfl
          refine (congrArg (fun rows : Option (List σ) =>
            onDay day (rows.getD [])) (setEntry_self _ _ _ _)).trans ?_
          exact hmergedSlices.batched _ ((hg.given day hday frame _ hgives).2 slice rfl)
        · intro day hday frame sliced hgives hne
          exact (congrArg isSome hputEntry).trans (hthere day hday frame sliced hgives hne)
        · intro day hday frame slice hgives; exact congrArg isSome (setEntry_self _ _ _ _)

end Committing

/-! ## A month, a symbol -/

section Months

variable {w : MonthWork ρ σ} {s s' : SymbolArchive ρ σ} {isSealed : Sealed}

theorem Written.append {dataset dataset' : ArchiveDataset} {day : ℤ} (h : Written s dataset' day)
    (row : CoverageRow) :
    Written (s.apply (.append dataset row)) dataset' day := by
  obtain ⟨d, hd, hholds⟩ := h
  rw [Written, latest_append]
  split
  next hsame => exact ⟨{ d with recorded := true }, by rw [← hsame.1, hd]; rfl, hholds⟩
  next => exact ⟨d, hd, hholds⟩

variable {detail : Option String}

theorem mem_outcomeOps {o : DayOutcome} {op : ArchiveOp ρ σ}
    (h : op ∈ outcomeOps w detail o) : ∃ row : CoverageRow, op = .append w.plan.dataset row ∧ row.day = o.day ∧
      w.env.appended o.day = true ∧ (row.status = .ok → o.status = .ok ∧ detail = none ∧ row.rows = o.rows) := by
  have hrecord : ∀ {status : CoverageStatus} {sha : Option String} {rows : ℕ} {text : Option String},
      op ∈ recordOps w o.day status sha rows text →
        ∃ row : CoverageRow, op = .append w.plan.dataset row ∧ row.day = o.day ∧ w.env.appended o.day = true ∧
          row.status = status ∧ row.rows = rows := by
    intro status sha rows text hop
    rw [recordOps] at hop
    split at hop
    next happended => exact ⟨_, mem_singleton.mp hop, rfl, happended, rfl, rfl⟩
    next => cases hop
  cases hstatus : o.status with
  | failed =>
    simp only [outcomeOps, hstatus] at h
    obtain ⟨row, hop, hday, happended, hrow, -⟩ := hrecord h
    exact ⟨row, hop, hday, happended, fun hok => by rw [hrow] at hok; cases hok⟩
  | ok =>
    simp only [outcomeOps, hstatus] at h
    cases detail with
    | some text =>
      obtain ⟨row, hop, hday, happended, hrow, -⟩ := hrecord h
      exact ⟨row, hop, hday, happended, fun hok => by rw [hrow] at hok; cases hok⟩
    | none =>
      obtain ⟨row, hop, hday, happended, -, hrows⟩ := hrecord h
      exact ⟨row, hop, hday, happended, fun _ => ⟨rfl, rfl, hrows⟩⟩

/-- A property that the notes and the commit of a month keep, and an `ok` row of a batch that was
written. -/
structure KeptByMonth (w : MonthWork ρ σ) (I : SymbolArchive ρ σ → Prop) : Prop where
  note : ∀ s op, NoteOp w.plan.dataset w.days op → I s → I (s.apply op)
  commit : ∀ s s', Committed w s s' → I s → I s'
  row : ∀ (s : SymbolArchive ρ σ) (row : CoverageRow), (row.status = .ok → BatchWritten w s ∧
    ∃ frame sliced, Gives w row.day frame sliced ∧ row.day ∈ w.days ∧ row.rows = frame.length ∧
      w.env.appended row.day = true) → I s → I (s.apply (.append w.plan.dataset row))

theorem keptByMonth_true (w : MonthWork ρ σ) : KeptByMonth w fun _ => True :=
  ⟨fun _ _ _ _ => trivial, fun _ _ _ _ => trivial, fun _ _ _ _ => trivial⟩

variable {I : SymbolArchive ρ σ → Prop}

theorem along_outcomes (hI : KeptByMonth w I) (hs : Sound s) (h : I s)
    (hok : detail = none → BatchWritten w s ∧ ∀ day ∈ w.days, ∀ frame sliced, Gives w day frame sliced →
      Written s w.plan.dataset day) :
    Along SymbolArchive.apply (fun s' => (Sound s' ∧ I s') ∧ s'.derived = s.derived ∧ s'.slice = s.slice) s
      ((gatherMonth w w.days).outcomes.flatMap (outcomeOps w detail)) := by
  have hsteps : Along SymbolArchive.apply (fun s' =>
    ((Sound s' ∧ I s') ∧ s'.derived = s.derived ∧ s'.slice = s.slice) ∧
      (detail = none → BatchWritten w s' ∧ ∀ day ∈ w.days, ∀ frame sliced, Gives w day frame sliced →
        Written s' w.plan.dataset day)) s ((gatherMonth w w.days).outcomes.flatMap (outcomeOps w detail)) := by
    refine Along.of_step ⟨⟨⟨hs, h⟩, rfl, rfl⟩, hok⟩ ?_
    rintro op hop s' ⟨⟨⟨hsound, hprop⟩, hderived, hslice⟩, hwritten⟩
    obtain ⟨o, ho, hop⟩ := mem_flatMap.mp hop
    obtain ⟨row, rfl, hday, happended, hrow⟩ := mem_outcomeOps hop
    obtain ⟨hmem, hgives⟩ := (gatherMonth_spec w w.days).outcomes o ho
    refine ⟨⟨⟨hsound.append fun hstatus => ?_, hI.row s' row (fun hstatus => ?_) hprop⟩, hderived, hslice⟩,
      fun hnone => ?_⟩
    · obtain ⟨hstatus', hnone, -⟩ := hrow hstatus
      obtain ⟨frame, sliced, hgives, -⟩ := hgives hstatus'
      exact hday ▸ (hwritten hnone).2 o.day hmem frame sliced hgives
    · obtain ⟨hstatus', hnone, hrows⟩ := hrow hstatus
      obtain ⟨frame, sliced, hgives, hlength⟩ := hgives hstatus'
      exact ⟨(hwritten hnone).1, frame, sliced, hday.symm ▸ hgives, hday.symm ▸ hmem, hrows.trans hlength,
        hday.symm ▸ happended⟩
    · obtain ⟨hbatch, hdays⟩ := hwritten hnone
      exact ⟨⟨hbatch.written, hbatch.derivedThere, hbatch.sliceThere, hbatch.writable⟩,
        fun day hday frame sliced hgives => (hdays day hday frame sliced hgives).append row⟩
  exact hsteps.mono fun s' h => h.1

theorem commitMonth_congr {g : Gathered ρ σ} (hderived : s'.derived = s.derived) (hslice : s'.slice = s.slice) :
    commitMonth isSealed w g s' = commitMonth isSealed w g s := by
  have hseal : sealedMonth isSealed w g s' = sealedMonth isSealed w g s := by
    rw [sealedMonth, sealedMonth, hderived, hslice]
  have hwrite : writeDerived w g s' = writeDerived w g s := by rw [writeDerived, writeDerived, hderived]
  rw [commitMonth, commitMonth, hseal, hwrite, hderived, hslice]

/-- The archive behind `gather_month`. -/
def gathered (w : MonthWork ρ σ) (s : SymbolArchive ρ σ) : SymbolArchive ρ σ :=
  execute SymbolArchive.apply s (gatherMonth w w.days).ops

section

variable (hw : w.WellFormed) (hI : KeptByMonth w I) (hs : Sound s) (h : I s)

include hw hI hs h

theorem gathered_spec :
    Along SymbolArchive.apply (fun s' => (Sound s' ∧ I s') ∧ Keeps w.Touches s s') s (gatherMonth w w.days).ops ∧
      (gathered w s).derived = s.derived ∧ (gathered w s).slice = s.slice ∧ Fresh w (gathered w s) := by
  have hnotes := (gatherMonth_spec w w.days).notes
  obtain ⟨hderived, hslice, -⟩ := notes_frame hnotes s
  refine ⟨Along.of_step ⟨⟨hs, h⟩, Keeps.refl _ _⟩ ?_, hderived, hslice, ?_⟩
  · rintro op hop s' ⟨⟨hsound, hprop⟩, hkeeps⟩
    obtain ⟨hop₁, hop₂, -⟩ := (hnotes op hop).leaves s'
    exact ⟨⟨(hnotes op hop).sound hsound, hI.note s' op (hnotes op hop) hprop⟩, hkeeps.of_partitions hop₁ hop₂⟩
  · rintro day hday ⟨d, hd, hrecorded⟩
    obtain ⟨t, ht, rfl⟩ := mem_map.mp hday
    obtain ⟨sliced, hgives⟩ := (gatherMonth_spec w w.days).derived t ht
    have hmem : t.1 ∈ w.days := (gatherMonth_spec w w.days).derivedDays.subset (mem_map_of_mem ht)
    have hlatest := latest_gatherMonth hw.nodup s hmem hgives
    rw [gathered, hlatest] at hd; cases hd; cases hrecorded

theorem month_spec (isSealed : Sealed) :
    Along SymbolArchive.apply (fun s' => (Sound s' ∧ I s') ∧ Keeps w.Touches s s') s (monthOps isSealed w s) ∧
      ((commitMonth isSealed w (gatherMonth w w.days) s).2.isSome →
        (execute SymbolArchive.apply s (monthOps isSealed w s)).derived = s.derived ∧
          (execute SymbolArchive.apply s (monthOps isSealed w s)).slice = s.slice) := by
  obtain ⟨hgather, hderived, hslice, hfresh⟩ := gathered_spec hw hI hs h
  obtain ⟨⟨hsound, hprop⟩, hkeeps⟩ : (Sound (gathered w s) ∧ I (gathered w s)) ∧ Keeps w.Touches s (gathered w s) :=
    hgather.finish
  have hcommit := commitMonth_spec hw hsound hfresh isSealed
  rw [commitMonth_congr hderived hslice] at hcommit
  have halong : Along SymbolArchive.apply (fun s' => (Sound s' ∧ I s') ∧ Keeps w.Touches s s') (gathered w s)
      (commitMonth isSealed w (gatherMonth w w.days) s).1 :=
    hcommit.along.mono fun s' hs' => ⟨⟨hs'.sound, hI.commit _ s' hs' hprop⟩, hkeeps.trans hs'.keeps⟩
  have hfinish := hcommit.along.finish
  have hdone : (commitMonth isSealed w (gatherMonth w w.days) s).2 = none →
      BatchWritten w (execute SymbolArchive.apply (gathered w s)
        (commitMonth isSealed w (gatherMonth w w.days) s).1) ∧
        ∀ day ∈ w.days, ∀ frame sliced, Gives w day frame sliced →
          Written (execute SymbolArchive.apply (gathered w s) (commitMonth isSealed w (gatherMonth w w.days) s).1)
            w.plan.dataset day := by
    -- what is called `ok` was derived in this month and is in its partitions
    refine fun hnone => ⟨hcommit.done hnone, fun day hday frame sliced hgives => ?_⟩
    obtain ⟨hframe, hsliced⟩ := (hcommit.done hnone).written day hday frame sliced hgives
    rw [← hw.inMonth day hday] at hframe hsliced
    exact ⟨_, (congrFun (congrFun hfinish.latest _) _).trans
      (latest_gatherMonth hw.nodup s hday hgives), hframe, hsliced⟩
  have hrows := along_outcomes hI hfinish.sound (hI.commit _ _ hfinish hprop) hdone
  refine ⟨?_, fun hfailed => ?_⟩
  · refine (hgather.append halong).append ?_
    rw [Interleave.execute_append]
    exact hrows.mono fun s' hs' => ⟨hs'.1, (hkeeps.trans hfinish.keeps).of_partitions hs'.2.1 hs'.2.2⟩
  · have hlast : execute SymbolArchive.apply s (monthOps isSealed w s) = execute SymbolArchive.apply
        (execute SymbolArchive.apply (gathered w s) (commitMonth isSealed w (gatherMonth w w.days) s).1)
        ((gatherMonth w w.days).outcomes.flatMap
          (outcomeOps w (commitMonth isSealed w (gatherMonth w w.days) s).2)) := by
      rw [monthOps, Interleave.execute_append, Interleave.execute_append]; rfl
    obtain ⟨hderived', hslice'⟩ := hcommit.failed hfailed
    rw [hlast, hrows.finish.2.1, hrows.finish.2.2]
    exact ⟨hderived'.trans hderived, hslice'.trans hslice⟩

end

def Touched (works : List (MonthWork ρ σ)) (dataset : ArchiveDataset) (day : ℤ) : Prop :=
  ∃ w ∈ works, w.Touches dataset day

/-- **A symbol**: wherever its worker stops, the archive is sound and the days outside the batches
keep their rows. -/
theorem along_symbolOps {works : List (MonthWork ρ σ)} (hworks : ∀ w ∈ works, w.WellFormed)
    (hI : ∀ w ∈ works, KeptByMonth w I) (hs : Sound s) (h : I s) (isSealed : Sealed) :
    Along SymbolArchive.apply (fun s' => (Sound s' ∧ I s') ∧ Keeps (Touched works) s s') s
      (symbolOps isSealed works s) := by
  induction works generalizing s with
  | nil => exact Along.nil ⟨⟨hs, h⟩, Keeps.refl _ _⟩
  | cons w works ih =>
    obtain ⟨hmonth, -⟩ := month_spec (hworks w mem_cons_self) (hI w mem_cons_self) hs h isSealed
    obtain ⟨⟨hsound, hprop⟩, hkeeps⟩ := hmonth.finish
    have hfirst : ∀ dataset day, w.Touches dataset day → Touched (w :: works) dataset day :=
      fun _ _ htouch => ⟨w, mem_cons_self, htouch⟩
    have hrest : ∀ dataset day, Touched works dataset day → Touched (w :: works) dataset day := by
      rintro dataset day ⟨w', hw', htouch⟩; exact ⟨w', mem_cons_of_mem w hw', htouch⟩
    refine (hmonth.mono fun s' hs' => ⟨hs'.1, hs'.2.mono hfirst⟩).append ?_
    exact (ih (fun w' hw' => hworks w' (mem_cons_of_mem w hw'))
      (fun w' hw' => hI w' (mem_cons_of_mem w hw')) hsound hprop).mono fun s' hs' =>
        ⟨hs'.1, (hkeeps.mono hfirst).trans (hs'.2.mono hrest)⟩

theorem execute_symbolOps_concat (works : List (MonthWork ρ σ)) (w : MonthWork ρ σ) (s : SymbolArchive ρ σ)
    (isSealed : Sealed) : execute SymbolArchive.apply s (symbolOps isSealed (works ++ [w]) s)
      = execute SymbolArchive.apply (execute SymbolArchive.apply s (symbolOps isSealed works s))
          (monthOps isSealed w (execute SymbolArchive.apply s (symbolOps isSealed works s))) := by
  induction works generalizing s with
  | nil =>
    rw [nil_append, symbolOps, symbolOps, symbolOps, append_nil]; rfl
  | cons w' works ih =>
    rw [cons_append, symbolOps, symbolOps, Interleave.execute_append, Interleave.execute_append, ih]

theorem wellFormed_groupWorks {plan : CollectionPlan} {env : Month → Option (MonthEnv ρ σ)}
    (h : w ∈ groupWorks plan env) : w.WellFormed := by
  obtain ⟨g, hg, hw⟩ := mem_filterMap.mp h
  obtain ⟨month, -, rfl⟩ := mem_map.mp hg
  obtain ⟨e, -, rfl⟩ := map_eq_some_iff.mp hw
  have hnodup : (plan.days.dedup.insertionSort (· ≤ ·)).Nodup :=
    (perm_insertionSort _ _).nodup_iff.mpr (nodup_dedup _)
  exact ⟨hnodup.filter _, fun day hday => of_decide_eq_true (mem_filter.mp hday).2⟩

theorem wellFormed_symbolWorks (plans : List (CollectionPlan × (Month → Option (MonthEnv ρ σ)))) (symbol : String) :
    ∀ w ∈ symbolWorks plans symbol, w.WellFormed := by
  intro w hw
  obtain ⟨p, -, hp⟩ := mem_flatMap.mp hw; exact wellFormed_groupWorks hp

end Months

/-! ## All runs -/

section Runs

/-- What was derived for a day with an `ok` row is in the partitions, if the row was appended since.
-/
def CoverageHeld (s : SymbolArchive ρ σ) : Prop :=
  ∀ dataset day row, s.row dataset day = some row → row.status = .ok →
    ∃ d, s.latest dataset day = some d ∧ (d.recorded = true → Holds s dataset day d)

def monthStart (s : SymbolArchive ρ σ) (before : List (MonthWork ρ σ)) : SymbolArchive ρ σ :=
  execute SymbolArchive.apply s (symbolOps (sealedMonths s) before s)

theorem along_runScript (plans : List (CollectionPlan × (Month → Option (MonthEnv ρ σ)))) (symbol : String)
    {s : SymbolArchive ρ σ} (hs : Sound s) :
    Along SymbolArchive.apply (fun s' => Sound s' ∧ Keeps (Touched (symbolWorks plans symbol)) s s') s
      (runScript plans symbol s) :=
  (along_symbolOps (wellFormed_symbolWorks plans symbol) (fun w _ => keptByMonth_true w) hs trivial _).mono
    fun _ h => ⟨h.1.1, h.2⟩

variable {archive : String → SymbolArchive ρ σ}

theorem sound_of_collected (h : Collected archive) : ∀ symbol, Sound (archive symbol) := by
  induction h with
  | empty => exact fun _ => sound_empty
  | run h plans trace ht ih =>
    exact fun symbol => (ht.holds (fun i => along_runScript plans i (ih i)) symbol).1

/-- The coverage of an archive says nothing that its partitions do not hold, wherever a run stops.
-/
theorem coverage_held (h : Collected archive) :
    (∀ symbol, CoverageHeld (archive symbol)) ∧
      (∀ symbol dataset month, SortedRows ((archive symbol).derivedRows dataset month) ∧
        SortedRows ((archive symbol).sliceRows dataset month)) ∧
      (∀ (plans : List (CollectionPlan × (Month → Option (MonthEnv ρ σ)))) (trace : List (String × ArchiveOp ρ σ)),
        Interleaving (fun symbol => runScript plans symbol (archive symbol)) trace →
          ∀ symbol, Keeps (Touched (symbolWorks plans symbol)) (archive symbol)
            (interleaved SymbolArchive.apply archive trace symbol)) ∧
      ∀ (plans : List (CollectionPlan × (Month → Option (MonthEnv ρ σ)))) (symbol : String)
        (before : List (MonthWork ρ σ)) (w : MonthWork ρ σ) (after : List (MonthWork ρ σ)),
        symbolWorks plans symbol = before ++ w :: after →
          (commitMonth (sealedMonths (archive symbol)) w (gatherMonth w w.days)
            (monthStart (archive symbol) before)).2.isSome →
          (monthStart (archive symbol) (before ++ [w])).derived = (monthStart (archive symbol) before).derived ∧
            (monthStart (archive symbol) (before ++ [w])).slice = (monthStart (archive symbol) before).slice := by
  have hsound : ∀ symbol, Sound (archive symbol) := sound_of_collected h
  refine ⟨fun symbol dataset day row hrow hok => ?_, fun symbol dataset month =>
    ⟨((hsound symbol).derived dataset month).sorted, ((hsound symbol).slice dataset month).sorted⟩,
    fun plans trace ht symbol => ?_, fun plans symbol before w after hworks hfailed => ?_⟩
  · obtain ⟨d, hd⟩ := isSome_iff_exists.mp ((hsound symbol).known dataset day row hrow hok)
    exact ⟨d, hd, fun hrecorded => (hsound symbol).held dataset day row d hrow hok hd hrecorded⟩
  · exact (ht.holds (fun i => along_runScript plans i (hsound i)) symbol).2
  · have hwell : ∀ w' ∈ before ++ w :: after, w'.WellFormed := hworks ▸ wellFormed_symbolWorks plans symbol
    have hstart : Sound (monthStart (archive symbol) before) :=
      (along_symbolOps (fun w' hw' => hwell w' (mem_append_left _ hw')) (fun w' _ => keptByMonth_true w')
        (hsound symbol) trivial _).finish.1.1
    have hmonth := (month_spec (hwell w (by simp)) (keptByMonth_true w) hstart trivial
      (sealedMonths (archive symbol))).2 hfailed
    rw [monthStart, execute_symbolOps_concat]; exact hmonth

end Runs

/-! ## A day collected twice -/

section Recollected

structure SampleRow where
  ms : ℤ
  value : ℤ
  deriving DecidableEq, Repr

instance : Timed SampleRow := ⟨SampleRow.ms⟩

def sampleDay (day value : ℤ) : DerivedDay SampleRow SampleRow day where
  frame := [{ ms := day * 86400000, value := value }]
  slice _ := [{ ms := day * 86400000 + 82800000, value := value }]
  sha := "5e1f"
  frame_inside := by
    intro r hr
    rw [mem_singleton.mp hr]
    show day * 86400000 / 86400000 = day; omega
  frame_sorted := pairwise_singleton _ _
  slice_inside := by
    intro _ r hr
    rw [mem_singleton.mp hr]
    show (day * 86400000 + 82800000) / 86400000 = day; omega
  slice_sorted _ := pairwise_singleton _ _

def sampleEnv (value : ℤ) : MonthEnv SampleRow SampleRow where
  fetched day := .derived (sampleDay day value)
  stagingFails _ := none
  derivedFails := none
  slicesFail := none
  appended _ := true
  now day := day
  chunking := ⟨fun rows => [rows], fun rows => by rw [flatten_cons, flatten_nil, append_nil]⟩

def samplePlan (value : ℤ) : CollectionPlan × (Month → Option (MonthEnv SampleRow SampleRow)) :=
  ({ dataset := .aggTrades, symbol := "BTCUSDT", days := [20454], sliceHours := some (23, 24) },
    fun _ => some (sampleEnv value))

/-- The archive behind `n` operations of a run of the plan. -/
def collectedFor (archive : String → SymbolArchive SampleRow SampleRow) (value : ℤ) (n : ℕ) :
    String → SymbolArchive SampleRow SampleRow :=
  interleaved SymbolArchive.apply archive
    (((runScript [samplePlan value] "BTCUSDT" (archive "BTCUSDT")).take n).map fun op => ("BTCUSDT", op))

theorem collected_collectedFor {archive : String → SymbolArchive SampleRow SampleRow} (h : Collected archive)
    (value : ℤ) (n : ℕ) : Collected (collectedFor archive value n) :=
  h.run _ _ (Interleave.interleaving_single ( take_prefix _ _))

def collectedOnce : String → SymbolArchive SampleRow SampleRow := collectedFor (fun _ => .empty) 1 4

/-- The day collected again, the process dying between the two partitions. -/
def collectedTorn : String → SymbolArchive SampleRow SampleRow := collectedFor collectedOnce 2 2

theorem coverage_held_once : CoverageHeld (collectedOnce "BTCUSDT") ∧
    (collectedOnce "BTCUSDT").derivedRows .aggTrades (2026, 1) = [{ ms := 1767225600000, value := 1 }] :=
  ⟨(coverage_held (collected_collectedFor Collected.empty 1 4)).1 "BTCUSDT", by decide +kernel⟩

theorem slice_collectedOnce : onDay 20454 ((collectedOnce "BTCUSDT").sliceRows .aggTrades (monthOf 20454))
    = [{ ms := 1767308400000, value := 1 }] := by
  have hsound : Sound (collectedOnce "BTCUSDT") := sound_of_collected (collected_collectedFor Collected.empty 1 4) _
  have hrow : ((collectedOnce "BTCUSDT").row .aggTrades 20454).map CoverageRow.status = some .ok :=
    by decide +kernel
  obtain ⟨row, hrow, hok⟩ := map_eq_some_iff.mp hrow
  have hlatest : ((collectedOnce "BTCUSDT").latest .aggTrades 20454).map (fun d => (d.sliced, d.recorded))
      = some (some [{ ms := 1767308400000, value := 1 }], true) := by decide +kernel
  obtain ⟨d, hd, hfields⟩ := map_eq_some_iff.mp hlatest
  exact (hsound.held _ _ row d hrow hok hd (congrArg Prod.snd hfields)).2 _ (congrArg Prod.fst hfields)

/-- Collecting an `ok` day again may leave a slice that is not the one derived last. -/
theorem recollection_torn : ¬ ∀ archive : String → SymbolArchive SampleRow SampleRow, Collected archive →
    ∀ symbol dataset day row d, (archive symbol).row dataset day = some row → row.status = .ok →
      (archive symbol).latest dataset day = some d → Holds (archive symbol) dataset day d := by
  intro hclaim
  have hcollected : Collected collectedTorn :=
    collected_collectedFor (collected_collectedFor Collected.empty 1 4) 2 2
  have hrow : ((collectedTorn "BTCUSDT").row .aggTrades 20454).map CoverageRow.status = some .ok :=
    by decide +kernel
  obtain ⟨row, hrow, hok⟩ := map_eq_some_iff.mp hrow
  have hlatest : ((collectedTorn "BTCUSDT").latest .aggTrades 20454).map Derivation.sliced
      = some (some [{ ms := 1767308400000, value := 2 }]) := by decide +kernel
  obtain ⟨d, hd, hsliced⟩ := map_eq_some_iff.mp hlatest
  have hslice := (hclaim collectedTorn hcollected "BTCUSDT" .aggTrades 20454 row d hrow hok hd).2 _ hsliced
  -- the second run did not get to the slice partition
  have hkept : (collectedTorn "BTCUSDT").slice = (collectedOnce "BTCUSDT").slice := rfl
  rw [SymbolArchive.sliceRows, hkept] at hslice
  exact absurd (slice_collectedOnce.symm.trans hslice) (by decide)

end Recollected

end CryptoPilot.Archive
