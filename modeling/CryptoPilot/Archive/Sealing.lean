/- # Sealing — when a month is taken for sealed although nothing was removed.

`sealed_months` infers from a row with data that the partitions of its month were written.  The
slice partition is only written when the symbol had a slice window; a month of trades collected
without one is sealed against a later run that asks for slices.  `Backed` is the invariant of the
runs that collect no such month: a row with data has its partitions. -/
import Mathlib.Data.List.ReduceOption
import CryptoPilot.Archive.CollectRuns
import CryptoPilot.Archive.Planning

namespace CryptoPilot.Archive

open CryptoPilot.Lib List Option
open CryptoPilot.Lib.Interleave (execute Along Interleaving interleaved)

variable {ρ σ : Type} [Timed ρ] [Timed σ]

/-! ## Runs of planning and collecting -/

def withEnvs (plans : List CollectionPlan) (envs : CollectionPlan → Month → Option (MonthEnv ρ σ)) :
    List (CollectionPlan × (Month → Option (MonthEnv ρ σ))) :=
  plans.map fun p => (p, envs p)

/-- The archives that runs of `plan_collection` and `execute_plan` lead to, every run meeting a
condition. -/
inductive PlannedRuns (condition : (String → SymbolArchive ρ σ) →
    List (CollectionPlan × (Month → Option (MonthEnv ρ σ))) → Prop) : (String → SymbolArchive ρ σ) → Prop
  | empty : PlannedRuns condition fun _ => SymbolArchive.empty
  | run {archive : String → SymbolArchive ρ σ} (h : PlannedRuns condition archive) (req : PlanRequest)
      (plans : List CollectionPlan) (hplan : planCollection req archive = .ok (some plans))
      (envs : CollectionPlan → Month → Option (MonthEnv ρ σ)) (hcondition : condition archive (withEnvs plans envs))
      (trace : List (String × ArchiveOp ρ σ))
      (ht : Interleaving (fun symbol => runScript (withEnvs plans envs) symbol (archive symbol)) trace) :
      PlannedRuns condition (interleaved SymbolArchive.apply archive trace)

def MonthWork.Records (w : MonthWork ρ σ) : Prop :=
  w.env.derivedFails = none ∧ ∃ day ∈ w.days, w.env.appended day = true ∧
    ∃ d, w.env.fetched day = .derived d ∧ d.frame ≠ []

/-- The run records no month of trades without a slice window, unless its slice partition is there.
-/
def SlicesCollected (archive : String → SymbolArchive ρ σ)
    (plans : List (CollectionPlan × (Month → Option (MonthEnv ρ σ)))) : Prop :=
  ∀ symbol, ∀ w ∈ symbolWorks plans symbol, w.plan.dataset = .aggTrades → w.plan.sliceHours = none → w.Records →
    ((archive symbol).slice .aggTrades w.month).isSome

/-- No plan puts a day into its sealed days, and no month of a planned run is refused. -/
def NothingRefused (archive : String → SymbolArchive ρ σ) : Prop :=
  ∀ req plans, planCollection req archive = .ok (some plans) →
    (∀ p ∈ plans, p.sealedDays = []) ∧
      ∀ (envs : CollectionPlan → Month → Option (MonthEnv ρ σ)) (symbol : String) (before : List (MonthWork ρ σ))
        (w : MonthWork ρ σ) (after : List (MonthWork ρ σ)),
        symbolWorks (withEnvs plans envs) symbol = before ++ w :: after →
          sealedMonth (sealedMonths (archive symbol)) w (gatherMonth w w.days) (monthStart (archive symbol) before)
            = false

/-! ## Rows with data have their partitions -/

section Backing

/-- A row with data has its derived partition and, for trades, its slice partition. -/
structure Backed (s : SymbolArchive ρ σ) : Prop where
  derived : ∀ dataset day row, s.row dataset day = some row → row.status = .ok → 0 < row.rows →
    (s.derived dataset (monthOf day)).isSome
  slice : ∀ day row, s.row .aggTrades day = some row → row.status = .ok → 0 < row.rows →
    (s.slice .aggTrades (monthOf day)).isSome

variable {s s' s₀ : SymbolArchive ρ σ} {w : MonthWork ρ σ}

omit [Timed ρ] [Timed σ] in
theorem backed_empty : Backed (SymbolArchive.empty : SymbolArchive ρ σ) where
  derived _ _ _ h := by cases h
  slice _ _ h := by cases h

omit [Timed ρ] [Timed σ] in
theorem sealedMonths_of_backed (h : Backed s) (dataset : ArchiveDataset) (kind : PartitionKind) (month : Month) :
    sealedMonths s dataset kind month = false := by
  rw [sealedMonths.eq_def, Bool.and_eq_false_iff]
  refine or_iff_not_imp_left.mpr fun hany => ?_
  obtain ⟨r, -, htrue⟩ := any_eq_true.mp (Bool.eq_true_of_not_eq_false hany)
  obtain ⟨hmonth, hrow⟩ := Bool.and_eq_true_iff.mp htrue
  obtain rfl : monthOf r.day = month := of_decide_eq_true hmonth
  cases hlast : s.row dataset r.day with
  | none =>
    rw [hlast] at hrow; cases hrow
  | some row =>
    rw [hlast] at hrow
    obtain ⟨hok, hrows⟩ := of_decide_eq_true hrow
    cases kind with
    | derived => exact isNone_eq_false_iff.mpr (h.derived dataset r.day row hlast hok hrows)
    | slice =>
      by_cases hdataset : dataset = .aggTrades
      · subst hdataset
        exact Bool.and_eq_false_iff.mpr (Or.inr (isNone_eq_false_iff.mpr (h.slice r.day row hlast hok hrows)))
      · exact Bool.and_eq_false_iff.mpr (Or.inl (decide_eq_false hdataset))

/-- The invariant of a run: rows are backed, and the slice partitions of its start are there. -/
def BackedSince (s₀ s : SymbolArchive ρ σ) : Prop :=
  Backed s ∧ ∀ month, (s₀.slice .aggTrades month).isSome → (s.slice .aggTrades month).isSome

omit [Timed ρ] [Timed σ] in
theorem Backed.of_row (h : Backed s)
    (hderived : ∀ dataset month, (s.derived dataset month).isSome → (s'.derived dataset month).isSome)
    (hslice : ∀ dataset month, (s.slice dataset month).isSome → (s'.slice dataset month).isSome)
    (hrow : ∀ dataset day row, s'.row dataset day = some row → row.status = .ok → s.row dataset day = some row) :
    Backed s' where
  derived dataset day row hlast hok hrows :=
    hderived _ _ (h.derived dataset day row (hrow dataset day row hlast hok) hok hrows)
  slice day row hlast hok hrows := hslice _ _ (h.slice day row (hrow _ day row hlast hok) hok hrows)

omit [Timed ρ] [Timed σ] in
theorem row_of_note {op : ArchiveOp ρ σ} {dataset : ArchiveDataset} {days : List ℤ} (h : NoteOp dataset days op)
    {dataset' : ArchiveDataset} {day : ℤ} {row : CoverageRow} (hrow : (s.apply op).row dataset' day = some row)
    (hok : row.status = .ok) : s.row dataset' day = some row := by
  cases op with
  | derive => exact hrow
  | append dataset'' row' =>
    rw [row_append] at hrow
    split at hrow
    next =>
      cases hrow; exact absurd hok h.2.2
    next => exact hrow
  | putDerived | putSlice => exact h.elim

theorem keptByMonth_backed (hw : w.WellFormed) (hslices : w.plan.dataset = .aggTrades → w.plan.sliceHours = none →
    w.Records → (s₀.slice .aggTrades w.month).isSome) : KeptByMonth w (BackedSince s₀) where
  note s op hop h := by
    obtain ⟨hderived, hslice, -⟩ := hop.leaves s
    refine ⟨h.1.of_row (fun _ _ hsome => hderived ▸ hsome) (fun _ _ hsome => hslice ▸ hsome)
      fun _ _ _ hrow hok => row_of_note hop hrow hok, fun month hsome => ?_⟩
    rw [hslice]; exact h.2 month hsome
  commit s s' hcommit h := by
    have hrow : ∀ dataset day, s'.row dataset day = s.row dataset day := by
      intro dataset day
      rw [SymbolArchive.row, SymbolArchive.row, hcommit.log]
    refine ⟨h.1.of_row hcommit.keeps.derivedStays hcommit.keeps.sliceStays fun dataset day row hlast _ =>
      hrow dataset day ▸ hlast, fun month hsome => hcommit.keeps.sliceStays _ month (h.2 month hsome)⟩
  row s row hrow h := by
    -- an `ok` row with rows comes from a frame, whose partitions are written
    have hnew : row.status = .ok → 0 < row.rows → (s.derived w.plan.dataset (monthOf row.day)).isSome ∧
        (w.plan.dataset = .aggTrades → (s.slice .aggTrades (monthOf row.day)).isSome) := by
      intro hok hrows
      obtain ⟨hbatch, frame, sliced, hgives, hday, hlength, happended⟩ := hrow hok
      have hframe : frame ≠ [] := by
        rintro rfl
        rw [hlength] at hrows; exact absurd hrows (lt_irrefl 0)
      rw [hw.inMonth row.day hday]
      refine ⟨hbatch.derivedThere row.day hday frame sliced hgives hframe, fun hdataset => ?_⟩
      cases hwindow : w.plan.sliceHours with
      | none =>
        have hwritable : w.env.derivedFails = none := hbatch.writable row.day hday frame sliced hgives
        obtain ⟨d, hd, rfl, -⟩ := hgives
        exact h.2 _ (hslices hdataset hwindow ⟨hwritable, row.day, hday, happended, d, hd, hframe⟩)
      | some window =>
        obtain ⟨d, hd, rfl, rfl, hstaged⟩ := hgives
        rw [← hdataset]
        refine hbatch.sliceThere row.day hday d.frame (d.slice window) ⟨d, hd, rfl, ?_, fun _ => ?_⟩
        · rw [hwindow]; rfl
        · exact hstaged (by rw [hwindow]; rfl)
    refine ⟨⟨fun dataset day row' hlast hok hrows => ?_, fun day row' hlast hok hrows => ?_⟩, h.2⟩
    · rw [row_append] at hlast
      split at hlast
      next hsame =>
        obtain ⟨rfl, rfl⟩ := hsame; cases hlast; exact (hnew hok hrows).1
      next => exact h.1.derived dataset day row' hlast hok hrows
    · rw [row_append] at hlast
      split at hlast
      next hsame =>
        obtain ⟨hdataset, rfl⟩ := hsame; cases hlast; exact (hnew hok hrows).2 hdataset.symm
      next => exact h.1.slice day row' hlast hok hrows

end Backing

/-! ## Nothing is refused -/

section Refusing

variable {archive : String → SymbolArchive ρ σ}

theorem backed_of_plannedRuns (h : PlannedRuns SlicesCollected archive) :
    ∀ symbol, Sound (archive symbol) ∧ Backed (archive symbol) := by
  induction h with
  | empty => exact fun _ => ⟨sound_empty, backed_empty⟩
  | @run archive h req plans hplan envs hcondition trace ht ih =>
    intro symbol
    have halong : ∀ i, Along SymbolArchive.apply (fun s' => Sound s' ∧ Backed s') (archive i)
        (runScript (withEnvs plans envs) i (archive i)) := by
      intro i
      have hwell := wellFormed_symbolWorks (withEnvs plans envs) i
      exact (along_symbolOps hwell (fun w hw => keptByMonth_backed (hwell w hw) (hcondition i w hw)) (ih i).1
        ⟨(ih i).2, fun _ hsome => hsome⟩ _).mono fun s' hs' => ⟨hs'.1.1, hs'.1.2.1⟩
    exact ht.holds halong symbol

omit [Timed ρ] [Timed σ] in
theorem sealedDays_of_backed {s : SymbolArchive ρ σ} (h : Backed s) {req : PlanRequest} {dataset : ArchiveDataset}
    {symbol : String} {p : CollectionPlan}
    (hp : planOne req dataset symbol s = some (some p)) : p.sealedDays = [] := by
  have hopen : ∀ day, sealedDay req dataset symbol s day = false := by
    intro day
    rw [sealedDay, sealedMonths_of_backed h, sealedMonths_of_backed h, Bool.and_false, Bool.false_or]
  have hnone : ∀ days : List ℤ, (days.filter fun day => sealedDay req dataset symbol s day) = [] :=
    fun days => filter_eq_nil_iff.mpr fun day _ => by simp [hopen day]
  rw [planOne] at hp
  split at hp
  next => cases hp
  next =>
    simp only [hnone] at hp
    obtain ⟨plan, -, hplan⟩ := bind_eq_some_iff.mp hp
    cases plan <;> cases hplan
    rfl

theorem mem_of_mapM_eq_some {α β : Type} {f : α → Option β} {xs : List α} {ys : List β} (h : xs.mapM f = some ys)
    {y : β} (hy : y ∈ ys) : ∃ x ∈ xs, f x = some y := by
  induction xs generalizing ys with
  | nil =>
    cases h; cases hy
  | cons x xs ih =>
    rw [mapM_cons] at h
    obtain ⟨b, hb, h⟩ := bind_eq_some_iff.mp h
    obtain ⟨bs, hbs, h⟩ := bind_eq_some_iff.mp h
    cases h
    rcases mem_cons.mp hy with rfl | hy
    · exact ⟨x, mem_cons_self, hb⟩
    · obtain ⟨x', hx', hfx'⟩ := ih hbs hy; exact ⟨x', mem_cons_of_mem x hx', hfx'⟩

omit [Timed ρ] [Timed σ] in
theorem mem_planCollection {req : PlanRequest} {plans : List CollectionPlan}
    (h : planCollection req archive = .ok (some plans)) {p : CollectionPlan} (hp : p ∈ plans) :
    ∃ dataset symbol, planOne req dataset symbol (archive symbol) = some (some p) := by
  rw [planCollection] at h
  split at h
  next => cases h
  next =>
    split at h
    next => cases h
    next =>
      obtain ⟨answers, hanswers, rfl⟩ := map_eq_some_iff.mp (Except.ok.inj h)
      have hmem : some p ∈ answers := reduceOption_mem_iff.mp hp
      obtain ⟨turn, -, hturn⟩ := mem_of_mapM_eq_some hanswers hmem; exact ⟨turn.1, turn.2, hturn⟩

/-- **No month is refused that was not removed**, in all runs in which no month of trades is
recorded without its slice partition. -/
theorem nothing_refused (h : PlannedRuns SlicesCollected archive) : NothingRefused archive := by
  intro req plans hplan
  have hbacked := backed_of_plannedRuns h
  refine ⟨fun p hp => ?_, fun envs symbol before w after _ => ?_⟩
  · obtain ⟨dataset, symbol, hone⟩ := mem_planCollection hplan hp
    exact sealedDays_of_backed (hbacked symbol).2 hone
  · rw [sealedMonth, sealedMonths_of_backed (hbacked symbol).2, sealedMonths_of_backed (hbacked symbol).2]
    simp

end Refusing

/-! ## A symbol that gets its slice window later -/

section LateWindow

def januaryRequest (sliceSymbols : List String) (endDay : ℤ) : PlanRequest where
  datasets := [.aggTrades]
  symbols _ := ["BTCUSDT"]
  start := some 20454
  endDay := endDay
  yesterday := 20460
  sliceHours := (23, 24)
  sliceSymbols := sliceSymbols
  incrementalWindowDays := none
  allowed _ := none
  retryDefective := false
  listing _ _ _ := some [20454, 20455]

def januaryPlan (window : Option (ℤ × ℤ)) : CollectionPlan :=
  { dataset := .aggTrades, symbol := "BTCUSDT", days := [20454], sliceHours := window }

def januaryArchive (window : Option (ℤ × ℤ)) : String → SymbolArchive SampleRow SampleRow :=
  interleaved SymbolArchive.apply (fun _ => .empty)
    ((runScript (withEnvs [januaryPlan window] fun _ _ => some (sampleEnv 1)) "BTCUSDT" .empty).map
      fun op => ("BTCUSDT", op))

theorem plannedRuns_january {condition : (String → SymbolArchive SampleRow SampleRow) →
    List (CollectionPlan × (Month → Option (MonthEnv SampleRow SampleRow))) → Prop} {sliceSymbols : List String}
    {window : Option (ℤ × ℤ)}
    (hplan : planCollection (januaryRequest sliceSymbols 20454) (fun _ =>
      (.empty : SymbolArchive SampleRow SampleRow))
      = .ok (some [januaryPlan window]))
    (hcondition : condition (fun _ => .empty) (withEnvs [januaryPlan window] fun _ _ => some (sampleEnv 1))) :
    PlannedRuns condition (januaryArchive window) :=
  PlannedRuns.run .empty _ _ hplan _ hcondition _ (Interleave.interleaving_single prefix_rfl)

theorem nothing_refused_windowed : NothingRefused (januaryArchive (some (23, 24))) := by
  have hplan : planCollection (januaryRequest ["BTCUSDT"] 20454)
      (fun _ => (.empty : SymbolArchive SampleRow SampleRow)) = .ok (some [januaryPlan (some (23, 24))]) := by
    decide +kernel
  refine nothing_refused (plannedRuns_january hplan ?_)
  intro symbol w hw _ hwindow
  obtain ⟨p, hp, hgroup⟩ := mem_flatMap.mp hw
  obtain ⟨plan, hplan, rfl⟩ := mem_map.mp (mem_of_mem_filter hp)
  obtain ⟨g, -, hg⟩ := mem_filterMap.mp hgroup
  cases hg
  rw [mem_singleton.mp hplan] at hwindow; cases hwindow

/-- Collected without a window, the month is sealed against the window that comes later. -/
theorem late_window_refused : ¬ ∀ archive : String → SymbolArchive SampleRow SampleRow,
    PlannedRuns (fun _ _ => True) archive → NothingRefused archive := by
  intro hclaim
  have hplan : planCollection (januaryRequest [] 20454) (fun _ => (.empty : SymbolArchive SampleRow SampleRow))
      = .ok (some [januaryPlan none]) := by decide +kernel
  have hlate : planCollection (januaryRequest ["BTCUSDT"] 20455) (januaryArchive none) = .ok (some
      [{ dataset := .aggTrades, symbol := "BTCUSDT", days := [], sliceHours := some (23, 24)
         sealedDays := [20455] }]) := by decide +kernel
  have hrefused := hclaim _ (plannedRuns_january hplan trivial) _ _ hlate
  exact absurd (hrefused.1 _ (mem_singleton_self _)) (by decide)

end LateWindow

end CryptoPilot.Archive
