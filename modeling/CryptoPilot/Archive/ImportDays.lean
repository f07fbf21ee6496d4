/- # ImportDays — what an import means by day.

A merged partition holds the wanted days of the source and the other days of the destination.  A
copied one holds all that the source file has, which is the same thing exactly when the file has
rows of wanted days only. -/
import CryptoPilot.Lib.Effect
import CryptoPilot.Archive.Import

namespace CryptoPilot.Archive

open CryptoPilot.Lib List Prod

variable {ρ : Type} [Timed ρ]

/-! ## Reading and merging tables -/

section Tables

variable {C : Chunking ρ} {month : Month} {rows source dest : List ρ} {wanted : List ℤ}

variable {tables : List (ℤ × List ρ)}

theorem chunksFrom_ok {batches : List (List ρ)} {previous : Option ℤ}
    (h : chunksFrom month previous batches = .ok tables) :
    (∀ r ∈ batches.flatten, rowMonth r = month) ∧ tables = batches.flatMap dayGroups := by
  induction batches generalizing previous tables with
  | nil =>
    cases h; exact ⟨nofun, rfl⟩
  | cons batch batches ih =>
    rw [chunksFrom] at h
    split at h
    next => cases h
    next =>
      split at h
      next => cases h
      next hmonth =>
        obtain ⟨later, hlater, h⟩ := bind_eq_ok.mp h
        cases h
        obtain ⟨hrows, rfl⟩ := ih hlater
        refine ⟨fun r hr => ?_, rfl⟩
        rcases mem_append.mp hr with hr | hr
        · by_contra hne; exact hmonth (any_eq_true.mpr ⟨r, hr, decide_eq_true hne⟩)
        · exact hrows r hr

theorem chunks_ok (h : chunks C month rows = .ok tables) :
    (∀ r ∈ rows, rowMonth r = month) ∧ tables = (C.cut rows).flatMap dayGroups := by
  obtain ⟨hrows, htables⟩ := chunksFrom_ok h
  rw [C.flatten_cut] at hrows; exact ⟨hrows, htables⟩

theorem onDay_stageMerge {merged : List ρ} (h : stageMerge C month source dest wanted = .ok merged) (day : ℤ) :
    onDay day merged = if day ∈ wanted then onDay day source else onDay day dest := by
  obtain ⟨kept, hkept, h⟩ := bind_eq_ok.mp h
  obtain ⟨incoming, hincoming, h⟩ := bind_eq_ok.mp h
  cases h
  obtain ⟨-, rfl⟩ := chunks_ok hkept
  obtain ⟨-, rfl⟩ := chunks_ok hincoming
  have hgroups : ∀ (rows : List ρ) (p : ℤ × List ρ → Bool), (∀ t : ℤ × List ρ, t.1 = day → p t = true) →
      ((((C.cut rows).flatMap dayGroups).filter p).filter fun t => t.1 = day).flatMap snd = onDay day rows := by
    intro rows p hp
    have hfilter : (((C.cut rows).flatMap dayGroups).filter p).filter (fun t => t.1 = day)
        = ((C.cut rows).flatMap dayGroups).filter fun t => t.1 = day := by
      rw [filter_filter]
      refine filter_congr fun t _ => ?_
      by_cases ht : t.1 = day
      · simp [ht, hp t ht]
      · simp [ht]
    rw [hfilter, filter_chunkGroups, C.flatten_cut]
  have hinside : ∀ (rows : List ρ) (p : ℤ × List ρ → Bool), ∀ t ∈ ((C.cut rows).flatMap dayGroups).filter p,
      ∀ r ∈ t.2, rowDay r = t.1 := by
    intro rows p t ht
    obtain ⟨chunk, -, ht⟩ := mem_flatMap.mp (mem_of_mem_filter ht); exact dayGroups_inside t ht
  rw [onDay_flatMap fun t ht => (mem_merge.mp ht).elim (hinside _ _ t) (hinside _ _ t)]
  by_cases hday : day ∈ wanted
  · rw [if_pos hday, filter_merge_right, hgroups]
    · rintro t rfl; exact decide_eq_true hday
    · intro t ht
      exact decide_eq_false fun heq => of_decide_eq_true (mem_filter.mp ht).2 (heq ▸ hday)
  · rw [if_neg hday, filter_merge_left, hgroups]
    · rintro t rfl; exact decide_eq_true hday
    · intro t ht
      exact decide_eq_false fun heq => hday (heq ▸ of_decide_eq_true (mem_filter.mp ht).2)

/-- What is staged: the merged days, or the rows of the source where there was no partition. -/
structure StagedAs (month : Month) (wanted : List ℤ) (source : List ρ) (dest : Option (List ρ)) (rows : List ρ) :
    Prop where
  inMonth : ∀ r ∈ source, rowMonth r = month
  merged : ∀ existing, dest = some existing → ∀ day,
    onDay day rows = if day ∈ wanted then onDay day source else onDay day existing
  copied : dest = none → rows = source

theorem stageKind_ok {env : ImportEnv ρ} {dataset : ArchiveDataset} {symbol : String} {src dst : SymbolArchive ρ ρ}
    {kind : PartitionKind} {t : PartitionKind × List ρ}
    (h : stageKind env dataset symbol month wanted src dst kind = .ok t) : t.1 = kind ∧
      StagedAs month wanted ((src.partition kind dataset month).getD [])
        (dst.partition kind dataset month) t.2 := by
  obtain ⟨tables, htables, h⟩ := bind_eq_ok.mp h
  obtain ⟨hmonth, -⟩ := chunks_ok htables
  split at h
  next => cases h
  next =>
    split at h
    next existing hexisting =>
      obtain ⟨merged, hmerged, h⟩ := bind_eq_ok.mp h
      cases h
      refine ⟨rfl, hmonth, fun existing' heq day => ?_, fun hnone => ?_⟩
      · rw [hexisting] at heq; cases heq; exact onDay_stageMerge hmerged day
      · rw [hexisting] at hnone; cases hnone
    next hnone =>
      cases h
      refine ⟨rfl, hmonth, fun existing heq => ?_, fun _ => rfl⟩
      rw [hnone] at heq; cases heq

end Tables

/-! ## Putting partitions in place -/

section Commit

variable {dataset dataset' : ArchiveDataset} {month month' : Month} {kind : PartitionKind}
  {dest : SymbolArchive ρ ρ} {staged : List (PartitionKind × List ρ)}

omit [Timed ρ] in
theorem partition_withPartition (s : SymbolArchive ρ ρ) (kind kind' : PartitionKind)
    (dataset dataset' : ArchiveDataset)
    (month month' : Month) (rows : Option (List ρ)) :
    (s.withPartition kind dataset month rows).partition kind' dataset' month'
      = if kind' = kind ∧ dataset' = dataset ∧ month' = month then rows else s.partition kind' dataset' month' := by
  cases kind <;> cases kind' <;> simp [SymbolArchive.withPartition, SymbolArchive.partition, setEntry]

omit [Timed ρ] in
theorem log_withPartition (s : SymbolArchive ρ ρ) (kind : PartitionKind) (rows : Option (List ρ)) :
    (s.withPartition kind dataset month rows).log = s.log := by
  cases kind <;> rfl

omit [Timed ρ] in
theorem log_putAll (dest : SymbolArchive ρ ρ) : (putAll dataset month dest staged).log = dest.log := by
  induction staged generalizing dest with
  | nil => rfl
  | cons t staged ih => exact (ih _).trans (log_withPartition dest t.1 (some t.2))

omit [Timed ρ] in
theorem partition_putAll (hnodup : (staged.map fst).Nodup) (dest : SymbolArchive ρ ρ) (kind : PartitionKind)
    (dataset' : ArchiveDataset) (month' : Month) :
    (dataset' = dataset ∧ month' = month → ∀ rows, (kind, rows) ∈ staged →
        (putAll dataset month dest staged).partition kind dataset' month' = some rows) ∧
      (¬ (dataset' = dataset ∧ month' = month ∧ kind ∈ staged.map fst) →
        (putAll dataset month dest staged).partition kind dataset' month' =
          dest.partition kind dataset' month') := by
  induction staged generalizing dest with
  | nil => exact ⟨nofun, fun _ => rfl⟩
  | cons t staged ih =>
    obtain ⟨hfresh, hnodup⟩ := nodup_cons.mp hnodup
    obtain ⟨hin, hout⟩ := ih hnodup (dest.withPartition t.1 dataset month (some t.2))
    have hput : putAll dataset month dest (t :: staged)
        = putAll dataset month (dest.withPartition t.1 dataset month (some t.2)) staged := rfl
    rw [hput]
    refine ⟨fun hhere rows hrows => ?_, fun hnot => ?_⟩
    · rcases mem_cons.mp hrows with rfl | hrows
      · rw [hout fun hin' => hfresh hin'.2.2, partition_withPartition, if_pos ⟨rfl, hhere.1, hhere.2⟩]
      · exact hin hhere rows hrows
    · rw [hout fun hin' => hnot ⟨hin'.1, hin'.2.1, mem_cons_of_mem _ hin'.2.2⟩, partition_withPartition]
      refine if_neg ?_
      rintro ⟨rfl, hdataset, hmonth⟩; exact hnot ⟨hdataset, hmonth, mem_cons_self⟩

omit [Timed ρ] in
theorem partition_rollback (backup s : SymbolArchive ρ ρ) (committed : List (PartitionKind × List ρ))
    (kind : PartitionKind) (dataset' : ArchiveDataset) (month' : Month) :
    (committed.foldl (fun s t => s.withPartition t.1 dataset month
      (backup.partition t.1 dataset month)) s).partition
        kind dataset' month'
      = if dataset' = dataset ∧ month' = month ∧ kind ∈ committed.map fst then
          backup.partition kind dataset month
        else s.partition kind dataset' month' := by
  induction committed generalizing s with
  | nil => rw [if_neg fun h => by cases h.2.2]; rfl
  | cons t committed ih =>
    rw [foldl_cons, ih, partition_withPartition]
    by_cases hhere : dataset' = dataset ∧ month' = month
    · obtain ⟨rfl, rfl⟩ := hhere
      by_cases htail : kind ∈ committed.map fst
      · rw [if_pos ⟨rfl, rfl, htail⟩, if_pos ⟨rfl, rfl, mem_cons_of_mem _ htail⟩]
      · rw [if_neg fun h => htail h.2.2]
        by_cases hhead : kind = t.1
        · subst hhead
          rw [if_pos ⟨rfl, rfl, rfl⟩, if_pos ⟨rfl, rfl, mem_cons_self⟩]
        · rw [if_neg fun h => hhead h.1, if_neg]
          rintro ⟨-, -, hmem⟩
          rcases mem_cons.mp hmem with heq | hmem
          · exact hhead heq
          · exact htail hmem
    · rw [if_neg fun h => hhere ⟨h.1, h.2.1⟩, if_neg fun h => hhere ⟨h.2.1, h.2.2⟩, if_neg fun h =>
        hhere ⟨h.1, h.2.1⟩]

omit [Timed ρ] in
theorem log_rollback (backup s : SymbolArchive ρ ρ) (committed : List (PartitionKind × List ρ)) :
    (committed.foldl (fun s t => s.withPartition t.1 dataset month (backup.partition t.1 dataset month)) s).log
      = s.log := by
  induction committed generalizing s with
  | nil => rfl
  | cons t committed ih => exact (ih _).trans (log_withPartition s t.1 _)

omit [Timed ρ] in
theorem commitStaged_spec (hnodup : (staged.map fst).Nodup) (replaceFails : Option (ℕ × String))
    (dest : SymbolArchive ρ ρ) :
    (commitStaged dataset month staged replaceFails dest = (.ok (), putAll dataset month dest staged)) ∨
      ∃ e s, commitStaged dataset month staged replaceFails dest = (.error e, s) ∧ s.log = dest.log ∧
        ∀ kind dataset' month', s.partition kind dataset' month' = dest.partition kind dataset' month' := by
  cases replaceFails with
  | none => exact Or.inl rfl
  | some f =>
    by_cases hn : f.1 < staged.length
    · have hcommit : commitStaged dataset month staged (some f) dest = (.error (.osError f.2),
          (staged.take f.1).reverse.foldl
            (fun s t => s.withPartition t.1 dataset month (dest.partition t.1 dataset month))
            (putAll dataset month dest (staged.take f.1))) := if_pos hn
      refine Or.inr ⟨_, _, hcommit, (log_rollback _ _ _).trans (log_putAll _), fun kind dataset' month' => ?_⟩
      have hkinds : ((staged.take f.1).map fst).Nodup := ((take_sublist _ _).map _).nodup hnodup
      rw [partition_rollback]
      split
      next hin => rw [hin.1, hin.2.1]
      next hout =>
        refine (partition_putAll hkinds dest kind dataset' month').2 fun hin => hout ⟨hin.1, hin.2.1, ?_⟩
        rw [map_reverse, mem_reverse]; exact hin.2.2
    · exact Or.inl (if_neg hn)

end Commit

/-! ## One month -/

section Month

variable {env : ImportEnv ρ} {dataset : ArchiveDataset} {symbol : String} {month : Month}
  {src start dest : SymbolArchive ρ ρ} {report : ImportReport}

omit [Timed ρ] in
theorem day_of_row {s : SymbolArchive ρ ρ} {day : ℤ} {row : CoverageRow} (h : s.row dataset day = some row) :
    row.day = day :=
  of_decide_eq_true (mem_filter.mp (mem_of_getLast? h)).2

omit [Timed ρ] in
theorem okDay_iff {s : SymbolArchive ρ ρ} {day : ℤ} :
    okDay s dataset day = true ↔ ∃ row, s.row dataset day = some row ∧ row.status = .ok := by
  rw [okDay]
  cases s.row dataset day <;> simp

/-- `appendRows` touches the rows of the given days only, and makes them `ok` if it ended. -/
structure RowsAppended (dataset : ArchiveDataset) (days : List ℤ) (src dest s : SymbolArchive ρ ρ) (ended : Prop) :
    Prop where
  derived : s.derived = dest.derived
  slice : s.slice = dest.slice
  log : ∀ dataset', dataset' ≠ dataset → s.log dataset' = dest.log dataset'
  others : ∀ day ∉ days, s.row dataset day = dest.row dataset day
  ok : ended → (∀ day ∈ days, okDay src dataset day = true) →
    ∀ day, day ∈ days ∨ okDay dest dataset day = true → okDay s dataset day = true

omit [Timed ρ] in
theorem appendRows_spec (env : ImportEnv ρ) (symbol : String) (src : SymbolArchive ρ ρ) (days : List ℤ)
    (dest : SymbolArchive ρ ρ) : RowsAppended dataset days src dest (appendRows env dataset symbol src days dest).2
      ((appendRows env dataset symbol src days dest).1 = .ok ()) := by
  induction days generalizing dest with
  | nil =>
    refine ⟨rfl, rfl, fun _ _ => rfl, fun _ _ => rfl, fun _ _ day h => ?_⟩
    rcases h with h | h
    · cases h
    · exact h
  | cons day days ih =>
    rw [appendRows]
    split
    next => exact ⟨rfl, rfl, fun _ _ => rfl, fun _ _ => rfl, fun h => by cases h⟩
    next row _ hrow =>
      have hday : row.day = day := day_of_row hrow
      obtain ⟨hderived, hslice, hlog, hothers, hok⟩ := ih (dest.apply (.append dataset
        { row with recordedAt := some (env.now dataset symbol day) }))
      refine ⟨hderived, hslice, fun dataset' hne => (hlog dataset' hne).trans (if_neg hne), fun day' hday' => ?_,
        fun hended hsrc day' h => ?_⟩
      · rw [hothers day' fun hin => hday' (mem_cons_of_mem _ hin), row_append]
        refine if_neg ?_
        rintro ⟨-, rfl⟩; exact hday' (hday ▸ mem_cons_self)
      · refine hok hended (fun d hd => hsrc d (mem_cons_of_mem _ hd)) day' ?_
        obtain ⟨row', hrow', hstatus⟩ := okDay_iff.mp (hsrc day mem_cons_self)
        rw [hrow] at hrow'
        cases hrow'
        by_cases hsame : day' = day
        · subst hsame
          exact Or.inr (okDay_iff.mpr ⟨_, (row_append _ _ _).trans (if_pos ⟨rfl, hday⟩), hstatus⟩)
        · rcases h with h | h
          · exact Or.inl ((mem_cons.mp h).resolve_left hsame)
          · obtain ⟨row', hrow', hstatus'⟩ := okDay_iff.mp h
            refine Or.inr (okDay_iff.mpr ⟨row', ?_, hstatus'⟩)
            rw [row_append, if_neg fun hin => hsame (hin.2.symm.trans hday)]
            exact hrow'
    next _ hnone =>
      obtain ⟨hderived, hslice, hlog, hothers, hok⟩ := ih dest
      refine ⟨hderived, hslice, hlog, fun day' hday' => hothers day' fun hin => hday' (mem_cons_of_mem _ hin),
        fun hended hsrc day' h => ?_⟩
      obtain ⟨row', hrow', -⟩ := okDay_iff.mp (hsrc day mem_cons_self)
      rw [hnone] at hrow'; cases hrow'

variable {wanted : List ℤ}

theorem decideMonth_wanted {C : Chunking ρ}
    (h : decideMonth C dataset month src start = .ok (.wanted wanted)) : wanted ≠ [] ∧
      ∀ day ∈ wanted, monthOf day = month ∧ okDay src dataset day = true ∧ okDay start dataset day = false := by
  dsimp only [decideMonth] at h
  split at h
  next => cases h
  split at h
  next => cases h
  split at h
  next => cases h
  split at h
  next => cases h
  obtain ⟨present, -, h⟩ := bind_eq_ok.mp h
  split at h
  next => cases h
  next hne =>
    cases h
    refine ⟨hne, fun day hday => ?_⟩
    obtain ⟨hok, hfresh⟩ := mem_filter.mp (mem_of_mem_filter hday)
    obtain ⟨-, hlisted⟩ := mem_filter.mp hok
    obtain ⟨hmonth, hsrc⟩ := Bool.and_eq_true_iff.mp hlisted
    refine ⟨of_decide_eq_true hmonth, hsrc, Bool.eq_false_iff.mpr fun hstart => ?_⟩
    exact of_decide_eq_true hfresh (mem_filter.mpr ⟨hok, hstart⟩)

/-- The partitions of an imported month: both kinds staged, the others as they were. -/
def PartsDone (C : Chunking ρ) (dataset : ArchiveDataset) (month : Month) (src start s : SymbolArchive ρ ρ)
    (wanted : List ℤ) : Prop :=
  decideMonth C dataset month src start = .ok (.wanted wanted) ∧ ∀ kind,
    (kind ∈ kindsOf dataset → ∃ rows, s.partition kind dataset month = some rows ∧
      StagedAs month wanted ((src.partition kind dataset month).getD [])
        (start.partition kind dataset month) rows) ∧
    (kind ∉ kindsOf dataset → s.partition kind dataset month = start.partition kind dataset month)

def PartsSame (dataset : ArchiveDataset) (month : Month) (start s : SymbolArchive ρ ρ) : Prop :=
  ∀ kind, s.partition kind dataset month = start.partition kind dataset month

def MonthSame (dataset : ArchiveDataset) (month : Month) (start s : SymbolArchive ρ ρ) : Prop :=
  PartsSame dataset month start s ∧ ∀ day, monthOf day = month → s.row dataset day = start.row dataset day

def MonthMerged (C : Chunking ρ) (dataset : ArchiveDataset) (month : Month)
    (src start s : SymbolArchive ρ ρ) : Prop :=
  (∃ wanted, PartsDone C dataset month src start s wanted ∧ (∀ day ∈ wanted, okDay s dataset day = true) ∧
    ∀ day, monthOf day = month → day ∉ wanted → s.row dataset day = start.row dataset day) ∨
  ((∀ wanted, decideMonth C dataset month src start ≠ .ok (.wanted wanted)) ∧ MonthSame dataset month start s)

def MonthStopped (C : Chunking ρ) (dataset : ArchiveDataset) (month : Month)
    (src start s : SymbolArchive ρ ρ) : Prop :=
  PartsSame dataset month start s ∨ ∃ wanted, PartsDone C dataset month src start s wanted

structure MonthFrame (dataset : ArchiveDataset) (month : Month) (dest s : SymbolArchive ρ ρ) : Prop where
  parts : ∀ kind dataset' month', ¬ (dataset' = dataset ∧ month' = month) →
    s.partition kind dataset' month' = dest.partition kind dataset' month'
  log : ∀ dataset', dataset' ≠ dataset → s.log dataset' = dest.log dataset'
  rows : ∀ day, monthOf day ≠ month → s.row dataset day = dest.row dataset day

omit [Timed ρ] in
theorem MonthFrame.refl (dataset : ArchiveDataset) (month : Month) (s : SymbolArchive ρ ρ) :
    MonthFrame dataset month s s :=
  ⟨fun _ _ _ _ => rfl, fun _ _ => rfl, fun _ _ => rfl⟩

omit [Timed ρ] in
theorem MonthSame.refl (dataset : ArchiveDataset) (month : Month) (s : SymbolArchive ρ ρ) :
    MonthSame dataset month s s :=
  ⟨fun _ => rfl, fun _ _ => rfl⟩

omit [Timed ρ] in
theorem MonthSame.trans {s₁ s₂ s₃ : SymbolArchive ρ ρ} (h : MonthSame dataset month s₁ s₂)
    (h' : MonthSame dataset month s₂ s₃) : MonthSame dataset month s₁ s₃ :=
  ⟨fun kind => (h'.1 kind).trans (h.1 kind), fun day hday => (h'.2 day hday).trans (h.2 day hday)⟩

variable {s s' : SymbolArchive ρ ρ}

omit [Timed ρ] in
theorem MonthFrame.append {days : List ℤ} {ended : Prop}
    (h : MonthFrame dataset month dest s) (hrows : RowsAppended dataset days src s s' ended)
    (hdays : ∀ day ∈ days, monthOf day = month) : MonthFrame dataset month dest s' where
  parts kind dataset' month' hout := by
    rw [← h.parts kind dataset' month' hout]
    cases kind
    · exact congrFun (congrFun hrows.derived dataset') month'
    · exact congrFun (congrFun hrows.slice dataset') month'
  log dataset' hne := (hrows.log dataset' hne).trans (h.log dataset' hne)
  rows day hne := (hrows.others day fun hin => hne (hdays day hin)).trans (h.rows day hne)

theorem PartsDone.of_partitions {C : Chunking ρ}
    (h : PartsDone C dataset month src start s wanted) (hderived : s'.derived = s.derived)
    (hslice : s'.slice = s.slice) :
    PartsDone C dataset month src start s' wanted := by
  have hparts : ∀ kind, s'.partition kind dataset month = s.partition kind dataset month := by
    intro kind
    cases kind
    · exact congrFun (congrFun hderived dataset) month
    · exact congrFun (congrFun hslice dataset) month
  refine ⟨h.1, fun kind => ?_⟩
  rw [hparts]; exact h.2 kind

theorem kindsOf_nodup (dataset : ArchiveDataset) : (kindsOf dataset).Nodup := by
  cases dataset <;> decide

theorem partsDone_putAll (hsame : PartsSame dataset month start dest)
    (hdecide : decideMonth env.chunking dataset month src start = .ok (.wanted wanted))
    {staged : List (PartitionKind × List ρ)}
    (hstaged : (kindsOf dataset).mapM (stageKind env dataset symbol month wanted src dest) = .ok staged) :
    (staged.map fst).Nodup ∧
      PartsDone env.chunking dataset month src start (putAll dataset month dest staged) wanted := by
  have hpairs := forall₂_of_mapM_eq_ok hstaged
  have hkinds : staged.map fst = kindsOf dataset := by
    have hsame : List.Forall₂ (fun kind kind' => kind = kind') (kindsOf dataset) (staged.map fst) :=
      forall₂_map_right_iff.mpr (hpairs.imp fun _ _ h => (stageKind_ok h).1.symm)
    rw [forall₂_eq_eq_eq] at hsame; exact hsame.symm
  have hnodup : (staged.map fst).Nodup := hkinds ▸ kindsOf_nodup dataset
  refine ⟨hnodup, hdecide, fun kind => ⟨fun hkind => ?_, fun hkind => ?_⟩⟩
  · rw [← hkinds] at hkind
    obtain ⟨t, ht, rfl⟩ := mem_map.mp hkind
    refine ⟨t.2, (partition_putAll hnodup dest t.1 dataset month).1 ⟨rfl, rfl⟩ t.2 ht, ?_⟩
    obtain ⟨kind', -, hkind'⟩ := mem_of_mapM_eq_ok hstaged t ht
    obtain ⟨rfl, hrows⟩ := stageKind_ok hkind'
    rw [← hsame]; exact hrows
  · rw [(partition_putAll hnodup dest kind dataset month).2 fun h => hkind (hkinds ▸ h.2.2)]
    exact hsame kind

/-- **One month**: an import that goes on merged the month or left it; one that stops left or
replaced its partitions. -/
theorem importMonth_spec (env : ImportEnv ρ) (symbol : String) (src : SymbolArchive ρ ρ)
    (hsame : MonthSame dataset month start dest)
    (report : ImportReport) : MonthFrame dataset month dest
    (importMonth env dataset symbol month src start dest report).2 ∧
      ((∃ report', (importMonth env dataset symbol month src start dest report).1 = .ok report') →
        MonthMerged env.chunking dataset month src start
          (importMonth env dataset symbol month src start dest report).2) ∧
      MonthStopped env.chunking dataset month src start
        (importMonth env dataset symbol month src start dest report).2 := by
  -- a month of which nothing is wanted stays as it is, whatever was decided
  have hkept : ∀ {decision : MonthDecision}, decideMonth env.chunking dataset month src start = .ok decision →
      (∀ wanted, decision ≠ .wanted wanted) → MonthMerged env.chunking dataset month src start dest := by
    intro decision hdecision hnot
    refine Or.inr ⟨fun wanted hwanted => ?_, hsame⟩
    rw [hdecision] at hwanted; cases hwanted; exact hnot wanted rfl
  have hstopped : MonthStopped env.chunking dataset month src start dest := Or.inl hsame.1
  cases hdecide : decideMonth env.chunking dataset month src start with
  | error e =>
    simp only [importMonth, hdecide]
    exact ⟨MonthFrame.refl _ _ _, (fun h => by obtain ⟨_, h⟩ := h; cases h), hstopped⟩
  | ok decision =>
    cases decision with
    | skippedSealed n | skippedConflict n | nothing =>
      simp only [importMonth, hdecide]
      exact ⟨MonthFrame.refl _ _ _, fun _ => hkept hdecide nofun, hstopped⟩
    | wanted wanted =>
      obtain ⟨-, hdays⟩ := decideMonth_wanted hdecide
      cases hstage : (kindsOf dataset).mapM (stageKind env dataset symbol month wanted src dest) with
      | error e =>
        simp only [importMonth, hdecide, hstage]
        exact ⟨MonthFrame.refl _ _ _, (fun h => by obtain ⟨_, h⟩ := h; cases h), hstopped⟩
      | ok staged =>
        obtain ⟨hnodup, hdone⟩ := partsDone_putAll hsame.1 hdecide hstage
        rcases @commitStaged_spec ρ dataset month staged hnodup (env.replaceFails dataset symbol month) dest with
          hcommit | ⟨e, s, hcommit, hlog, hparts⟩
        · -- the partitions are replaced; the rows of the log follow one by one
          have hrows := @appendRows_spec ρ dataset env symbol src (wanted.insertionSort (· ≤ ·))
            (putAll dataset month dest staged)
          have hput : MonthFrame dataset month dest (putAll dataset month dest staged) := by
            refine ⟨fun kind dataset' month' hout => ?_, fun _ _ => by rw [log_putAll], fun day _ => ?_⟩
            · exact (partition_putAll hnodup dest kind dataset' month').2 fun h => hout ⟨h.1, h.2.1⟩
            · rw [SymbolArchive.row, SymbolArchive.row, log_putAll]
          have hframe := hput.append hrows fun day hday => (hdays day ((mem_insertionSort _).mp hday)).1
          have hdone' := hdone.of_partitions hrows.derived hrows.slice
          cases happend : appendRows env dataset symbol src (wanted.insertionSort (· ≤ ·))
              (putAll dataset month dest staged) with
          | mk answer s =>
            rw [happend] at hrows hframe hdone'
            cases answer with
            | error e =>
              simp only [importMonth, hdecide, hstage, hcommit, happend]
              exact ⟨hframe, (fun h => by obtain ⟨_, h⟩ := h; cases h), Or.inr ⟨wanted, hdone'⟩⟩
            | ok u =>
              simp only [importMonth, hdecide, hstage, hcommit, happend]
              refine ⟨hframe, fun _ => Or.inl ⟨wanted, hdone', fun day hday => ?_, fun day hmonth hout => ?_⟩,
                Or.inr ⟨wanted, hdone'⟩⟩
              · exact hrows.ok rfl (fun day hday => (hdays day ((mem_insertionSort _).mp hday)).2.1) day
                  (Or.inl ((mem_insertionSort _).mpr hday))
              · rw [hrows.others day fun hin => hout ((mem_insertionSort _).mp hin), SymbolArchive.row,
                  log_putAll]
                exact hsame.2 day hmonth
        · -- a replacement that fails undoes the ones before it
          simp only [importMonth, hdecide, hstage, hcommit]
          have hrow : ∀ day, s.row dataset day = dest.row dataset day := by
            intro day
            rw [SymbolArchive.row, SymbolArchive.row, hlog]
          refine ⟨⟨fun kind dataset' month' _ => hparts kind dataset' month', fun _ _ => by rw [hlog],
            fun day _ => hrow day⟩, (fun h => by obtain ⟨_, h⟩ := h; cases h), Or.inl fun kind => ?_⟩
          rw [hparts]; exact hsame.1 kind

end Month

/-! ## The loops -/

section Loops

variable {env : ImportEnv ρ} {dataset : ArchiveDataset} {src start dest : String → SymbolArchive ρ ρ}

variable (archive : String → SymbolArchive ρ ρ)

omit [Timed ρ] in
theorem setArchive_self (symbol : String) (s : SymbolArchive ρ ρ) : setArchive archive symbol s symbol = s :=
  Function.update_self ..

omit [Timed ρ] in
theorem setArchive_other {symbol symbol' : String} (s : SymbolArchive ρ ρ)
    (h : symbol' ≠ symbol) : setArchive archive symbol s symbol' = archive symbol' :=
  Function.update_of_ne h ..

omit [Timed ρ] in
theorem MonthFrame.other {symbol symbol' : String} {month month' : Month} {s : SymbolArchive ρ ρ}
    (h : MonthFrame dataset month (dest symbol) s) (hne : (symbol', month') ≠ (symbol, month)) :
    MonthSame dataset month' (dest symbol') (setArchive dest symbol s symbol') := by
  by_cases hsymbol : symbol' = symbol
  · subst hsymbol
    have hmonth : month' ≠ month := fun heq => hne (by rw [heq])
    rw [setArchive_self]
    exact ⟨fun kind => h.parts kind dataset month' fun heq => hmonth heq.2,
      fun day hday => h.rows day fun heq => hmonth (hday.symm.trans heq)⟩
  · rw [setArchive_other _ _ hsymbol]; exact MonthSame.refl _ _ _

variable {C : Chunking ρ}

theorem MonthMerged.of_same {month : Month} {src start s s' : SymbolArchive ρ ρ}
    (h : MonthMerged C dataset month src start s) (hsame : MonthSame dataset month s s') :
    MonthMerged C dataset month src start s' := by
  rcases h with ⟨wanted, ⟨hdecide, hparts⟩, hok, hrows⟩ | ⟨hnot, hkept⟩
  · refine Or.inl ⟨wanted, ⟨hdecide, fun kind => ?_⟩, fun day hday => ?_, fun day hmonth hout =>
      (hsame.2 day hmonth).trans (hrows day hmonth hout)⟩
    · rw [hsame.1 kind]; exact hparts kind
    · obtain ⟨row, hrow, hstatus⟩ := okDay_iff.mp (hok day hday)
      have hmonth := ((decideMonth_wanted hdecide).2 day hday).1
      exact okDay_iff.mpr ⟨row, (hsame.2 day hmonth).trans hrow, hstatus⟩
  · exact Or.inr ⟨hnot, hkept.trans hsame⟩

theorem MonthStopped.of_same {month : Month} {src start s s' : SymbolArchive ρ ρ}
    (h : MonthStopped C dataset month src start s) (hsame : PartsSame dataset month s s') :
    MonthStopped C dataset month src start s' := by
  rcases h with hkept | ⟨wanted, hdecide, hparts⟩
  · exact Or.inl fun kind => (hsame kind).trans (hkept kind)
  · refine Or.inr ⟨wanted, hdecide, fun kind => ?_⟩
    rw [hsame kind]; exact hparts kind

structure MonthsImported (C : Chunking ρ) (dataset : ArchiveDataset) (groups : List (String × Month))
    (src start dest final : String → SymbolArchive ρ ρ) (ended : Prop) : Prop where
  merged : ended → ∀ g ∈ groups, MonthMerged C dataset g.2 (src g.1) (start g.1) (final g.1)
  stopped : ∀ g ∈ groups, MonthStopped C dataset g.2 (src g.1) (start g.1) (final g.1)
  others : ∀ symbol month, (symbol, month) ∉ groups → MonthSame dataset month (dest symbol) (final symbol)
  datasets : ∀ dataset' ≠ dataset, ∀ symbol, (final symbol).derived dataset' = (dest symbol).derived dataset' ∧
    (final symbol).slice dataset' = (dest symbol).slice dataset' ∧
    (final symbol).log dataset' = (dest symbol).log dataset'

/-- **The months of a dataset.** -/
theorem importMonths_spec (env : ImportEnv ρ) (dataset : ArchiveDataset) (src start : String → SymbolArchive ρ ρ)
    {groups : List (String × Month)} (hnodup : groups.Nodup) (dest : String → SymbolArchive ρ ρ)
    (hsame : ∀ g ∈ groups, MonthSame dataset g.2 (start g.1) (dest g.1)) (report : ImportReport) :
    MonthsImported env.chunking dataset groups src start dest
      (importMonths env dataset src start groups dest report).2
      (∃ report', (importMonths env dataset src start groups dest report).1 = .ok report') := by
  induction groups generalizing dest report with
  | nil =>
    exact { merged := fun _ => nofun, stopped := nofun, others := fun _ _ _ => MonthSame.refl _ _ _
            datasets := fun _ _ _ => ⟨rfl, rfl, rfl⟩ }
  | cons g groups ih =>
    obtain ⟨symbol, month⟩ := g
    obtain ⟨hfresh, hnodup⟩ := nodup_cons.mp hnodup
    obtain ⟨hframe, hmerged, hstopped⟩ := importMonth_spec env symbol (src symbol)
      (hsame (symbol, month) mem_cons_self) report
    have hdatasets : ∀ s, MonthFrame dataset month (dest symbol) s → ∀ dataset' ≠ dataset, ∀ symbol',
        (setArchive dest symbol s symbol').derived dataset' = (dest symbol').derived dataset' ∧
          (setArchive dest symbol s symbol').slice dataset' = (dest symbol').slice dataset' ∧
          (setArchive dest symbol s symbol').log dataset' = (dest symbol').log dataset' := by
      intro s hs dataset' hne symbol'
      by_cases hsymbol : symbol' = symbol
      · subst hsymbol
        rw [setArchive_self]
        exact ⟨funext fun month' => hs.parts .derived dataset' month' fun h => hne h.1,
          funext fun month' => hs.parts .slice dataset' month' fun h => hne h.1, hs.log dataset' hne⟩
      · rw [setArchive_other _ _ hsymbol]; exact ⟨rfl, rfl, rfl⟩
    cases hmonth : importMonth env dataset symbol month (src symbol) (start symbol) (dest symbol) report with
    | mk answer s =>
      rw [hmonth] at hframe hmerged hstopped
      have hrest : ∀ g ∈ groups, MonthSame dataset g.2 (start g.1) (setArchive dest symbol s g.1) := by
        intro g hg
        refine (hsame g (mem_cons_of_mem _ hg)).trans (hframe.other fun heq => hfresh ?_)
        rw [← heq]; exact hg
      cases answer with
      | error e =>
        simp only [importMonths, hmonth]
        refine ⟨(fun h => by obtain ⟨_, h⟩ := h; cases h), fun g hg => ?_, fun symbol' month' hout => ?_,
          hdatasets s hframe⟩
        · rcases mem_cons.mp hg with rfl | hg
          · rw [setArchive_self]; exact hstopped
          · exact Or.inl (hrest g hg).1
        · exact hframe.other fun heq => hout (heq ▸ mem_cons_self)
      | ok report' =>
        simp only [importMonths, hmonth]
        obtain ⟨hmerged', hstopped', hothers', hdatasets'⟩ := ih hnodup (setArchive dest symbol s) hrest report'
        have hhead := hothers' symbol month hfresh
        rw [setArchive_self] at hhead
        refine ⟨fun hended g hg => ?_, fun g hg => ?_, fun symbol' month' hout =>
          ?_, fun dataset' hne symbol' => ?_⟩
        · rcases mem_cons.mp hg with rfl | hg
          · exact (hmerged ⟨report', rfl⟩).of_same hhead
          · exact hmerged' hended g hg
        · rcases mem_cons.mp hg with rfl | hg
          · exact hstopped.of_same hhead.1
          · exact hstopped' g hg
        · refine MonthSame.trans (hframe.other fun heq => hout (heq ▸ mem_cons_self)) ?_
          exact hothers' symbol' month' fun hin => hout (mem_cons_of_mem _ hin)
        · obtain ⟨h₁, h₂, h₃⟩ := hdatasets' dataset' hne symbol'
          obtain ⟨h₁', h₂', h₃'⟩ := hdatasets s hframe dataset' hne symbol'
          exact ⟨h₁.trans h₁', h₂.trans h₂', h₃.trans h₃'⟩

omit [Timed ρ] in
def SameDataset (dataset : ArchiveDataset) (s s' : SymbolArchive ρ ρ) : Prop :=
  s'.derived dataset = s.derived dataset ∧ s'.slice dataset = s.slice dataset ∧ s'.log dataset = s.log dataset

variable {s s' : SymbolArchive ρ ρ}

omit [Timed ρ] in
theorem SameDataset.month (h : SameDataset dataset s s') (month : Month) : MonthSame dataset month s s' := by
  refine ⟨fun kind => ?_, fun day _ => ?_⟩
  · cases kind
    · exact congrFun h.1 month
    · exact congrFun h.2.1 month
  · rw [SymbolArchive.row, SymbolArchive.row, h.2.2]

theorem decideMonth_congr (C : Chunking ρ) (month : Month) (src : SymbolArchive ρ ρ)
    (h : SameDataset dataset s s') : decideMonth C dataset month src s' = decideMonth C dataset month src s := by
  have hrow : ∀ day, s'.row dataset day = s.row dataset day := fun day => by
    rw [SymbolArchive.row, SymbolArchive.row, h.2.2]
  have hok : ∀ day, okDay s' dataset day = okDay s dataset day := fun day => by rw [okDay, okDay, hrow]
  have hsealed : ∀ kind, sealedMonths s' dataset kind month = sealedMonths s dataset kind month := by
    intro kind
    rw [sealedMonths.eq_def, sealedMonths.eq_def, h.1, h.2.1, h.2.2]; simp only [hrow]
  simp only [decideMonth, hsealed, hok, hrow]

theorem MonthMerged.of_start {month : Month} {src s s' final : SymbolArchive ρ ρ}
    (h : MonthMerged C dataset month src s' final) (hsame : SameDataset dataset s s') :
    MonthMerged C dataset month src s final := by
  have hparts := (hsame.month month).1
  have hrows := (hsame.month month).2
  rcases h with ⟨wanted, ⟨hdecide, hkinds⟩, hok, hothers⟩ | ⟨hnot, hkept⟩
  · refine Or.inl ⟨wanted, ⟨(decideMonth_congr C month src hsame).symm.trans hdecide, fun kind => ?_⟩, hok,
      fun day hmonth hout => (hothers day hmonth hout).trans (hrows day hmonth)⟩
    rw [← hparts kind]; exact hkinds kind
  · exact Or.inr ⟨fun wanted => decideMonth_congr C month src hsame ▸ hnot wanted, (hsame.month month).trans hkept⟩

theorem MonthStopped.of_start {month : Month} {src s s' final : SymbolArchive ρ ρ}
    (h : MonthStopped C dataset month src s' final) (hsame : SameDataset dataset s s') :
    MonthStopped C dataset month src s final := by
  have hparts := (hsame.month month).1
  rcases h with hkept | ⟨wanted, hdecide, hkinds⟩
  · exact Or.inl fun kind => (hkept kind).trans (hparts kind)
  · refine Or.inr ⟨wanted, (decideMonth_congr C month src hsame).symm.trans hdecide, fun kind => ?_⟩
    rw [← hparts kind]; exact hkinds kind

omit [Timed ρ] in
theorem importGroups_nodup (source : ArchiveRoot ρ) (dataset : ArchiveDataset) :
    (importGroups source dataset).Nodup := by
  refine nodup_flatMap.mpr ⟨fun symbol _ => ?_, ?_⟩
  · refine List.Nodup.map (fun _ _ h => congrArg snd h) ?_
    exact (perm_insertionSort _ _).nodup_iff.mpr (nodup_dedup _)
  · have hsymbols : ((okSymbols source dataset).insertionSort (· ≤ ·)).Nodup :=
      (perm_insertionSort _ _).nodup_iff.mpr ((nodup_dedup _).filter _)
    refine hsymbols.imp fun {symbol symbol'} hne g hg hg' => hne ?_
    obtain ⟨month, -, rfl⟩ := mem_map.mp hg
    obtain ⟨month', -, heq⟩ := mem_map.mp hg'; exact (congrArg fst heq).symm

theorem mem_importGroups {source : ArchiveRoot ρ} {symbol : String} {month : Month}
    {start : SymbolArchive ρ ρ} {wanted : List ℤ}
    (h : decideMonth C dataset month (source.archive symbol) start = .ok (.wanted wanted)) :
    (symbol, month) ∈ importGroups source dataset := by
  obtain ⟨hne, hdays⟩ := decideMonth_wanted h
  obtain ⟨day, hday⟩ := exists_mem_of_ne_nil wanted hne
  obtain ⟨hmonth, hok, -⟩ := hdays day hday
  obtain ⟨row, hrow, -⟩ := okDay_iff.mp hok
  have hlog : row ∈ (source.archive symbol).log dataset := mem_of_mem_filter (mem_of_getLast? hrow)
  have hrowDay : row.day = day := day_of_row hrow
  have hsymbol : symbol ∈ source.symbols := by
    by_contra hout
    rw [source.covered symbol hout dataset] at hlog; cases hlog
  refine mem_flatMap.mpr ⟨symbol, ?_, mem_map_of_mem ?_⟩
  · rw [mem_insertionSort]
    refine mem_filter.mpr ⟨mem_dedup.mpr hsymbol, any_eq_true.mpr ⟨row, hlog, ?_⟩⟩
    rw [hrowDay]; exact hok
  · rw [okMonths, mem_insertionSort, mem_dedup, mem_map]
    refine ⟨day, mem_filter.mpr ⟨?_, hok⟩, hmonth⟩; exact mem_map.mpr ⟨row, hlog, hrowDay⟩

structure DatasetsImported (C : Chunking ρ) (datasets : List ArchiveDataset)
    (src dest final : String → SymbolArchive ρ ρ) (ended : Prop) : Prop where
  merged : ended → ∀ dataset ∈ datasets, ∀ symbol month,
    MonthMerged C dataset month (src symbol) (dest symbol) (final symbol)
  stopped : ∀ dataset ∈ datasets, ∀ symbol month,
    MonthStopped C dataset month (src symbol) (dest symbol) (final symbol)
  others : ∀ dataset ∉ datasets, ∀ symbol, SameDataset dataset (dest symbol) (final symbol)

/-- **All datasets.** -/
theorem importDatasets_spec (env : ImportEnv ρ) (source : ArchiveRoot ρ) {datasets : List ArchiveDataset}
    (hnodup : datasets.Nodup) (dest : String → SymbolArchive ρ ρ) (report : ImportReport) :
    DatasetsImported env.chunking datasets source.archive dest (importDatasets env source datasets dest report).2
      (∃ report', (importDatasets env source datasets dest report).1 = .ok report') := by
  induction datasets generalizing dest report with
  | nil => exact ⟨fun _ => nofun, nofun, fun _ _ _ => ⟨rfl, rfl, rfl⟩⟩
  | cons dataset datasets ih =>
    obtain ⟨hfresh, hnodup⟩ := nodup_cons.mp hnodup
    have hidle : DatasetsImported env.chunking (dataset :: datasets) source.archive dest dest False :=
      ⟨False.elim, fun _ _ _ _ => Or.inl fun _ => rfl, fun _ _ _ => ⟨rfl, rfl, rfl⟩⟩
    cases hinvalid : (okSymbols source dataset).find? fun symbol => !validArchiveSymbol symbol with
    | some symbol =>
      simp only [importDatasets, hinvalid]
      exact ⟨(fun h => by obtain ⟨_, h⟩ := h; cases h), hidle.stopped, hidle.others⟩
    | none =>
      have hmonths := importMonths_spec env dataset source.archive dest (importGroups_nodup source dataset) dest
        (fun _ _ => MonthSame.refl _ _ _) report
      cases hloop : importMonths env dataset source.archive dest (importGroups source dataset) dest report with
      | mk answer dest' =>
        rw [hloop] at hmonths
        have hothers : ∀ dataset' ≠ dataset, ∀ symbol, SameDataset dataset' (dest symbol) (dest' symbol) :=
          hmonths.datasets
        have hstopped : ∀ symbol month,
            MonthStopped env.chunking dataset month (source.archive symbol) (dest symbol) (dest' symbol) := by
          intro symbol month
          by_cases hg : (symbol, month) ∈ importGroups source dataset
          · exact hmonths.stopped _ hg
          · exact Or.inl (hmonths.others symbol month hg).1
        cases answer with
        | error e =>
          simp only [importDatasets, hinvalid, hloop]
          refine ⟨(fun h => by obtain ⟨_, h⟩ := h; cases h), fun dataset' hin symbol month => ?_,
            fun dataset' hout symbol => hothers dataset' (fun heq => hout (heq ▸ mem_cons_self)) symbol⟩
          rcases mem_cons.mp hin with rfl | hin
          · exact hstopped symbol month
          · exact Or.inl ((hothers dataset' (fun heq => hfresh (heq ▸ hin)) symbol).month month).1
        | ok report' =>
          simp only [importDatasets, hinvalid, hloop]
          obtain ⟨hmerged', hstopped', hothers'⟩ := ih hnodup dest' report'
          have hlater : ∀ symbol, SameDataset dataset (dest' symbol)
              ((importDatasets env source datasets dest' report').2 symbol) := hothers' dataset hfresh
          refine ⟨fun hended dataset' hin symbol month => ?_, fun dataset' hin symbol month => ?_,
            fun dataset' hout symbol => ?_⟩
          · rcases mem_cons.mp hin with rfl | hin
            · refine MonthMerged.of_same ?_ ((hlater symbol).month month)
              by_cases hg : (symbol, month) ∈ importGroups source dataset'
              · exact hmonths.merged ⟨report', rfl⟩ _ hg
              · exact Or.inr ⟨fun wanted hwanted => hg (mem_importGroups hwanted), hmonths.others symbol month hg⟩
            · exact (hmerged' hended dataset' hin symbol month).of_start
                (hothers dataset' (fun heq => hfresh (heq ▸ hin)) symbol)
          · rcases mem_cons.mp hin with rfl | hin
            · exact (hstopped symbol month).of_same ((hlater symbol).month month).1
            · exact (hstopped' dataset' hin symbol month).of_start
                (hothers dataset' (fun heq => hfresh (heq ▸ hin)) symbol)
          · obtain ⟨h₁, h₂, h₃⟩ := hothers' dataset' (fun hin => hout (mem_cons_of_mem _ hin)) symbol
            obtain ⟨h₁', h₂', h₃'⟩ := hothers dataset' (fun heq => hout (heq ▸ mem_cons_self)) symbol
            exact ⟨h₁.trans h₁', h₂.trans h₂', h₃.trans h₃'⟩

end Loops

/-! ## What an import means by day -/

section Days

variable (env : ImportEnv ρ) (source dest : ArchiveRoot ρ) (datasets : List ArchiveDataset)

/-- The day was not `ok` before and is now. -/
def NewlyOk (dataset : ArchiveDataset) (day : ℤ) (dest final : SymbolArchive ρ ρ) : Prop :=
  okDay final dataset day = true ∧ okDay dest dataset day = false

def rowsOn (s : SymbolArchive ρ ρ) (kind : PartitionKind) (dataset : ArchiveDataset) (day : ℤ) : List ρ :=
  onDay day ((s.partition kind dataset (monthOf day)).getD [])

/-- Newly recorded days hold the rows of the source, others what they held. -/
def DaysMerged (source dest final : String → SymbolArchive ρ ρ) : Prop :=
  ∀ symbol dataset day kind,
    (NewlyOk dataset day (dest symbol) (final symbol) → kind ∈ kindsOf dataset →
      rowsOn (final symbol) kind dataset day = rowsOn (source symbol) kind dataset day) ∧
    (¬ (NewlyOk dataset day (dest symbol) (final symbol) ∧ kind ∈ kindsOf dataset) →
      rowsOn (final symbol) kind dataset day = rowsOn (dest symbol) kind dataset day)

def AllOrNothing (C : Chunking ρ) (source dest final : String → SymbolArchive ρ ρ) : Prop :=
  ∀ dataset symbol month, MonthStopped C dataset month (source symbol) (dest symbol) (final symbol)

/-- An import merges days: when it returns, by day, and when it raises, month by month. -/
def ImportMergesDays : Prop :=
  match (importArchive env source dest datasets).1 with
  | .ok _ => DaysMerged source.archive dest.archive (importArchive env source dest datasets).2
  | .error _ => AllOrNothing env.chunking source.archive dest.archive (importArchive env source dest datasets).2

def CopiesWholeDays : Prop :=
  ∀ dataset ∈ datasets, ∀ symbol month wanted,
    decideMonth env.chunking dataset month (source.archive symbol) (dest.archive symbol) = .ok (.wanted wanted) →
      ∀ kind ∈ kindsOf dataset, (dest.archive symbol).partition kind dataset month = none →
        ∀ r ∈ ((source.archive symbol).partition kind dataset month).getD [], rowDay r ∈ wanted

theorem importArchive_spec : DatasetsImported env.chunking datasets source.archive dest.archive
    (importArchive env source dest datasets).2 (∃ report,
      (importArchive env source dest datasets).1 = .ok report) := by
  have h := importDatasets_spec env source (nodup_eraseDups datasets) dest.archive ⟨0, 0, 0, 0, 0⟩
  exact ⟨fun hended dataset hin => h.merged hended dataset (mem_eraseDups.mpr hin),
    fun dataset hin => h.stopped dataset (mem_eraseDups.mpr hin),
    fun dataset hout => h.others dataset fun hin => hout (mem_eraseDups.mp hin)⟩

variable {s s' : SymbolArchive ρ ρ}

omit [Timed ρ] in
theorem not_newlyOk_of_row {dataset : ArchiveDataset} {day : ℤ}
    (h : s'.row dataset day = s.row dataset day) : ¬ NewlyOk dataset day s s' := by
  rintro ⟨hnew, hold⟩
  rw [okDay, h] at hnew
  rw [okDay, hnew] at hold; cases hold

theorem rowsOn_of_same {dataset : ArchiveDataset} {day : ℤ}
    (h : PartsSame dataset (monthOf day) s s') (kind : PartitionKind) :
    rowsOn s' kind dataset day = rowsOn s kind dataset day := by
  rw [rowsOn, h kind, rowsOn]

/-- An import merges days exactly when the partitions it copies have rows of the imported days only.
-/
theorem import_merges_days_iff : ImportMergesDays env source dest datasets ↔
    ((∃ report, (importArchive env source dest datasets).1 = .ok report) →
      CopiesWholeDays env source dest datasets) := by
  obtain ⟨hmerged, hstopped, hothers⟩ := importArchive_spec env source dest datasets
  rw [ImportMergesDays]
  cases hanswer : (importArchive env source dest datasets).1 with
  | error e =>
    refine iff_of_true (fun dataset symbol month => ?_) ?_
    · by_cases hin : dataset ∈ datasets
      · exact hstopped dataset hin symbol month
      · exact Or.inl ((hothers dataset hin symbol).month month).1
    · rintro ⟨report, h⟩; cases h
  | ok report =>
    have hmerged := hmerged ⟨report, hanswer⟩
    constructor
    · -- a row of another day would be a row of a day that was not imported
      intro hdays _ dataset hin symbol month wanted hdecide kind hkind hnone r hr
      rcases hmerged dataset hin symbol month with ⟨wanted', ⟨hdecide', hparts⟩, -, hrows⟩ | ⟨hnot, -⟩
      · rw [hdecide] at hdecide'
        cases hdecide'
        obtain ⟨rows, hfinal, hstaged⟩ := (hparts kind).1 hkind
        by_contra hout
        have hmonth : monthOf (rowDay r) = month := hstaged.inMonth r hr
        have hrow := hrows (rowDay r) hmonth hout
        have hsame := (hdays symbol dataset (rowDay r) kind).2 fun h => not_newlyOk_of_row hrow h.1
        rw [rowsOn, rowsOn, hmonth, hfinal, hnone, hstaged.copied hnone] at hsame
        have hmem : r ∈ onDay (rowDay r) (((source.archive symbol).partition kind dataset month).getD []) :=
          mem_filter.mpr ⟨hr, decide_eq_true rfl⟩
        rw [show onDay (rowDay r) (((source.archive symbol).partition kind dataset month).getD []) = [] from hsame]
          at hmem
        cases hmem
      · exact absurd hdecide (hnot wanted)
    · intro hcopies symbol dataset day kind
      have hcopies := hcopies ⟨report, rfl⟩
      by_cases hin : dataset ∈ datasets
      · rcases hmerged dataset hin symbol (monthOf day) with ⟨wanted, ⟨hdecide, hparts⟩, hok, hrows⟩ | ⟨-, hsame⟩
        · by_cases hday : day ∈ wanted
          · have hnew : NewlyOk dataset day (dest.archive symbol)
              ((importArchive env source dest datasets).2 symbol) :=
              ⟨hok day hday, ((decideMonth_wanted hdecide).2 day hday).2.2⟩
            refine ⟨fun _ hkind => ?_, fun hnot => ?_⟩
            · obtain ⟨rows, hfinal, hstaged⟩ := (hparts kind).1 hkind
              rw [rowsOn, hfinal]
              cases hdest : (dest.archive symbol).partition kind dataset (monthOf day) with
              | some existing => exact (hstaged.merged existing hdest day).trans (if_pos hday)
              | none => exact congrArg (onDay day) (hstaged.copied hdest)
            · rw [rowsOn, (hparts kind).2 fun hkind => hnot ⟨hnew, hkind⟩, rowsOn]
          · have hold := not_newlyOk_of_row (hrows day rfl hday)
            refine ⟨fun hnew => absurd hnew hold, fun _ => ?_⟩
            by_cases hkind : kind ∈ kindsOf dataset
            · obtain ⟨rows, hfinal, hstaged⟩ := (hparts kind).1 hkind
              rw [rowsOn, hfinal, rowsOn]
              cases hdest : (dest.archive symbol).partition kind dataset (monthOf day) with
              | some existing => exact (hstaged.merged existing hdest day).trans (if_neg hday)
              | none =>
                -- the copied rows lie on other days
                refine (congrArg (onDay day) (hstaged.copied hdest)).trans ?_
                refine filter_eq_nil_iff.mpr fun r hr heq => hday ?_
                rw [← of_decide_eq_true heq]
                exact hcopies dataset hin symbol _ wanted hdecide kind hkind hdest r hr
            · rw [rowsOn, (hparts kind).2 hkind, rowsOn]
        · exact ⟨fun hnew => absurd hnew (not_newlyOk_of_row (hsame.2 day rfl)), fun _ =>
            rowsOn_of_same hsame.1 kind⟩
      · have hsame := (hothers dataset hin symbol).month (monthOf day)
        exact ⟨fun hnew => absurd hnew (not_newlyOk_of_row (hsame.2 day rfl)), fun _ => rowsOn_of_same hsame.1 kind⟩

end Days

/-! ## A file with a day that is not `ok` -/

section Copied

def metricsRow (day : ℤ) (status : CoverageStatus) (rows : ℕ) : CoverageRow :=
  { dataset := "metrics", symbol := "BTCUSDT", day := day, status := status, rawSha256 := none, rows := rows
    recordedAt := some 0, detail := none }

/-- The first day of 2026 is `ok`, the second failed after its rows were written. -/
def partlyRecorded : SymbolArchive SampleRow SampleRow :=
  { (SymbolArchive.empty : SymbolArchive SampleRow SampleRow) with
    derived := fun _ month => if month = (2026, 1) then
      some [{ ms := 1767225600000, value := 1 }, { ms := 1767312000000, value := 2 }] else none
    log := fun dataset => if dataset = .metrics then [metricsRow 20454 .ok 1, metricsRow 20455 .failed 0] else [] }

def partlyRecordedRoot : ArchiveRoot SampleRow where
  symbols := ["BTCUSDT"]
  archive symbol := if symbol = "BTCUSDT" then partlyRecorded else SymbolArchive.empty
  covered symbol hout dataset := by
    have hne : symbol ≠ "BTCUSDT" := fun heq => hout (mem_singleton.mpr heq)
    rw [if_neg hne]; rfl

def emptyRoot : ArchiveRoot SampleRow where
  symbols := []
  archive _ := SymbolArchive.empty
  covered _ _ _ := rfl

def importEnv : ImportEnv SampleRow where
  stagingFails _ _ _ _ := none
  replaceFails _ _ _ := none
  appendFails _ _ _ := none
  now _ _ _ := 0
  chunking := (sampleEnv 0).chunking

theorem failed_day_imported : ¬ ImportMergesDays importEnv partlyRecordedRoot emptyRoot [.metrics] := by
  have hreturns : (importArchive importEnv partlyRecordedRoot emptyRoot [.metrics]).1 = .ok ⟨1, 0, 0, 0, 1⟩ := by
    decide +kernel
  have hstatus : okDay ((importArchive importEnv partlyRecordedRoot emptyRoot [.metrics]).2
    "BTCUSDT") .metrics 20455
      = false := by decide +kernel
  have hrows : rowsOn ((importArchive importEnv partlyRecordedRoot emptyRoot [.metrics]).2
    "BTCUSDT") .derived .metrics
      20455 = [{ ms := 1767312000000, value := 2 }] := by decide +kernel
  rw [ImportMergesDays, hreturns]
  intro hdays
  have hkept := (hdays "BTCUSDT" .metrics 20455 .derived).2 fun h => by
    rw [NewlyOk, hstatus] at h; cases h.1.1
  rw [hrows] at hkept; exact absurd hkept (by decide +kernel)

end Copied

end CryptoPilot.Archive
