/- # DeployedWeights — the rolling weights files.

A weights frame has one row for each decision day.  `load_weights_frame` reads the file at the path
or, with a key, its sealed sibling; `append_weight_row` puts one more day into the frame and keeps
the youngest `keep_rows` rows.  Every durable write is one step of a script: it lands or not, and
then returns, raises or dies. -/
import Mathlib.Data.Rat.Defs
import Mathlib.Data.String.Basic
import CryptoPilot.Live.Bookkeeping

namespace CryptoPilot.Live

open CryptoPilot.Lib List

/-! ## Frames -/

/-- What a `DataIntegrityError` of the signal step is about. -/
inductive SignalFault where
  | weightsFrameCorrupt
  | weightsIndexNaive
  | sealedPathRequiresKey
  | weightsPathToken
  | accountEquity
  | source
  | decisionBarRequired (symbols : List String) (refreshIncomplete : Bool)
  | decisionBarCensus (missing census : ℕ)
  | noBookRow (day : ℤ)
  | settlementEvidence (symbol : String)
  | unitHistory
  | snapshotClose (symbol : String)
  | venueSnapshot
  | nonFiniteSizing (day : ℤ)
  | proxyClose (label : ℤ)
  | nonFiniteProxy (label : ℤ)
  deriving DecidableEq, Repr

/-- The exceptions of the signal step; `killed` is the death of the process. -/
inductive SignalExc where
  | killed
  | osError
  | causalityViolation (day : ℤ)
  | artifactSealError
  | zeroDivisionError
  | dataIntegrityError (fault : SignalFault)
  deriving DecidableEq, Repr

/-- A weights frame, one row for each day of its index. -/
structure WeightsFrame where
  columns : List String := []
  rows : List (ℤ × Dict ℚ) := []

namespace WeightsFrame

/-- `DataFrame.empty`: an axis without labels. -/
def empty (f : WeightsFrame) : Bool := f.rows.isEmpty || f.columns.isEmpty

def index (f : WeightsFrame) : List ℤ := f.rows.map Prod.fst

def sortIndex (f : WeightsFrame) : WeightsFrame :=
  { f with rows := f.rows.insertionSort fun r r' => r.1 ≤ r'.1 }

end WeightsFrame

/-- What is read from a file: a frame, or the error its content raises. -/
abbrev StoredFrame : Type := Except SignalExc WeightsFrame

/-- The two files of one artifact: the one at its path, and the one at the path with `.enc` added.
-/
structure Artifact where
  own : Option StoredFrame := none
  sibling : Option StoredFrame := none

/-- How artifacts are stored: does the path end in `.enc`, is there a key, and does the file name
carry the token that the name of the decision closes is made from. -/
structure ArtifactSettings where
  enc : Bool := false
  key : Bool := false
  token : Bool := true
  deriving DecidableEq, Repr

/-- The file that is read, and whether its name ends in `.enc`. -/
def Artifact.candidate (st : ArtifactSettings) (a : Artifact) : Option (Bool × StoredFrame) :=
  match a.own with
  | some file => some (st.enc, file)
  | none => if st.key then a.sibling.map fun file => (true, file) else none

def loadWeightsFrame (st : ArtifactSettings) (a : Artifact) : Except SignalExc WeightsFrame :=
  match a.candidate st with
  | none => .ok {}
  | some (enc, file) =>
    if enc ∧ ¬ st.key then .error .artifactSealError
    else do
      let frame ← file
      .ok (if frame.empty then frame else frame.sortIndex)

def keepRows : ℕ := 500

/-- The frame with one more row: column union, sorted by day, truncated to its youngest rows. -/
def withRow (frame : WeightsFrame) (dt : ℤ) (columns : List String) (row : Dict ℚ) : WeightsFrame :=
  let newFrame : WeightsFrame :=
    if frame.empty then { columns := columns, rows := [(dt, row)] }
    else
      WeightsFrame.sortIndex
        { columns := (frame.columns ++ columns).dedup.insertionSort (· ≤ ·)
          rows := frame.rows ++ [(dt, row)] }
  if keepRows < newFrame.rows.length then
    { newFrame with rows := newFrame.rows.drop (newFrame.rows.length - keepRows) }
  else newFrame

/-! ## The disk of the signal step -/

inductive ArtifactName where
  | weights
  | closes
  deriving DecidableEq, Repr

abbrev UnitSeries : Type := List (ℤ × ℚ)

structure StrategyStepReport where
  decisionDay : ℤ
  exposure : ℚ
  equityUsdt : ℚ
  grossWeight : ℚ
  names : ℕ
  unitObservations : ℕ
  posterior : Option (ℚ × ℚ)
  unitHistoryEnd : ℤ
  venueSnapshot : String
  written : Bool
  venueSnapshotAgeDays : ℚ
  decisionBarMissing : ℕ
  venueGapExcluded : List String
  deriving DecidableEq

/-- The files the signal step writes, and the outcomes of the durable writes to come. -/
structure SignalDisk where
  forward : Option UnitSeries := none
  artifact : ArtifactName → Artifact := fun _ => {}
  report : Option StrategyStepReport := none
  script : List IoStep := []

abbrev SignalM (α : Type) : Type := Proc SignalExc SignalDisk α

def IoStep.lands (io : IoStep) : Prop := io.result = .done ∨ 0 < io.landed

instance (io : IoStep) : Decidable io.lands := inferInstanceAs (Decidable (_ ∨ _))

/-- The outcome of the next durable write; the process ends with its script. -/
def nextSignalIo : SignalM IoStep := do
  let d ← Proc.get
  match d.script with
  | [] => Proc.throw .killed
  | io :: rest => do
    Proc.modify fun d => { d with script := rest }
    pure io

def finishSignalIo : IoResult → SignalM Unit
  | .done => pure ()
  | .raised => Proc.throw .osError
  | .killed => Proc.throw .killed

/-- `durable_replace`: the file is replaced whole or not at all. -/
def durableReplace (write : SignalDisk → SignalDisk) : SignalM Unit := do
  let io ← nextSignalIo
  if io.lands then
    Proc.modify write
    finishSignalIo io.result
  else finishSignalIo io.result

/-- Put a frame where `_write_parquet` does: with a key, beside a path without `.enc`. -/
def Artifact.write (st : ArtifactSettings) (a : Artifact) (frame : WeightsFrame) : Artifact :=
  if st.key ∧ ¬ st.enc then { a with sibling := some (.ok frame) } else { a with own := some (.ok frame) }

def writeParquet (st : ArtifactSettings) (name : ArtifactName) (frame : WeightsFrame) : SignalM Unit :=
  if st.enc ∧ ¬ st.key then Proc.throw (.dataIntegrityError .sealedPathRequiresKey)
  else durableReplace fun d =>
    { d with artifact := Function.update d.artifact name ((d.artifact name).write st frame) }

def appendWeightRow (st : ArtifactSettings) (name : ArtifactName) (date : ℤ) (columns : List String)
    (row : Dict ℚ) : SignalM Bool := do
  let d ← Proc.get
  let frame ← Proc.ofExcept (loadWeightsFrame st (d.artifact name))
  if ¬ frame.empty ∧ date ∈ frame.index then pure false
  else do
    writeParquet st name (withRow frame date columns row)
    pure true

/-! ## What a load shows after a write -/

section Loads

variable {st : ArtifactSettings} {a : Artifact} {frame f : WeightsFrame} {date : ℤ}
  {columns : List String} {row r : Dict ℚ}

def HasRow (st : ArtifactSettings) (a : Artifact) (date : ℤ) (row : Dict ℚ) : Prop :=
  ∃ f, loadWeightsFrame st a = .ok f ∧ (date, row) ∈ f.rows

def Fresh (st : ArtifactSettings) (a : Artifact) (date : ℤ) : Prop := ∀ row, ¬ HasRow st a date row

/-- Sealed frames are written beside a plaintext file that is read before them. -/
def Artifact.shadowed (st : ArtifactSettings) (a : Artifact) : Prop :=
  st.key = true ∧ st.enc = false ∧ a.own.isSome = true

/-- The rows of a frame that are younger than a day; an empty frame is replaced whole. -/
def WeightsFrame.laterRows (f : WeightsFrame) (date : ℤ) : ℕ :=
  if f.empty then 0 else (f.rows.filter fun r => date < r.1).length

/-- The day is in the frame, as `append_weight_row` asks it. -/
def WeightsFrame.Has (f : WeightsFrame) (day : ℤ) : Prop := f.empty = false ∧ day ∈ f.index

/-- An appended row is found again: no plaintext file hides it, and fewer than `keep_rows` rows are
younger. -/
def Room (st : ArtifactSettings) (a : Artifact) (date : ℤ) : Prop :=
  ¬ a.shadowed st ∧ ∀ f, loadWeightsFrame st a = .ok f → f.laterRows date < keepRows

theorem WeightsFrame.mem_sortIndex {p : ℤ × Dict ℚ} : p ∈ frame.sortIndex.rows ↔ p ∈ frame.rows :=
  mem_insertionSort _

theorem WeightsFrame.pairwise_sortIndex : frame.sortIndex.rows.Pairwise fun r r' : ℤ × Dict ℚ => r.1 ≤ r'.1 := by
  exact pairwise_insertionSort _ _

@[simp] theorem WeightsFrame.columns_sortIndex : frame.sortIndex.columns = frame.columns := rfl

@[simp] theorem WeightsFrame.empty_sortIndex : frame.sortIndex.empty = frame.empty := by
  have hlen : frame.sortIndex.rows.length = frame.rows.length := length_insertionSort _ _
  have hrows : frame.sortIndex.rows.isEmpty = frame.rows.isEmpty := by
    rw [Bool.eq_iff_iff, isEmpty_iff_length_eq_zero, isEmpty_iff_length_eq_zero, hlen]
  simp only [WeightsFrame.empty, WeightsFrame.columns_sortIndex, hrows]

theorem WeightsFrame.laterRows_sortIndex : frame.sortIndex.laterRows date = frame.laterRows date := by
  unfold WeightsFrame.laterRows
  rw [WeightsFrame.empty_sortIndex]
  split
  · rfl
  · exact ((perm_insertionSort _ _).filter _).length_eq

theorem mem_drop_middle {α : Type} {x : α} {before after : List α} (hafter : x ∉ after) (n : ℕ) :
    x ∈ (before ++ x :: after).drop n ↔ n ≤ before.length := by
  rw [drop_append]
  constructor
  · intro hx
    by_contra hn
    obtain ⟨k, hk⟩ : ∃ k, n - before.length = k + 1 := ⟨n - before.length - 1, by omega⟩
    rw [drop_eq_nil_of_le (by omega), hk] at hx; exact hafter (mem_of_mem_drop hx)
  · intro hn
    rw [show n - before.length = 0 by omega]
    exact mem_append_right _ mem_cons_self

theorem WeightsFrame.split_sortIndex (columns : List String) (row : Dict ℚ) (hdate : date ∉ frame.index) :
    ∃ older younger, (WeightsFrame.sortIndex { columns := columns, rows := frame.rows ++ [(date, row)] }).rows =
        older ++ (date, row) :: younger ∧ (∀ p ∈ younger, date < p.1) ∧
      younger.length = (frame.rows.filter fun r => date < r.1).length := by
  set sorted := WeightsFrame.sortIndex { columns := columns, rows := frame.rows ++ [(date, row)] } with hs
  have hperm : sorted.rows.Perm (frame.rows ++ [(date, row)]) := perm_insertionSort _ _
  have hmem : (date, row) ∈ sorted.rows := hperm.mem_iff.mpr (by simp)
  obtain ⟨older, younger, hsplit⟩ := append_of_mem hmem
  have hpair : sorted.rows.Pairwise fun r r' : ℤ × Dict ℚ => r.1 ≤ r'.1 := WeightsFrame.pairwise_sortIndex
  rw [hsplit, pairwise_append] at hpair
  obtain ⟨-, hright, hcross⟩ := hpair
  have hrest : (older ++ younger).Perm frame.rows := by
    have hcons : ((date, row) :: (older ++ younger)).Perm ((date, row) :: frame.rows) := by
      refine perm_middle.symm.trans (hsplit ▸ hperm.trans ?_); exact perm_append_comm
    exact hcons.cons_inv
  have hne : ∀ p ∈ older ++ younger, p.1 ≠ date := by
    intro p hp heq; exact hdate (heq ▸ mem_map_of_mem (hrest.mem_iff.mp hp))
  have hyoung : ∀ p ∈ younger, date < p.1 := fun p hp =>
    lt_of_le_of_ne (rel_of_pairwise_cons hright hp) (hne p (mem_append_right _ hp)).symm
  refine ⟨older, younger, hsplit, hyoung, ?_⟩
  have hcount := (hrest.filter fun r => decide (date < r.1)).length_eq
  rw [← hcount, filter_append, filter_eq_nil_iff.mpr, nil_append, filter_eq_self.mpr]
  · exact fun p hp => decide_eq_true (hyoung p hp)
  · intro p hp
    have hle : p.1 ≤ date := hcross p hp _ mem_cons_self; simp [hle]

theorem withRow_of_empty (hempty : frame.empty = true) :
    withRow frame date columns row = { columns := columns, rows := [(date, row)] } := by
  simp [withRow, hempty, keepRows]

theorem rows_withRow {sorted : List (ℤ × Dict ℚ)} (hempty : frame.empty = false) (hsorted : (WeightsFrame.sortIndex
      { columns := (frame.columns ++ columns).dedup.insertionSort (· ≤ ·)
        rows := frame.rows ++ [(date, row)] }).rows = sorted) :
    (withRow frame date columns row).rows =
      if keepRows < sorted.length then sorted.drop (sorted.length - keepRows) else sorted := by
  subst hsorted
  simp only [withRow, hempty, Bool.false_eq_true, if_false, apply_ite WeightsFrame.rows]

theorem columns_withRow (hempty : frame.empty = false) :
    (withRow frame date columns row).columns = (frame.columns ++ columns).dedup.insertionSort (· ≤ ·) := by
  simp only [withRow, hempty, Bool.false_eq_true, if_false]
  split <;> rfl

theorem mem_withRow (hdate : frame.empty = true ∨ date ∉ frame.index) (hroom : frame.laterRows date < keepRows) :
    (date, r) ∈ (withRow frame date columns row).rows ↔ r = row := by
  by_cases hempty : frame.empty = true
  · rw [withRow_of_empty hempty]; simp
  · have hdate := hdate.resolve_left hempty
    obtain ⟨older, younger, hsplit, hyoung, hlength⟩ := WeightsFrame.split_sortIndex
      ((frame.columns ++ columns).dedup.insertionSort (· ≤ ·)) row hdate
    rw [WeightsFrame.laterRows, if_neg hempty] at hroom
    have hown : ∀ r, (date, r) ∈ older ++ (date, row) :: younger → r = row := by
      intro r hr
      rw [← hsplit, WeightsFrame.mem_sortIndex, mem_append, mem_singleton] at hr
      rcases hr with hr | hr
      · exact absurd (mem_map_of_mem hr) hdate
      · exact (Prod.mk.inj hr).2
    have hafter : (date, row) ∉ younger := fun h => lt_irrefl _ (hyoung _ h)
    rw [rows_withRow (Bool.not_eq_true _ ▸ hempty) hsplit]
    split
    · constructor
      · exact fun hr => hown r (mem_of_mem_drop hr)
      · intro hr
        rw [hr, mem_drop_middle hafter, length_append, length_cons]; omega
    · exact ⟨hown r, fun hr => hr ▸ mem_append_right _ mem_cons_self⟩

theorem withRow_full (hempty : frame.empty = false) (hdate : date ∉ frame.index)
    (hfull : keepRows ≤ frame.laterRows date) :
    date ∉ (withRow frame date columns row).index ∧
      keepRows ≤ (withRow frame date columns row).laterRows date := by
  obtain ⟨older, younger, hsplit, hyoung, hlength⟩ := WeightsFrame.split_sortIndex
    ((frame.columns ++ columns).dedup.insertionSort (· ≤ ·)) row hdate
  rw [WeightsFrame.laterRows, hempty, if_neg Bool.false_ne_true] at hfull
  have hlong : keepRows < (older ++ (date, row) :: younger).length := by
    rw [length_append, length_cons]; omega
  obtain ⟨k, hk⟩ : ∃ k, (older ++ (date, row) :: younger).length - keepRows = older.length + 1 + k := by
    refine ⟨younger.length - keepRows, ?_⟩
    rw [length_append, length_cons]; omega
  have hrows : (withRow frame date columns row).rows = younger.drop k := by
    rw [rows_withRow hempty hsplit, if_pos hlong, hk, append_cons, drop_append]; simp
  have hlater : ∀ p ∈ younger.drop k, date < p.1 := fun p hp => hyoung p (mem_of_mem_drop hp)
  have hdropped : (younger.drop k).length = keepRows := by
    rw [length_append, length_cons] at hk
    rw [length_drop]; omega
  constructor
  · intro h
    obtain ⟨p, hp, hpdate⟩ := mem_map.mp h
    rw [hrows] at hp; exact absurd hpdate (hlater p hp).ne'
  · have hcols : (withRow frame date columns row).columns ≠ [] := by
      have hne : frame.columns ≠ [] := by
        intro h; simp [WeightsFrame.empty, h] at hempty
      obtain ⟨c, hc⟩ := exists_mem_of_ne_nil _ hne
      have hmem : c ∈ (frame.columns ++ columns).dedup.insertionSort (· ≤ ·) := by
        rw [mem_insertionSort, mem_dedup]; exact mem_append_left _ hc
      rw [columns_withRow hempty]; exact ne_nil_of_mem hmem
    have hne : (withRow frame date columns row).empty = false := by
      simp only [WeightsFrame.empty, hrows, Bool.or_eq_false_iff, isEmpty_eq_false_iff]
      refine ⟨fun h => ?_, hcols⟩
      rw [h] at hdropped; simp [keepRows] at hdropped
    rw [WeightsFrame.laterRows, hne, if_neg Bool.false_ne_true, hrows,
      filter_eq_self.mpr fun p hp => decide_eq_true (hlater p hp), hdropped]

/-! ### Writes -/

theorem load_write (hkey : st.enc = true → st.key = true) (hshadow : ¬ a.shadowed st) :
    loadWeightsFrame st (a.write st frame) = .ok (if frame.empty then frame else frame.sortIndex) := by
  unfold Artifact.shadowed at hshadow
  unfold Artifact.write
  cases henc : st.enc <;> cases hk : st.key <;> cases hown : a.own <;>
    simp_all [loadWeightsFrame, Artifact.candidate, bind, Except.bind]

theorem load_write_shadowed (hshadow : a.shadowed st) :
    loadWeightsFrame st (a.write st frame) = loadWeightsFrame st a := by
  obtain ⟨hkey, henc, hown⟩ := hshadow
  obtain ⟨file, hfile⟩ := Option.isSome_iff_exists.mp hown
  simp [Artifact.write, loadWeightsFrame, Artifact.candidate, hkey, henc, hfile]

theorem shadowed_write : (a.write st frame).shadowed st ↔ a.shadowed st := by
  unfold Artifact.shadowed Artifact.write
  cases henc : st.enc <;> cases hk : st.key <;> simp

theorem Fresh.index (hfresh : Fresh st a date) (hload : loadWeightsFrame st a = .ok f) : date ∉ f.index := by
  intro h
  obtain ⟨⟨d, r⟩, hp, hd⟩ := mem_map.mp h; exact hfresh r ⟨f, hload, hd ▸ hp⟩

theorem hasRow_write (hkey : st.enc = true → st.key = true) (hload : loadWeightsFrame st a = .ok f)
    (hdate : f.empty = true ∨ date ∉ f.index) (hroom : Room st a date) :
    HasRow st (a.write st (withRow f date columns row)) date r ↔ r = row := by
  rw [HasRow, load_write hkey hroom.1]
  have hiff : (date, r) ∈ (withRow f date columns row).rows ↔ r = row := mem_withRow hdate (hroom.2 f hload)
  rw [← hiff]
  constructor
  · rintro ⟨g, hg, hmem⟩
    rw [← Except.ok.inj hg] at hmem
    split at hmem
    · exact hmem
    · exact WeightsFrame.mem_sortIndex.mp hmem
  · intro hmem
    refine ⟨_, rfl, ?_⟩
    split
    · exact hmem
    · exact WeightsFrame.mem_sortIndex.mpr hmem

theorem WeightsFrame.index_of_new (hnew : ¬ f.Has date) : f.empty = true ∨ date ∉ f.index := by
  by_cases hempty : f.empty = true
  · exact Or.inl hempty
  · exact Or.inr fun h => hnew ⟨by simpa using hempty, h⟩

section

variable (hkey : st.enc = true → st.key = true) (hload : loadWeightsFrame st a = .ok f)

include hkey hload

theorem has_write (hnew : ¬ f.Has date) (hroom : Room st a date) (hcolumns : columns ≠ []) :
    ∃ g, loadWeightsFrame st (a.write st (withRow f date columns row)) = .ok g ∧ g.Has date := by
  have hmem : (date, row) ∈ (withRow f date columns row).rows :=
    (mem_withRow (WeightsFrame.index_of_new hnew) (hroom.2 f hload)).mpr rfl
  have hcols : (withRow f date columns row).columns ≠ [] := by
    by_cases hempty : f.empty = true
    · rw [withRow_of_empty hempty]; exact hcolumns
    · rw [columns_withRow (by simpa using hempty)]
      obtain ⟨c, hc⟩ := exists_mem_of_ne_nil _ hcolumns
      refine ne_nil_of_mem (a := c) ?_
      rw [mem_insertionSort, mem_dedup]; exact mem_append_right _ hc
  have hne : (withRow f date columns row).empty = false := by
    simp only [WeightsFrame.empty, Bool.or_eq_false_iff, isEmpty_eq_false_iff]
    exact ⟨ne_nil_of_mem hmem, hcols⟩
  refine ⟨_, load_write hkey hroom.1, ?_⟩
  rw [if_neg (by simp [hne])]
  exact ⟨by rw [WeightsFrame.empty_sortIndex, hne],
    mem_map.mpr ⟨(date, row), WeightsFrame.mem_sortIndex.mpr hmem, rfl⟩⟩

theorem fresh_write (hfresh : Fresh st a date) (hroom : ¬ Room st a date) :
    Fresh st (a.write st (withRow f date columns row)) date ∧
      ¬ Room st (a.write st (withRow f date columns row)) date := by
  by_cases hshadow : a.shadowed st
  · refine ⟨?_, fun h => h.1 (shadowed_write.mpr hshadow)⟩
    rintro r ⟨g, hg, hmem⟩
    rw [load_write_shadowed hshadow] at hg; exact hfresh r ⟨g, hg, hmem⟩
  · have hfull : keepRows ≤ f.laterRows date := by
      by_contra hlt
      refine hroom ⟨hshadow, fun g hg => ?_⟩
      rw [hload] at hg
      rw [← Except.ok.inj hg]; exact not_le.mp hlt
    have hempty : f.empty = false := by
      by_contra h
      rw [WeightsFrame.laterRows, if_pos (by simpa using h)] at hfull; simp [keepRows] at hfull
    obtain ⟨hindex, hlater⟩ : date ∉ (withRow f date columns row).index ∧
        keepRows ≤ (withRow f date columns row).laterRows date :=
      withRow_full hempty (hfresh.index hload) hfull
    have hreload : loadWeightsFrame st (a.write st (withRow f date columns row)) =
        .ok (if (withRow f date columns row).empty then withRow f date columns row
          else (withRow f date columns row).sortIndex) := load_write hkey hshadow
    constructor
    · rintro r ⟨g, hg, hmem⟩
      rw [hreload] at hg
      rw [← Except.ok.inj hg] at hmem
      refine hindex (mem_map.mpr ⟨(date, r), ?_, rfl⟩)
      split at hmem
      · exact hmem
      · exact WeightsFrame.mem_sortIndex.mp hmem
    · intro h
      have hlt := h.2 _ hreload
      split at hlt
      · exact absurd hlater (not_le.mpr hlt)
      · rw [WeightsFrame.laterRows_sortIndex] at hlt; exact absurd hlater (not_le.mpr hlt)

end

end Loads

end CryptoPilot.Live
