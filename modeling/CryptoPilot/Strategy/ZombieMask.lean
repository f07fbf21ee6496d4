/- # ZombieMask — zombie bars and the window a panel is loaded from.

The mask counts rows and primes the count with a look-back in time.  A flat run with bars missing
inside it is longer in time than in rows, so a later start may no longer see its beginning. -/
import CryptoPilot.Lib.Effect
import CryptoPilot.Lib.Timeline
import Mathlib.Data.Rat.Defs

namespace CryptoPilot.Strategy

open CryptoPilot.Lib List

/-- A row of a bar file; a null and a NaN are both `none`. -/
structure BarRow where
  stamp : ℤ
  field : String → Option ℚ

structure BarFile where
  columns : List String
  rows : List BarRow

inductive PanelError
  | missingColumns (columns : List String)
  | emptyGrid
  | noSurvivor
  deriving DecidableEq

/-- `pq.read_table` with its two filters. -/
def BarFile.read (file : BarFile) (low high : ℤ) : List BarRow :=
  file.rows.filter fun r => decide (low ≤ r.stamp) && decide (r.stamp ≤ high)

/-- `last`: of neighbours with one stamp the last is kept. -/
def keepLast : List BarRow → List BarRow
  | r :: next :: rest => if r.stamp = next.stamp then keepLast (next :: rest) else r :: keepLast (next :: rest)
  | rows => rows

/-- `order[last]`: the rows in a stable order of their stamps, the last of each stamp. -/
def lastOfEach (rows : List BarRow) : List BarRow := keepLast (sortBy BarRow.stamp rows)

def BarRow.flat (r : BarRow) : Bool :=
  decide (r.field "volume" = some 0) && (r.field "high").isSome && decide (r.field "high" = r.field "low")

/-- The scan over `idx` and `last_break`: `run` is their difference. -/
def maskFrom (runBars : ℕ) (start : ℤ) : ℤ → ℤ → List BarRow → List ℤ
  | _, _, [] => []
  | idx, lastBreak, r :: rest =>
    let lastBreak := max lastBreak (if r.flat then -1 else idx)
    let tail := maskFrom runBars start (idx + 1) lastBreak rest
    if r.flat ∧ runBars ≤ idx - lastBreak ∧ start ≤ r.stamp then r.stamp :: tail else tail

def primedFrom (runBars : ℕ) (interval start : ℤ) : ℤ := start - (runBars - 1) * interval

def zombieMask (runBars : ℕ) (file : BarFile) (start stop interval : ℤ) : List ℤ :=
  maskFrom runBars start 0 (-1) (lastOfEach (file.read (primedFrom runBars interval start) stop))

def BarFile.missing (file : BarFile) (columns : List String) : List String :=
  columns.filter fun c => decide (c ∉ file.columns)

def maskColumns : List String := ["high", "low", "volume"]

def zombieMaskedTimestamps (file : BarFile) (start stop interval : ℤ) (runBars : ℕ) : Except PanelError (List ℤ) :=
  if file.missing maskColumns ≠ [] then .error (.missingColumns (file.missing maskColumns))
  else .ok (zombieMask runBars file start stop interval)

/-! ## The panel -/

def zombieFlatRunBars : ℕ := 24

inductive DataPolicy
  | legacy
  | zombieMaskV1
  deriving DecidableEq

inductive SelectionMode
  | legacyWindow
  | causalHistory
  deriving DecidableEq

/-- What a panel is loaded with; `interval` is in nanoseconds, `partition` picks the symbols. -/
structure PanelRequest where
  interval : ℕ
  columns : List String
  partition : String → Bool
  minBars : ℕ
  policy : DataPolicy
  mode : SelectionMode

structure BarFiles where
  names : List String
  file : String → BarFile

/-- The wide panels: for each symbol the value of a column at an instant of the grid. -/
structure Panel where
  grid : List ℤ
  series : List (String × (String → ℤ → Option ℚ))

def msNs : ℤ := 1000000

def buildUniformGrid (start stop : ℤ) (interval : ℕ) : Except PanelError (List ℤ) :=
  if stop ≤ start then .error .emptyGrid
  else .ok ((List.range ((stop - start).toNat / interval + 1)).map fun k : ℕ => start + (k : ℤ) * interval)

def windowRows (file : BarFile) (start stop : ℤ) (mask : List ℤ) : List BarRow :=
  (file.read (start / msNs) (stop / msNs)).filter fun r =>
    decide (start ≤ r.stamp * msNs) && decide (r.stamp * msNs ≤ stop) && decide (r.stamp ∉ mask)

/-- The value of a column at an instant of the grid: the final source row wins. -/
def panelCell (file : BarFile) (start stop : ℤ) (mask : List ℤ) (column : String) (t : ℤ) : Option ℚ :=
  ((windowRows file start stop mask).filter fun r =>
    decide (r.stamp * msNs = t)).getLast?.bind fun r => r.field column

def panelMask (req : PanelRequest) (file : BarFile) (start stop : ℤ) : Except PanelError (List ℤ) :=
  match req.policy with
  | .legacy => .ok []
  | .zombieMaskV1 =>
    zombieMaskedTimestamps file (start / msNs) (stop / msNs) (req.interval / msNs) zombieFlatRunBars

def PanelRequest.survivorMinBars (req : PanelRequest) : ℕ := if req.mode = .causalHistory then 1 else req.minBars

def scanFile (files : BarFiles) (req : PanelRequest) (start stop : ℤ) (name : String) :
    Except PanelError (Option (String × List ℤ)) := do
  let mask ← panelMask req (files.file name) start stop
  let bars := ((windowRows (files.file name) start stop mask).map BarRow.stamp).dedup.length
  return if bars < req.survivorMinBars then none else some (name, mask)

def readColumns (files : BarFiles) (req : PanelRequest) (start stop : ℤ) (survivor : String × List ℤ) :
    Except PanelError (String × (String → ℤ → Option ℚ)) :=
  let missing := (files.file survivor.1).missing req.columns
  if missing ≠ [] then .error (.missingColumns missing)
  else .ok (survivor.1, panelCell (files.file survivor.1) start stop survivor.2)

/-- `load_base_panel` without a quarantine and without an admission. -/
def loadBasePanel (files : BarFiles) (req : PanelRequest) (start stop : ℤ) : Except PanelError Panel := do
  let grid ← buildUniformGrid start stop req.interval
  let scanned ← (files.names.filter req.partition).mapM (scanFile files req start stop)
  if scanned.filterMap id = [] then .error .noSurvivor
  else
    let series ← (scanned.filterMap id).mapM (readColumns files req start stop)
    return { grid := grid, series := series }

/-! ## The last row of each stamp -/

section Rows

variable {rows : List BarRow} {r : BarRow}

theorem filter_sortBy_stamp (rows : List BarRow) (t : ℤ) :
    (sortBy BarRow.stamp rows).filter (fun r => decide (r.stamp = t)) =
    rows.filter fun r => decide (r.stamp = t) := by
  induction rows with
  | nil => rfl
  | cons r rest ih =>
    have hinsert : ∀ l : List BarRow, (orderedInsert (fun a b : BarRow => a.stamp ≤ b.stamp) r l).filter
        (fun r => decide (r.stamp = t)) = (r :: l).filter fun r => decide (r.stamp = t) := by
      intro l
      induction l with
      | nil => rfl
      | cons a l ihl =>
        rw [orderedInsert_cons]
        split
        · rfl
        · next hle =>
          -- the row passes only rows of other stamps
          rw [filter_cons, ihl]
          by_cases ha : a.stamp = t <;> by_cases hr : r.stamp = t <;> simp [ha, hr]
          omega
    rw [sortBy, insertionSort_cons, hinsert, filter_cons, filter_cons, ← ih, sortBy]

theorem mem_keepLast_iff (hsorted : rows.Pairwise fun a b => a.stamp ≤ b.stamp) :
    r ∈ keepLast rows ↔ (rows.filter fun a => decide (a.stamp = r.stamp)).getLast? = some r := by
  induction rows using keepLast.induct with
  | case1 a next rest heq ih =>
    rw [keepLast, if_pos heq, ih hsorted.of_cons]
    by_cases ha : next.stamp = r.stamp <;> simp [heq, ha]
  | case2 a next rest hne ih =>
    rw [keepLast, if_neg hne, mem_cons, ih hsorted.of_cons]
    by_cases ha : a.stamp = r.stamp
    · -- the later rows lie after the stamp of the first
      have hnone : (next :: rest).filter (fun b => decide (b.stamp = r.stamp)) = [] := by
        rw [filter_eq_nil_iff]
        intro b hb
        have hnext : a.stamp ≤ next.stamp := rel_of_pairwise_cons hsorted mem_cons_self
        have hle : next.stamp ≤ b.stamp := by
          rcases mem_cons.mp hb with rfl | hb
          · exact le_rfl
          · exact rel_of_pairwise_cons hsorted.of_cons hb
        simp only [decide_eq_true_eq]; omega
      rw [hnone, filter_cons_of_pos (p := fun b : BarRow => decide (b.stamp = r.stamp)) (by simpa using ha), hnone]
      simp [eq_comm]
    · rw [filter_cons_of_neg (p := fun b : BarRow => decide (b.stamp = r.stamp)) (a := a) (by simpa using ha)]
      exact ⟨fun h => h.resolve_left fun h => ha (h ▸ rfl), .inr⟩
  | case3 rows hshort =>
    match rows, hshort with
    | [], _ => simp [keepLast]
    | [a], _ => by_cases ha : a.stamp = r.stamp <;> simp [keepLast, ha, eq_comm] ; grind
    | a :: b :: rest, hshort => exact (hshort a b rest rfl).elim

theorem mem_lastOfEach_iff :
    r ∈ lastOfEach rows ↔ (rows.filter fun a => decide (a.stamp = r.stamp)).getLast? = some r := by
  rw [lastOfEach, mem_keepLast_iff (pairwise_sortBy _ _), filter_sortBy_stamp]

theorem pairwise_keepLast (hsorted : rows.Pairwise fun a b => a.stamp ≤ b.stamp) :
    (keepLast rows).Pairwise fun a b => a.stamp < b.stamp := by
  induction rows using keepLast.induct with
  | case1 a next rest heq ih =>
    rw [keepLast, if_pos heq]; exact ih hsorted.of_cons
  | case2 a next rest hne ih =>
    rw [keepLast, if_neg hne]
    refine (ih hsorted.of_cons).cons fun b hb => ?_
    have hmem := (mem_filter.mp (mem_of_getLast? ((mem_keepLast_iff hsorted.of_cons).mp hb))).1
    have hnext : a.stamp ≤ next.stamp := rel_of_pairwise_cons hsorted mem_cons_self
    rcases mem_cons.mp hmem with rfl | hmem
    · omega
    · have := rel_of_pairwise_cons hsorted.of_cons hmem; omega
  | case3 rows hshort =>
    match rows, hshort with
    | [], _ => exact .nil
    | [a], _ => exact pairwise_singleton _ a
    | a :: b :: rest, hshort => exact (hshort a b rest rfl).elim

theorem pairwise_lastOfEach (rows : List BarRow) : (lastOfEach rows).Pairwise fun a b => a.stamp < b.stamp :=
  pairwise_keepLast (pairwise_sortBy _ _)

/-- **Reading from later cuts the rows.** -/
theorem lastOfEach_read_later (file : BarFile) {low low' : ℤ} (hlow : low ≤ low') (high : ℤ) :
    lastOfEach (file.read low' high) =
      (lastOfEach (file.read low high)).filter fun r => decide (low' ≤ r.stamp) := by
  refine Pairwise.eq_of_mem_iff (pairwise_lastOfEach _) ((pairwise_lastOfEach _).filter _) fun r => ?_
  have hread : low' ≤ r.stamp → (file.read low' high).filter (fun a => decide (a.stamp = r.stamp)) =
      (file.read low high).filter fun a => decide (a.stamp = r.stamp) := by
    intro hr
    rw [BarFile.read, BarFile.read, filter_filter, filter_filter]
    refine filter_congr fun a _ => ?_
    by_cases ha : a.stamp = r.stamp <;> simp [ha, hr, hlow.trans hr]
  rw [mem_filter, mem_lastOfEach_iff, mem_lastOfEach_iff, decide_eq_true_eq]
  constructor
  · intro h
    have hr : low' ≤ r.stamp := by
      have hmem := mem_of_getLast? h
      simp only [BarFile.read, mem_filter, Bool.and_eq_true, decide_eq_true_eq] at hmem
      exact hmem.1.2.1
    exact ⟨hread hr ▸ h, hr⟩
  · rintro ⟨h, hr⟩
    rw [hread hr]; exact h

end Rows

/-! ## The scan -/

section Scan

variable {runBars : ℕ} {rows : List BarRow}

/-- The rows `block ++ [last]` are consecutive, flat and `runBars` many. -/
def FlatRun (runBars : ℕ) (rows block : List BarRow) (last : BarRow) : Prop :=
  block ++ [last] <:+: rows ∧ block.length + 1 = runBars ∧ ∀ b ∈ block ++ [last], b.flat = true

theorem le_trailing_iff {α : Type} (p : α → Bool) (l : List α) (n : ℕ) :
    n ≤ (l.reverse.takeWhile p).length ↔ ∃ block, block <:+ l ∧ block.length = n ∧ ∀ b ∈ block, p b = true := by
  constructor
  · intro hn
    refine ⟨((l.reverse.takeWhile p).take n).reverse, ?_, by simpa using hn, ?_⟩
    · rw [← reverse_prefix, reverse_reverse]; exact ( take_prefix _ _).trans ( takeWhile_prefix p)
    · intro b hb; exact all_eq_true.mp all_takeWhile b (mem_of_mem_take (mem_reverse.mp hb))
  · rintro ⟨block, ⟨pre, rfl⟩, rfl, hall⟩
    rw [reverse_append, takeWhile_append_of_pos (by simpa using hall), length_append, length_reverse]
    omega

/-- The row after `pre` is the last bar of a flat run and not before the start. -/
def EndsRun (runBars : ℕ) (start : ℤ) (pre : List BarRow) (r : BarRow) : Prop :=
  r.flat = true ∧ runBars ≤ (pre.reverse.takeWhile BarRow.flat).length + 1 ∧ start ≤ r.stamp

theorem exists_split_cons {α : Type} {a : α} {l : List α} {P : List α → α → Prop} :
    (∃ before x after, a :: l = before ++ x :: after ∧ P before x) ↔
      P [] a ∨ ∃ before x after, l = before ++ x :: after ∧ P (a :: before) x := by
  constructor
  · rintro ⟨before, x, after, heq, h⟩
    cases before with
    | nil =>
      obtain ⟨rfl, -⟩ := cons.inj heq; exact .inl h
    | cons b before =>
      obtain ⟨rfl, hl⟩ := cons.inj heq; exact .inr ⟨before, x, after, hl, h⟩
  · rintro (h | ⟨before, x, after, rfl, h⟩)
    · exact ⟨[], a, l, rfl, h⟩
    · exact ⟨a :: before, x, after, rfl, h⟩

/-- **The mask marks the last bars of flat runs.**  The trailing flat rows of `pre` are what the
scan carries. -/
theorem mem_maskFrom_iff {start t : ℤ} (pre : List BarRow) (lastBreak : ℤ)
    (hcarry : (pre.length : ℤ) - 1 - lastBreak = (pre.reverse.takeWhile BarRow.flat).length) :
    t ∈ maskFrom runBars start pre.length lastBreak rows ↔
      ∃ before r after, rows = before ++ r :: after ∧ EndsRun runBars start (pre ++ before) r ∧ r.stamp = t := by
  have hlength : (pre.reverse.takeWhile BarRow.flat).length ≤ pre.length := by
    simpa using ( takeWhile_prefix BarRow.flat (l := pre.reverse)).length_le
  induction rows generalizing pre lastBreak with
  | nil => simp [maskFrom]
  | cons r rest ih =>
    have hstep : (((pre ++ [r]).length : ℤ) - 1 - max lastBreak (if r.flat then -1 else (pre.length : ℤ))) =
        ((pre ++ [r]).reverse.takeWhile BarRow.flat).length := by
      cases hr : r.flat <;> simp [hr] <;> omega
    have htail := ih (pre ++ [r]) _ hstep (by
      simpa using ( takeWhile_prefix BarRow.flat (l := (pre ++ [r]).reverse)).length_le)
    have hhere : (r.flat = true ∧ (runBars : ℤ) ≤
      pre.length - max lastBreak (if r.flat then -1 else (pre.length : ℤ)) ∧
        start ≤ r.stamp) ↔ EndsRun runBars start pre r := by
      rw [EndsRun]
      cases hr : r.flat
      · simp
      · simp; omega
    rw [length_append, length_singleton, Int.natCast_succ] at htail
    refine Iff.trans ?_ (exists_split_cons
      (P := fun before x => EndsRun runBars start (pre ++ before) x ∧ x.stamp = t)).symm
    simp only [append_assoc, singleton_append] at htail
    simp only [maskFrom, append_nil, ← htail]
    by_cases h : EndsRun runBars start pre r
    · rw [if_pos (hhere.mpr h), mem_cons]; simp only [h, true_and, eq_comm]
    · rw [if_neg (mt hhere.mp h)]; simp only [h, false_and, false_or]

theorem mem_mask_iff {start t : ℤ} (hruns : 1 ≤ runBars) :
    t ∈ maskFrom runBars start 0 (-1) rows ↔
      ∃ block last, FlatRun runBars rows block last ∧ start ≤ last.stamp ∧ last.stamp = t := by
  rw [show (0 : ℤ) = ([] : List BarRow).length from rfl, mem_maskFrom_iff [] (-1) rfl]
  constructor
  · rintro ⟨before, r, after, rfl, ⟨hflat, hlength, hstart⟩, ht⟩
    obtain ⟨block, ⟨pre, rfl⟩, hblock, hall⟩ := (le_trailing_iff BarRow.flat before (runBars - 1)).mp
      (Nat.sub_le_of_le_add (by simpa using hlength))
    refine ⟨block, r, ⟨⟨pre, after, by simp⟩, by omega, ?_⟩, hstart, ht⟩
    grind
  · rintro ⟨block, last, ⟨⟨pre, after, rfl⟩, hlength, hall⟩, hstart, ht⟩
    refine ⟨pre ++ block, last, after, by simp, ⟨hall last (by simp), ?_, hstart⟩, ht⟩
    have := (le_trailing_iff BarRow.flat ([] ++ (pre ++ block)) block.length).mpr
      ⟨block, suffix_append pre block, rfl, fun b hb => hall b (mem_append_left _ hb)⟩
    omega

end Scan

/-! ## The mask from two starts -/

section Starts

variable {runBars : ℕ} {file : BarFile} {start start' stop interval : ℤ}

/-- **No flat run straddles the look-back.**  `runBars` consecutive flat rows of the earlier load
that end at or after the later start all lie within its look-back. -/
def Primed (runBars : ℕ) (file : BarFile) (start start' stop interval : ℤ) : Prop :=
  ∀ block last, FlatRun runBars (lastOfEach (file.read (primedFrom runBars interval start) stop)) block last →
    start' ≤ last.stamp → ∀ b ∈ block ++ [last], primedFrom runBars interval start' ≤ b.stamp

theorem filter_suffix_of_pairwise {rows : List BarRow} (hsorted : rows.Pairwise fun a b => a.stamp < b.stamp)
    (low : ℤ) : rows.filter (fun r => decide (low ≤ r.stamp)) <:+ rows := by
  have hcut : rows = rows.filter (fun r => decide (r.stamp < low)) ++ rows.filter fun r =>
    !decide (r.stamp < low) :=
    eq_filter_append_filter (hsorted.imp le_of_lt) fun a b hab hb => by simpa using hab.trans_lt (by simpa using hb)
  simp only [← decide_not, not_lt] at hcut; exact ⟨_, hcut.symm⟩

theorem eq_takeWhile_of_pairwise {rows after : List BarRow} {last : BarRow} (before : List BarRow)
    (hsorted : rows.Pairwise fun a b => a.stamp < b.stamp) (heq : rows = before ++ last :: after) :
    before = rows.takeWhile fun r => decide (r.stamp < last.stamp) := by
  subst heq
  rw [takeWhile_append_of_pos fun r hr => decide_eq_true ((pairwise_append.mp hsorted).2.2 r hr last mem_cons_self)]
  simp

theorem mem_zombieMask_later_iff (hruns : 1 ≤ runBars) (hstart : start ≤ start') :
    (∀ t, t ∈ zombieMask runBars file start' stop interval ↔
        t ∈ zombieMask runBars file start stop interval ∧ start' ≤ t) ↔
      Primed runBars file start start' stop interval := by
  have hlow : primedFrom runBars interval start ≤ primedFrom runBars interval start' := by
    rw [primedFrom, primedFrom]; omega
  have hcut := lastOfEach_read_later file hlow stop
  have hsorted := pairwise_lastOfEach (file.read (primedFrom runBars interval start) stop)
  simp only [zombieMask, mem_mask_iff hruns, Primed, hcut]
  generalize primedFrom runBars interval start' = low at *
  constructor
  · intro hagree block last hrun hlast b hb
    -- the later load sees a run with the same last bar, and that run is the same
    obtain ⟨block', last', ⟨hin', hlength', hall'⟩, -, heq⟩ :=
      (hagree last.stamp).mpr ⟨⟨block, last, hrun, hstart.trans hlast, rfl⟩, hlast⟩
    obtain ⟨pre, after, hrows⟩ := hrun.1
    obtain ⟨pre', after', hrows'⟩ := hin'.trans (filter_suffix_of_pairwise hsorted low).isInfix
    have hbefore := eq_takeWhile_of_pairwise (pre ++ block) hsorted (by simpa using hrows.symm)
    have hbefore' := eq_takeWhile_of_pairwise (pre' ++ block') hsorted (by simpa using hrows'.symm)
    rw [heq, ← hbefore] at hbefore'
    obtain rfl : block' = block := (append_inj' hbefore' (by have := hrun.2.1; omega)).2
    have hlate : ∀ b ∈ block' ++ [last'], low ≤ b.stamp := fun b hb => by
      simpa using (mem_filter.mp (hin'.subset hb)).2
    rcases mem_append.mp hb with hb | hb
    · exact hlate b (mem_append_left _ hb)
    · rw [mem_singleton.mp hb, ← heq]; exact hlate last' (mem_append_right _ mem_cons_self)
  · intro hprimed t
    constructor
    · rintro ⟨block, last, ⟨hin, hlength, hall⟩, hlast, rfl⟩
      have hrun := hin.trans (filter_suffix_of_pairwise hsorted low).isInfix
      exact ⟨⟨block, last, ⟨hrun, hlength, hall⟩, hstart.trans hlast, rfl⟩, hlast⟩
    · rintro ⟨⟨block, last, hrun, -, rfl⟩, hlast⟩
      refine ⟨block, last, ⟨?_, hrun.2⟩, hlast, rfl⟩
      have hself := hrun.1.filter (fun r => decide (low ≤ r.stamp))
      rwa [filter_eq_self.mpr fun b hb => by simpa using hprimed block last hrun hlast b hb] at hself

/-- From the later start on the masked timestamps are those of the earlier load. -/
def MaskAgrees (runBars : ℕ) (file : BarFile) (start start' stop interval : ℤ) : Prop :=
  ∀ mask mask', zombieMaskedTimestamps file start stop interval runBars = .ok mask →
    zombieMaskedTimestamps file start' stop interval runBars = .ok mask' → ∀ t, t ∈ mask' ↔ t ∈ mask ∧ start' ≤ t

theorem maskAgrees_iff (hruns : 1 ≤ runBars) (hstart : start ≤ start') :
    MaskAgrees runBars file start start' stop interval ↔
      (file.missing maskColumns = [] → Primed runBars file start start' stop interval) := by
  rw [← mem_zombieMask_later_iff hruns hstart, MaskAgrees]
  simp only [zombieMaskedTimestamps]
  by_cases hmissing : file.missing maskColumns = [] <;> simp [hmissing]

end Starts

/-! ## The panel from two starts -/

section Panels

variable {files : BarFiles} {req : PanelRequest} {start start' stop : ℤ} {panel : Panel} {name : String}
  {f : String → ℤ → Option ℚ}

section

variable (hload : loadBasePanel files req start stop = .ok panel)

include hload

theorem mem_series (hf : (name, f) ∈ panel.series) :
    name ∈ files.names ∧ ∃ mask, panelMask req (files.file name) start stop = .ok mask ∧
      f = panelCell (files.file name) start stop mask := by
  obtain ⟨grid, -, hload⟩ := bind_eq_ok.mp hload
  obtain ⟨scanned, hscanned, hload⟩ := bind_eq_ok.mp hload
  split at hload
  · cases hload
  obtain ⟨series, hseries, hload⟩ := bind_eq_ok.mp hload
  cases hload
  obtain ⟨⟨name', mask⟩, hmem, hread⟩ := mem_of_mapM_eq_ok hseries _ hf
  obtain ⟨_, hmem, rfl⟩ := mem_filterMap.mp hmem
  obtain ⟨name'', hname, hscan⟩ := mem_of_mapM_eq_ok hscanned _ hmem
  obtain ⟨mask', hmask, hscan⟩ := bind_eq_ok.mp hscan
  rw [pure_eq_ok] at hscan
  rw [readColumns] at hread
  split at hread
  · cases hread
  cases hread
  split at hscan
  · cases hscan
  cases hscan; exact ⟨(mem_filter.mp hname).1, mask, hmask, rfl⟩

theorem le_of_mem_grid {t : ℤ} (ht : t ∈ panel.grid) :
    start ≤ t := by
  obtain ⟨grid, hgrid, hload⟩ := bind_eq_ok.mp hload
  obtain ⟨scanned, -, hload⟩ := bind_eq_ok.mp hload
  split at hload
  · cases hload
  obtain ⟨series, -, hload⟩ := bind_eq_ok.mp hload
  cases hload
  rw [buildUniformGrid] at hgrid
  split at hgrid
  · cases hgrid
  cases hgrid
  obtain ⟨k, -, rfl⟩ := mem_map.mp ht
  exact Int.le_add_of_nonneg_right (Int.mul_nonneg (Int.natCast_nonneg k) (Int.natCast_nonneg _))

end

theorem panelCell_congr {file : BarFile} {mask mask' : List ℤ} {t : ℤ} (hstart : start ≤ start') (ht : start' ≤ t)
    (hmask : ∀ s, start' / msNs ≤ s → (s ∈ mask' ↔ s ∈ mask)) (column : String) :
    panelCell file start stop mask column t = panelCell file start' stop mask' column t := by
  have hrows : (windowRows file start stop mask).filter (fun r => decide (r.stamp * msNs = t)) =
      (windowRows file start' stop mask').filter fun r => decide (r.stamp * msNs = t) := by
    simp only [windowRows, BarFile.read, filter_filter]
    refine filter_congr fun r _ => ?_
    by_cases hr : r.stamp * msNs = t
    · have hlate : start' / msNs ≤ r.stamp := by
        rw [msNs] at *; omega
      have hearly : start / msNs ≤ r.stamp := (Int.ediv_le_ediv (by decide) hstart).trans hlate
      simp [hr, hlate, hearly, ht, hstart.trans ht, hmask r.stamp hlate]
    · simp [hr]
  rw [panelCell, panelCell, hrows]

/-- For a symbol in both panels every column has the same value at an instant of both grids. -/
def PanelAgrees (files : BarFiles) (req : PanelRequest) (start start' stop : ℤ) : Prop :=
  ∀ panel panel', loadBasePanel files req start stop = .ok panel →
    loadBasePanel files req start' stop = .ok panel' →
    ∀ name f f', (name, f) ∈ panel.series → (name, f') ∈ panel'.series →
      ∀ column, ∀ t ∈ panel.grid, t ∈ panel'.grid → f column t = f' column t

theorem panelAgrees_of_maskAgrees (hstart : start ≤ start') (hpolicy : req.policy = .zombieMaskV1)
    (hmasks : ∀ name ∈ files.names, MaskAgrees zombieFlatRunBars (files.file name) (start / msNs) (start' / msNs)
      (stop / msNs) (req.interval / msNs)) : PanelAgrees files req start start' stop := by
  intro panel panel' hload hload' name f f' hf hf' column t ht ht'
  obtain ⟨hname, mask, hmask, rfl⟩ := mem_series hload hf
  obtain ⟨-, mask', hmask', rfl⟩ := mem_series hload' hf'
  rw [panelMask, hpolicy] at hmask hmask'
  have hagree := hmasks name hname mask mask' hmask hmask'
  exact panelCell_congr hstart (le_of_mem_grid hload' ht') (fun s hs => by simp [hagree, hs]) column

/-- **When a mask does not depend on the window**: exactly when no flat run of `run_bars` rows that
reaches the later start begins before its look-back. -/
theorem mask_window_independent_iff {runBars : ℕ} (hruns : 1 ≤ runBars) (file : BarFile) (interval : ℤ)
    (hstart : start ≤ start') (hpolicy : req.policy = .zombieMaskV1) :
    (MaskAgrees runBars file start start' stop interval ↔
        (file.missing maskColumns = [] → Primed runBars file start start' stop interval)) ∧
      ((∀ name ∈ files.names, MaskAgrees zombieFlatRunBars (files.file name) (start / msNs) (start' / msNs)
          (stop / msNs) (req.interval / msNs)) ∧ PanelAgrees files req start start' stop ↔
        ∀ name ∈ files.names, (files.file name).missing maskColumns = [] →
          Primed zombieFlatRunBars (files.file name) (start / msNs) (start' / msNs) (stop / msNs)
            (req.interval / msNs)) := by
  refine ⟨maskAgrees_iff hruns hstart, ?_⟩
  have hms : start / msNs ≤ start' / msNs := Int.ediv_le_ediv (by decide) hstart
  constructor
  · rintro ⟨hmasks, -⟩ name hname; exact (maskAgrees_iff (by decide) hms).mp (hmasks name hname)
  · intro hprimed
    have hmasks := fun name hname => (maskAgrees_iff (by decide) hms).mpr (hprimed name hname)
    exact ⟨hmasks, panelAgrees_of_maskAgrees hstart hpolicy hmasks⟩

end Panels

def gapFile : BarFile where
  columns := ["timestamp", "high", "low", "volume"]
  rows := [⟨0, fun _ => some 0⟩, ⟨2, fun _ => some 0⟩]

theorem mask_depends_on_window : ¬ MaskAgrees 2 gapFile 0 2 2 1 := by
  intro h
  have := (h [2] [] (by decide) (by decide) 2).mpr; simp at this

/-- The hours 0 and 2 to 29 without a trade, stored newest first; an older row of hour 10 has a
trade. -/
def flatFile : BarFile where
  columns := ["timestamp", "close", "high", "low", "volume"]
  rows := ⟨10 * 3600000, fun _ => some 5⟩ ::
    (0 :: (range 28).map (· + 2)).reverse.map fun hour : ℕ => ⟨hour * 3600000, fun _ => some 0⟩

def flatFiles : BarFiles := ⟨["AAAUSDT"], fun _ => flatFile⟩

def hourlyRequest : PanelRequest := ⟨3600000000000, ["close"], fun _ => true, 1, .zombieMaskV1, .legacyWindow⟩

/-- The run of hours 3 to 26 lies in the look-back of the window that starts at hour 26: loaded from
hour 0 or from hour 26, the hours 26 to 29 are masked and the panels agree. -/
theorem mask_window_independent_of_flat :
    zombieMaskedTimestamps flatFile 0 104400000 3600000 24 =
        .ok [86400000, 90000000, 93600000, 97200000, 100800000, 104400000] ∧
      zombieMaskedTimestamps flatFile 93600000 104400000 3600000 24 =
        .ok [93600000, 97200000, 100800000, 104400000] ∧
      Primed 24 flatFile 0 93600000 104400000 3600000 ∧
      PanelAgrees flatFiles hourlyRequest 0 (93600000 * msNs) (104400000 * msNs) := by
  have hearly : zombieMaskedTimestamps flatFile 0 104400000 3600000 24 =
      .ok [86400000, 90000000, 93600000, 97200000, 100800000, 104400000] := by decide +kernel
  have hlate : zombieMaskedTimestamps flatFile 93600000 104400000 3600000 24 =
      .ok [93600000, 97200000, 100800000, 104400000] := by decide +kernel
  have hagree : MaskAgrees 24 flatFile 0 93600000 104400000 3600000 := by
    intro mask mask' hmask hmask' t
    rw [hearly] at hmask
    rw [hlate] at hmask'
    obtain rfl := Except.ok.inj hmask
    obtain rfl := Except.ok.inj hmask'; simp only [mem_cons, not_mem_nil, or_false]; omega
  have hmask : (MaskAgrees 24 flatFile 0 93600000 104400000 3600000 ↔ _) ∧
      (_ ∧ PanelAgrees flatFiles hourlyRequest 0 93600000 104400000 ↔ _) :=
    mask_window_independent_iff (by decide) flatFile 3600000 (by decide) rfl
  have hprimed := hmask.1.mp hagree rfl
  have hpanel : (MaskAgrees 24 flatFile 0 (93600000 * msNs) (104400000 * msNs) 3600000 ↔ _) ∧
      (_ ∧ PanelAgrees flatFiles hourlyRequest 0 (93600000 * msNs) (104400000 * msNs) ↔ _) :=
    mask_window_independent_iff (by decide) flatFile 3600000 (by decide) rfl
  exact ⟨hearly, hlate, hprimed, (hpanel.2.mpr fun _ _ _ => hprimed).2⟩

end CryptoPilot.Strategy
