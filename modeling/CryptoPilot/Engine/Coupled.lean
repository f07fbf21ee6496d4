/- # Coupled — the one-pass replay of a reference and its rescaled bounds.

`replay_execution_windows_coupled` consumes a window with the unscaled reference, computes the scale
from the equity of the reference so far, rescales the window and hands it to every scaled bound.
They agree on every stream of the generator (`coupled_eq_twoPass`), as the scale at a day reads
complete days only. -/
import CryptoPilot.Engine.Steps
import CryptoPilot.Engine.Pieces

namespace CryptoPilot.Engine

open List Option Except

open CryptoPilot.Live (Exc)
open CryptoPilot.Lib (bind_eq_ok forall₂_of_mapM_eq_ok exists_ok)

/-! ## Daily returns -/

def dayNs : ℤ := 24 * 60 * minuteNs

def dayOf (t : ℤ) : ℤ := t / dayNs

structure DailySeries where
  first : ℤ
  values : List (Option ℚ)

/-- `resample("1D").last()`: the last equity of a day. -/
def lastEquity (rows : List LedgerRow) (day : ℤ) : Option ℚ :=
  ((rows.filter (fun r => decide (dayOf r.bar = day))).getLast?).map LedgerRow.equity

/-- `pct_change` at a day. -/
def dailyReturn (rows : List LedgerRow) (day : ℤ) : Option ℚ :=
  match lastEquity rows (day - 1), lastEquity rows day with
  | some prior, some equity => some (equity / prior - 1)
  | _, _ => none

/-- The daily returns of a ledger, from the day of its first bar to the day of its last. -/
def dailyReturns (rows : List LedgerRow) : DailySeries :=
  match rows.head?, rows.getLast? with
  | some first, some last =>
    ⟨dayOf first.bar, (List.range (dayOf last.bar - dayOf first.bar + 1).toNat).map
      (fun k : ℕ => dailyReturn rows (dayOf first.bar + k))⟩
  | _, _ => ⟨0, []⟩

/-- A scale function: a value for each day of the index of its argument. -/
abbrev ScaleFn := DailySeries → ℤ → Option ℚ

/-- `scale.reindex(…, method="ffill").fillna(1.0)`: the value of the last day not after the label.
-/
def scaleAt (index : DailySeries) (scale : ℤ → Option ℚ) (t : ℤ) : ℚ :=
  if index.values = [] ∨ dayOf t < index.first then 1
  else (scale (min (dayOf t) (index.first + index.values.length - 1))).getD 1

def rescaleDecision (factor : ℤ → ℚ) (d : Decision) : Decision :=
  { d with target := fun s => (d.target s).map (fun x => x * factor d.label) }

/-- `_rescale_window_weights`. -/
def rescaleWindow (factor : ℤ → ℚ) (w : Window) : Except Exc Window :=
  let scaled := w.decisions.map (rescaleDecision factor)
  if w.symbols.all (fun s => targeted w.decisions s == targeted scaled s) then .ok { w with decisions := scaled }
  else .error .dataIntegrityError

/-! ## Batches of bounds -/

/-- The accumulator of a bound, absent once an isolated failure took it out, and its windows. -/
structure BoundRun where
  acc : Option Acc
  consumed : ℕ

/-- `IsolatedBoundFailure`, without its texts. -/
structure IsolatedFailure where
  index : ℕ
  windowsConsumed : ℕ
  deriving DecidableEq

structure Batch where
  runs : ℕ → BoundRun
  failures : List IsolatedFailure

/-- The bounds of a batch with their positions, and which of them are isolated. -/
structure Bounds where
  configs : List ReplayConfig
  isolated : List ℕ

def Bounds.indexed (bs : Bounds) : List (ℕ × ReplayConfig) := bs.configs.zipIdx.map Prod.swap

def Bounds.init (bs : Bounds) : Batch := ⟨fun i => ⟨(bs.configs[i]?).map Acc.init, 0⟩, []⟩

def Batch.isolate (state : Batch) (i : ℕ) : Batch :=
  { runs := Function.update state.runs i ⟨none, (state.runs i).consumed⟩
    failures := state.failures ++ [⟨i, (state.runs i).consumed⟩] }

/-- `_try_consume`: an isolated bound that raises leaves the batch, any other one ends it. -/
def tryConsume (bs : Bounds) (w : Window) (state : Batch) (bound : ℕ × ReplayConfig) : Except Exc Batch :=
  match (state.runs bound.1).acc with
  | none => .ok state
  | some acc =>
    match consume bound.2 acc w with
    | .ok acc =>
      .ok { state with runs := Function.update state.runs bound.1 ⟨some acc, (state.runs bound.1).consumed + 1⟩ }
    | .error e =>
      if e = .dataIntegrityError ∧ bound.1 ∈ bs.isolated then .ok (state.isolate bound.1) else .error e

def consumeBatch (bs : Bounds) (state : Batch) (w : Window) : Except Exc Batch :=
  bs.indexed.foldlM (tryConsume bs w) state

def tryFinalize (bs : Bounds) (state : List (Option ReplayResult) × Batch) (bound : ℕ × ReplayConfig) :
    Except Exc (List (Option ReplayResult) × Batch) :=
  match (state.2.runs bound.1).acc with
  | none => .ok (state.1 ++ [none], state.2)
  | some acc =>
    match finalize bound.2 acc with
    | .ok res => .ok (state.1 ++ [some res], state.2)
    | .error e =>
      if e = .dataIntegrityError ∧ bound.1 ∈ bs.isolated then .ok (state.1 ++ [none], state.2.isolate bound.1)
      else .error e

/-- `BatchReplayOutcome`. -/
structure BatchOutcome where
  results : List (Option ReplayResult)
  failures : List IsolatedFailure

def finalizeBatch (bs : Bounds) (state : Batch) : Except Exc BatchOutcome := do
  let (results, state) ← bs.indexed.foldlM (tryFinalize bs) ([], state)
  .ok ⟨results, state.failures⟩

def Bounds.accepted (bs : Bounds) : Bool :=
  !bs.configs.isEmpty && bs.isolated.all (fun i => decide (i < bs.configs.length))

/-- `replay_execution_window_batch_isolated`. -/
def replayBatchIsolated (bs : Bounds) (windows : List Window) : Except Exc BatchOutcome :=
  if bs.accepted = false then .error .other
  else if windows = [] then .error .dataIntegrityError
  else do
    let state ← windows.foldlM (consumeBatch bs) bs.init
    finalizeBatch bs state

/-! ## The coupled replay and the two-pass replay -/

structure Coupled where
  reference : Acc
  coverage : ℤ
  batch : Batch

def coupleWindow (reference : ReplayConfig) (bs : Bounds) (scale : ScaleFn) (state : Coupled) (w : Window) :
    Except Exc Coupled :=
  if 0 ≤ state.coverage ∧ state.coverage < w.first then .error .dataIntegrityError
  else do
    let acc ← consume reference state.reference w
    let index := dailyReturns acc.rows
    let scaled ← rescaleWindow (scaleAt index (scale index)) w
    let batch ← consumeBatch bs state.batch scaled
    .ok ⟨acc, max state.coverage w.last, batch⟩

/-- `replay_execution_windows_coupled`. -/
def replayCoupled (reference : ReplayConfig) (bs : Bounds) (scale : ScaleFn) (windows : List Window) :
    Except Exc (ReplayResult × BatchOutcome) :=
  if bs.accepted = false then .error .other
  else if windows = [] then .error .dataIntegrityError
  else do
    let state ← windows.foldlM (coupleWindow reference bs scale) ⟨Acc.init reference, -1, bs.init⟩
    let result ← finalize reference state.reference
    let outcome ← finalizeBatch bs state.batch
    .ok (result, outcome)

/-- The two-pass path: the reference over the whole stream, its scale, and the scaled bounds over
the rescaled windows. -/
def replayTwoPass (reference : ReplayConfig) (bs : Bounds) (scale : ScaleFn) (windows : List Window) :
    Except Exc (ReplayResult × BatchOutcome) := do
  let result ← replay reference windows
  let index := dailyReturns result.rows
  let scaled ← windows.mapM (rescaleWindow (scaleAt index (scale index)))
  let outcome ← replayBatchIsolated bs scaled
  .ok (result, outcome)

def ScaleFn.Causal (scale : ScaleFn) : Prop :=
  ∀ (x y : DailySeries) (day : ℤ), x.first = y.first → x.first ≤ day → day < x.first + x.values.length →
    day < y.first + y.values.length → x.values.take (day - x.first).toNat = y.values.take (day - x.first).toNat →
    scale x day = scale y day

/-! ## A longer ledger has the same complete days -/

section Days

theorem dayOf_mono {s t : ℤ} (h : s ≤ t) : dayOf s ≤ dayOf t := Int.ediv_le_ediv (by decide) h

variable {before later : List LedgerRow} {x : LedgerRow}

theorem lastEquity_append {day : ℤ} (h : ∀ r ∈ later, day < dayOf r.bar) :
    lastEquity (before ++ later) day = lastEquity before day := by
  unfold lastEquity
  rw [filter_append]
  have hnil : later.filter (fun r => decide (dayOf r.bar = day)) = [] := by
    rw [filter_eq_nil_iff]
    intro r hr
    have := h r hr; simp only [decide_eq_true_eq]; omega
  rw [hnil, append_nil]

theorem dailyReturn_append (hlater : ∀ r ∈ later, x.bar ≤ r.bar) {day : ℤ} (hday : day < dayOf x.bar) :
    dailyReturn (before ++ later) day = dailyReturn before day := by
  unfold dailyReturn
  rw [lastEquity_append, lastEquity_append]
  · intro r hr; exact hday.trans_le (dayOf_mono (hlater r hr))
  · intro r hr
    have := dayOf_mono (hlater r hr); omega

theorem dailyReturns_of_ends {rows : List LedgerRow} {first last : LedgerRow} (hfirst : rows.head? = some first)
    (hlast : rows.getLast? = some last) :
    dailyReturns rows = ⟨dayOf first.bar, (List.range (dayOf last.bar - dayOf first.bar + 1).toNat).map
      (fun k : ℕ => dailyReturn rows (dayOf first.bar + k))⟩ := by
  unfold dailyReturns
  rw [hfirst, hlast]

/-- **The scale at a covered label**: a causal scale of a longer ledger is the scale of the shorter
one. -/
theorem scaleAt_append {scale : ScaleFn} (hcausal : scale.Causal) (hx : before.getLast? = some x)
    (hsorted : ∀ r ∈ before, r.bar ≤ x.bar) (hlater : ∀ r ∈ later, x.bar ≤ r.bar) {t : ℤ} (ht : t ≤ x.bar) :
    scaleAt (dailyReturns (before ++ later)) (scale (dailyReturns (before ++ later))) t =
      scaleAt (dailyReturns before) (scale (dailyReturns before)) t := by
  obtain ⟨first, hfirst⟩ : ∃ first, before.head? = some first := by
    cases before with
    | nil => simp at hx
    | cons r rest => exact ⟨r, rfl⟩
  have hfirst' : (before ++ later).head? = some first := by
    rw [head?_append, hfirst]; rfl
  obtain ⟨last, hlast, hle⟩ : ∃ last, (before ++ later).getLast? = some last ∧ x.bar ≤ last.bar := by
    rw [getLast?_append, hx]
    cases hl : later.getLast? with
    | none => exact ⟨x, rfl, le_rfl⟩
    | some y => exact ⟨y, rfl, hlater y (mem_of_getLast? hl)⟩
  have hday := dayOf_mono ht
  have hdayl := dayOf_mono hle
  rw [dailyReturns_of_ends hfirst' hlast, dailyReturns_of_ends hfirst hx]
  unfold scaleAt
  simp only [map_eq_nil_iff, range_eq_nil, length_map, length_range]
  by_cases hearly : dayOf t < dayOf first.bar
  · rw [if_pos (.inr hearly), if_pos (.inr hearly)]
  · rw [if_neg (by omega), if_neg (by omega), min_eq_left (by omega), min_eq_left (by omega)]
    congr 1
    apply hcausal
    · rfl
    · exact not_lt.mp hearly
    · simp only [length_map, length_range]; omega
    · simp only [length_map, length_range]; omega
    · -- both are the returns of the days before the label
      simp only [← map_take, take_range]
      rw [min_eq_left (by omega), min_eq_left (by omega)]
      apply map_congr_left
      intro k hk
      rw [mem_range] at hk; exact dailyReturn_append hlater (by omega)

end Days

/-! ## Runs of the reference -/

section Reference

variable {cfg : ReplayConfig} {a b : Acc} {w : Window}

def RowsBefore (acc : Acc) : Prop := ∀ r ∈ acc.rows, ∃ t ∈ acc.ledgerStart, r.bar < t

theorem consume_rowsBefore (h : consume cfg a w = .ok b) (ha : RowsBefore a) :
    RowsBefore b ∧ (∀ t ∈ a.ledgerStart, t ≤ w.last) ∧ ∃ x, b.rows.getLast? = some x ∧ x.bar = w.last ∧
      ∀ r ∈ b.rows, r.bar ≤ w.last := by
  obtain ⟨hlength, hstart, later, hrows, hbars, hne⟩ := consume_rows h
  have hpos := Window.barNs_pos hlength
  have hkept : ∀ r ∈ later, r.bar ∈ keptBars w a := by
    intro r hr
    rw [← hbars]; exact mem_map_of_mem hr
  obtain ⟨y, hy⟩ := exists_mem_of_ne_nil _ hne
  have hle : ∀ t ∈ a.ledgerStart, t ≤ w.last := fun t ht =>
    ((mem_keptBars.mp hy).2 t ht).trans (Window.mem_le_last (mem_keptBars.mp hy).1)
  have hall : ∀ r ∈ b.rows, r.bar ≤ w.last := by
    intro r hr
    rw [hrows] at hr
    rcases mem_append.mp hr with hr | hr
    · obtain ⟨t, ht, hlt⟩ := ha r hr; exact hlt.le.trans (hle t ht)
    · exact Window.mem_le_last (mem_keptBars.mp (hkept r hr)).1
  refine ⟨?_, hle, ?_⟩
  · intro r hr
    refine ⟨_, hstart, ?_⟩
    have := hall r hr; omega
  · have hlast := congrArg getLast? hbars
    rw [keptBars_getLast hne, getLast?_map, map_eq_some_iff] at hlast
    obtain ⟨x, hx, hbar⟩ := hlast
    refine ⟨x, ?_, hbar, hall⟩
    rw [hrows, getLast?_append, hx]; rfl

theorem run_rows {ws : List Window} {t : ℤ} (h : ws.foldlM (consume cfg) a = .ok b) (ht : a.ledgerStart = some t) :
    ∃ later, b.rows = a.rows ++ later ∧ ∀ r ∈ later, t ≤ r.bar := by
  induction ws generalizing a t with
  | nil =>
    exact ⟨[], by simp [← ok.inj h], by simp⟩
  | cons w ws ih =>
    rw [foldlM_cons, bind_eq_ok] at h
    obtain ⟨c, hc, h⟩ := h
    obtain ⟨hlength, hstart, first, hrows, hbars, hne⟩ := consume_rows hc
    obtain ⟨rest, hrest, hge⟩ := ih h hstart
    have hpos := Window.barNs_pos hlength
    have hkept : ∀ x ∈ keptBars w a, x ≤ w.last ∧ t ≤ x := fun x hx =>
      ⟨Window.mem_le_last (mem_keptBars.mp hx).1, (mem_keptBars.mp hx).2 t ht⟩
    obtain ⟨y, hy⟩ := exists_mem_of_ne_nil _ hne
    have hy := hkept y hy
    refine ⟨first ++ rest, by rw [hrest, hrows, append_assoc], ?_⟩
    intro r hr
    rcases mem_append.mp hr with hr | hr
    · have : r.bar ∈ keptBars w a := by
        rw [← hbars]; exact mem_map_of_mem hr
      exact (hkept _ this).2
    · have := hge r hr; omega

end Reference

/-! ## The coupled loop -/

section Loop

variable {reference : ReplayConfig} {bs : Bounds} {scale : ScaleFn}

/-- A window covers its decisions, or the next one starts at the last of them. -/
def Window.Linked (v w : Window) : Prop :=
  (v.grid ≠ [] → ∀ d ∈ v.decisions, d.label ≤ v.last) ∨ ∃ e, v.decisions.getLast? = some e ∧ w.first = e.label

variable {w : Window}

theorem rescaleWindow_congr {f g : ℤ → ℚ} (h : ∀ d ∈ w.decisions, f d.label = g d.label) :
    rescaleWindow f w = rescaleWindow g w := by
  have hmap : w.decisions.map (rescaleDecision f) = w.decisions.map (rescaleDecision g) := by
    apply map_congr_left
    intro d hd
    unfold rescaleDecision
    rw [h d hd]
  unfold rescaleWindow; simp only [hmap]

/-- What the loop keeps: the reference's ledger, and a coverage that ends before the next ledger
start. -/
structure Coupled.Sound (state : Coupled) : Prop where
  rows : RowsBefore state.reference
  coverage : state.coverage = -1 ∧ state.reference.ledgerStart = none ∨
    0 ≤ state.coverage ∧ ∃ t, state.reference.ledgerStart = some t ∧ state.coverage < t

variable {state next : Coupled}

theorem coupleWindow_eq_ok (h : coupleWindow reference bs scale state w = .ok next) :
    (0 ≤ state.coverage → w.first ≤ state.coverage) ∧ consume reference state.reference w = .ok next.reference ∧
      next.coverage = max state.coverage w.last ∧
      ∃ scaled, rescaleWindow (scaleAt (dailyReturns next.reference.rows)
        (scale (dailyReturns next.reference.rows))) w =
        .ok scaled ∧ consumeBatch bs state.batch scaled = .ok next.batch := by
  unfold coupleWindow at h
  split at h
  · cases h
  · next hgate =>
    obtain ⟨acc, hacc, h⟩ := bind_eq_ok.mp h
    obtain ⟨scaled, hscaled, h⟩ := bind_eq_ok.mp h
    obtain ⟨batch, hbatch, h⟩ := bind_eq_ok.mp h
    rw [ok.injEq] at h
    subst h
    refine ⟨?_, hacc, rfl, scaled, hscaled, hbatch⟩
    intro hcoverage
    by_contra hlt; exact hgate ⟨hcoverage, not_le.mp hlt⟩

theorem Coupled.Sound.step (hs : state.Sound) (hfirst : state.coverage = -1 → 0 ≤ w.last)
    (h : coupleWindow reference bs scale state w = .ok next) :
    next.Sound ∧ next.coverage = w.last := by
  obtain ⟨-, hconsume, hcoverage, -⟩ := coupleWindow_eq_ok h
  obtain ⟨hrows, hle, -⟩ := consume_rowsBefore hconsume hs.rows
  obtain ⟨hlength, hstart, -⟩ := consume_rows hconsume
  have hpos := Window.barNs_pos hlength
  have hlast : state.coverage < w.last ∧ 0 ≤ w.last := by
    rcases hs.coverage with ⟨hneg, -⟩ | ⟨hnonneg, t, ht, hlt⟩
    · omega
    · have := hle t ht; omega
  rw [max_eq_right hlast.1.le] at hcoverage
  refine ⟨⟨hrows, .inr ⟨by omega, _, hstart, by omega⟩⟩, hcoverage⟩

variable {ws : List Window} {req : StreamRequest} {m : Market} {ps : List Piece}

/-- **The loop.**  Its reference is that of the first pass, its windows are rescaled as in the
second. -/
theorem coupled_loop (hcausal : scale.Causal) {state out : Coupled} (hs : state.Sound)
    (hchain : ws.IsChain Window.Linked) (hfirst : state.coverage = -1 → ∀ w ∈ ws.head?, 0 ≤ w.last)
    (h : ws.foldlM (coupleWindow reference bs scale) state = .ok out) :
    ws.foldlM (consume reference) state.reference = .ok out.reference ∧
      ∃ scaled, ws.mapM (rescaleWindow
          (scaleAt (dailyReturns out.reference.rows) (scale (dailyReturns out.reference.rows)))) = .ok scaled ∧
        scaled.foldlM (consumeBatch bs) state.batch = .ok out.batch := by
  induction ws generalizing state with
  | nil =>
    rw [← ok.inj h]; exact ⟨rfl, [], rfl, rfl⟩
  | cons w ws ih =>
    rw [foldlM_cons, bind_eq_ok] at h
    obtain ⟨next, hnext, h⟩ := h
    obtain ⟨hsound, hcoverage⟩ := hs.step (fun hc => hfirst hc w rfl) hnext
    obtain ⟨-, hconsume, -, scaled, hscaled, hbatch⟩ := coupleWindow_eq_ok hnext
    have hnonneg : 0 ≤ next.coverage := by
      rcases hsound.coverage with ⟨-, hnone⟩ | ⟨hn, -⟩
      · rw [(consume_rows hconsume).2.1] at hnone; cases hnone
      · exact hn
    obtain ⟨hrun, rest, hrest, hfold⟩ := ih hsound hchain.tail (fun hc => by omega) h
    obtain ⟨-, -, x, hx, hxbar, hsorted⟩ := consume_rowsBefore hconsume hs.rows
    obtain ⟨hlength, hstart, -⟩ := consume_rows hconsume
    obtain ⟨later, hlater, hge⟩ := run_rows hrun hstart
    -- the full scale agrees with the scale so far at the decisions of this window
    have hagree : ∀ d ∈ w.decisions,
        scaleAt (dailyReturns out.reference.rows) (scale (dailyReturns out.reference.rows)) d.label =
          scaleAt (dailyReturns next.reference.rows) (scale (dailyReturns next.reference.rows)) d.label := by
      intro d hd
      cases ws with
      | nil =>
        rw [← ok.inj h]
      | cons v vs =>
        have hlabel : d.label ≤ w.last := by
          rcases (isChain_cons_cons.mp hchain).1 with hcovers | ⟨e, he, hv⟩
          · exact hcovers (ne_nil_of_length_pos (by omega)) d hd
          · rw [foldlM_cons, bind_eq_ok] at h
            obtain ⟨next', hnext', -⟩ := h
            have hgate := (coupleWindow_eq_ok hnext').1 hnonneg
            have hle : d.label ≤ e.label := by
              obtain ⟨front, hfront⟩ := getLast?_eq_some_iff.mp he
              have hpairs := consume_decisions_sorted hconsume
              rw [hfront] at hpairs hd
              rcases mem_append.mp hd with hd | hd
              · exact (pairwise_append.mp hpairs).2.2 d hd e (mem_singleton_self e)
              · rw [mem_singleton.mp hd]
            omega
        have hpos := Window.barNs_pos hlength
        rw [hlater]
        refine scaleAt_append hcausal hx (fun r hr => hxbar ▸ hsorted r hr) (fun r hr => ?_) (hxbar ▸ hlabel)
        have := hge r hr; omega
    refine ⟨?_, scaled :: rest, ?_, ?_⟩
    · rw [foldlM_cons, bind_eq_ok]; exact ⟨_, hconsume, hrun⟩
    · rw [mapM_cons, bind_eq_ok]
      refine ⟨scaled, by rw [rescaleWindow_congr hagree, hscaled], ?_⟩
      rw [bind_eq_ok]; exact ⟨rest, hrest, rfl⟩
    · rw [foldlM_cons, bind_eq_ok]; exact ⟨_, hbatch, hfold⟩

/-- A stream of the generator: the windows of its pieces, whatever rosters they were requested for.
-/
def Streamed (req : StreamRequest) (m : Market) (ps : List Piece) (ws : List Window) : Prop :=
  List.Forall₂ (fun p w => ∃ previous requirement, materialize req m p previous requirement = .ok w) ps ws

theorem Streamed.linked (h : Streamed req m ps ws) (hchain : ps.IsChain Piece.Linked) :
    ws.IsChain Window.Linked := by
  induction h with
  | nil => simp
  | cons hw hrest ih =>
    obtain ⟨previous, requirement, hw⟩ := hw
    have hw := materialize_eq_ok hw
    apply (ih hchain.tail).cons
    intro v hv
    cases hrest with
    | nil => simp at hv
    | cons hv' _ =>
      obtain ⟨previous', requirement', hv'⟩ := hv'
      simp only [head?_cons, mem_def, Option.some.injEq] at hv
      subst hv
      have hv' := materialize_eq_ok hv'
      unfold Window.Linked Window.last Window.first
      rw [hw.grid, hw.decisions, hv'.grid]; exact (isChain_cons_cons.mp hchain).1

theorem Streamed.first_nonneg
    (h : Streamed req m ps ws) (hstart : 0 ≤ req.start)
    (hhead : ∀ p ∈ ps.head?, p.grid ≠ [] → p.grid.headD 0 = req.start) : ∀ w ∈ ws.head?, 0 ≤ w.last := by
  intro w hw
  cases h with
  | nil => simp at hw
  | @cons p v ps' ws' hv _ =>
    simp only [head?_cons, mem_def, Option.some.injEq] at hw
    subst hw
    obtain ⟨previous, requirement, hv⟩ := hv
    have hgrid := (materialize_eq_ok hv).grid
    cases hg : p.grid with
    | nil => simp [Window.last, hgrid, hg]
    | cons x xs =>
      have hx : x = req.start := by simpa [hg] using hhead p rfl
      have hmem : x ∈ v.grid := by
        rw [hgrid, hg]; exact mem_cons_self
      have := Window.mem_le_last hmem; omega

/-- **The coupled replay is the two-pass replay.**  On every stream of the generator and for every
causal scale, a coupled replay that does not raise returns what the two-pass path returns. -/
theorem coupled_eq_twoPass {plan : Option (ℕ × ℕ → ℕ)} {out : ReplayResult × BatchOutcome} (hstart : 0 ≤ req.start)
    (hps : pieces req plan = .ok ps) (hws : Streamed req m ps ws) (hcausal : scale.Causal)
    (h : replayCoupled reference bs scale ws = .ok out) : replayTwoPass reference bs scale ws = .ok out := by
  obtain ⟨hchain, hhead⟩ := pieces_linked hps
  unfold replayCoupled at h
  split at h
  · cases h
  · next haccepted =>
    split at h
    · cases h
    · next hne =>
      obtain ⟨state, hstate, h⟩ := bind_eq_ok.mp h
      obtain ⟨result, hresult, h⟩ := bind_eq_ok.mp h
      obtain ⟨outcome, houtcome, h⟩ := bind_eq_ok.mp h
      rw [ok.injEq] at h
      subst h
      have hinit : Coupled.Sound ⟨Acc.init reference, -1, bs.init⟩ :=
        ⟨by simp [RowsBefore, Acc.init], .inl ⟨rfl, rfl⟩⟩
      obtain ⟨hrun, scaled, hscaled, hfold⟩ := coupled_loop hcausal hinit (hws.linked hchain)
        (fun _ => hws.first_nonneg hstart hhead) hstate
      have hscaled_ne : scaled ≠ [] := by
        rintro rfl
        have := (forall₂_of_mapM_eq_ok hscaled).length_eq
        exact hne (length_eq_zero_iff.mp this)
      have hrows : result.rows = state.reference.rows := (finalize_eq_ok hresult).2.2.1
      rw [replayTwoPass, bind_eq_ok]
      refine ⟨result, ?_, ?_⟩
      · rw [replay, if_neg hne, bind_eq_ok]; exact ⟨_, hrun, hresult⟩
      · rw [bind_eq_ok]
        refine ⟨scaled, by rw [hrows]; exact hscaled, ?_⟩
        rw [bind_eq_ok]
        refine ⟨outcome, ?_, rfl⟩
        rw [replayBatchIsolated, if_neg haccepted, if_neg hscaled_ne, bind_eq_ok]
        exact ⟨_, hfold, houtcome⟩

theorem targetWindows_streamed :
    ∀ {ps : List Piece} {previous : List String} {ws : List Window},
      targetWindows req m previous ps = .ok ws → Streamed req m ps ws
  | [], previous, ws, h => by
    rw [targetWindows, ok.injEq] at h
    rw [← h]; exact .nil
  | p :: ps, previous, ws, h => by
    rw [targetWindows, bind_eq_ok] at h
    obtain ⟨w, hw, h⟩ := h
    obtain ⟨later, hlater, h⟩ := bind_eq_ok.mp h
    rw [ok.injEq] at h
    rw [← h]; exact .cons ⟨_, _, hw⟩ (targetWindows_streamed hlater)

/-- The last completed day's return sets the size, half of it while that return is not known. -/
def momentumScale : ScaleFn := fun index day =>
  ((index.values.take (day - index.first).toNat).getLast?).elim (some 1) fun last =>
    some (last.elim (1 / 2) (1 + ·))

theorem momentumScale_causal : momentumScale.Causal := by
  intro x y day hfirst _ _ _ htake; simp only [momentumScale, ← hfirst, htake]

/-- A decision before midnight and one after it, the windows cut between them. -/
def overMidnight : StreamRequest :=
  { oneDecision with
    decisions := [⟨477 * stepNs, 477 * stepNs, fun _ => some (1 / 2)⟩,
      ⟨482 * stepNs, 482 * stepNs, fun _ => some (-1)⟩]
    start := 477 * stepNs
    stop := 487 * stepNs }

/-- The scale of the second window reads the day the first one began. -/
theorem coupled_overMidnight :
    ∃ ps ws out, pieces overMidnight (some fun _ => 5) = .ok ps ∧ Streamed overMidnight (flatMarket []) ps ws ∧
      replayCoupled takerConfig ⟨[takerConfig], []⟩ momentumScale ws = .ok out ∧
      replayTwoPass takerConfig ⟨[takerConfig], []⟩ momentumScale ws = .ok out := by
  obtain ⟨out, hout, -⟩ := exists_ok (p := fun _ => true)
    (by decide +kernel : (windowStream overMidnight (flatMarket []) (some fun _ => 5) >>=
      replayCoupled takerConfig ⟨[takerConfig], []⟩ momentumScale).toOption.any (fun _ => true) = true)
  obtain ⟨ws, hws, hout⟩ := bind_eq_ok.mp hout
  rw [windowStream, bind_eq_ok] at hws
  obtain ⟨ps, hps, hws⟩ := hws
  have hstream := targetWindows_streamed hws
  exact ⟨ps, ws, out, hps, hstream, hout,
    coupled_eq_twoPass (by decide) hps hstream momentumScale_causal hout⟩

end Loop

end CryptoPilot.Engine
