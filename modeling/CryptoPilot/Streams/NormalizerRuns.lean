/- # NormalizerRuns — runs of the normalizer over a growing journal.

Members of the journal become complete one by one, cycles with any budget and clock derive what is
there, and a cycle may return, fail at any of its writes, or die (`CycleFate`).  A restart loses the
window and loads the last checkpoint that was saved (`run_normalizer` in
`src/market_data/streams/normalizer.py`). -/
import Mathlib
import CryptoPilot.Streams.Gathering

namespace CryptoPilot.Streams

open CryptoPilot.Lib CryptoPilot.Capture List Function

/-! # Runs -/

inductive CycleFate where
  /-- All succeed and the checkpoint is returned; then it is saved, or saving it fails. -/
  | returns (saved : Bool)
  /-- A write raises after this many. -/
  | fails (writes : ℕ)
  /-- The process dies after this many, before the checkpoint is saved. -/
  | dies (writes : ℕ)

inductive Action (C : Codec) where
  /-- The next member of the file is complete. -/
  | append (path : SegmentPath)
  /-- A member is being written behind the complete ones. -/
  | tear (path : SegmentPath) (tail : Tail C)
  | cycle (budget : ℕ) (nowNs : ℤ) (fate : CycleFate)
  | restart

structure State (C : Codec) where
  view : View C
  /-- All writes so far. -/
  log : List Write
  /-- The checkpoint file. -/
  saved : Checkpoint
  checkpoint : Checkpoint
  window : Window
  /-- Every checkpoint that a cycle returned; no operation reads it. -/
  returned : List Checkpoint

def View.grow {C : Codec} (v : View C) (p : SegmentPath) : View C :=
  ⟨Function.update v.count p (v.count p + 1), v.tail⟩

theorem View.count_le_grow {C : Codec} (v : View C) (p q : SegmentPath) : v.count q ≤ (v.grow p).count q := by
  show v.count q ≤ Function.update v.count p (v.count p + 1) q
  by_cases hq : q = p
  · rw [hq, update_self]; exact Nat.le_succ _
  · rw [update_of_ne hq]

variable {R : Runtime} (cfg : Config) (J : Journal R.toCodec)

namespace State

def lake {C : Codec} (s : State C) : Lake := s.log.foldl Write.apply Lake.empty

def restart {C : Codec} (s : State C) : State C := { s with checkpoint := s.saved, window := Window.empty }

def resume {C : Codec} (s : State C) (c : Checkpoint) : State C :=
  { s with saved := c, checkpoint := c, window := Window.empty }

def write {C : Codec} (s : State C) (writes : List Write) : State C := { s with log := s.log ++ writes }

/-- A cycle of `run_normalizer`. -/
def cycle (s : State R.toCodec) (budget : ℕ) (nowNs : ℤ) (fate : CycleFate) : State R.toCodec :=
  match derive R cfg (J.tree s.view) budget nowNs s.checkpoint s.window, fate with
  | (_, .error _), .dies _ => s.restart
  | (w, .error _), _ => { s with window := w }
  | (_, .ok plan), .returns saved =>
    { s.write plan.writes with
      checkpoint := plan.checkpoint
      window := plan.window
      saved := if saved then plan.checkpoint else s.saved
      returned := s.returned ++ [plan.checkpoint] }
  | (w, .ok plan), .fails k => { s.write (plan.writes.take k) with window := w }
  | (_, .ok plan), .dies k => (s.write (plan.writes.take k)).restart

def members (p : SegmentPath) : List Member := (J.files.find? (fun f => f.1 = p)).elim [] Prod.snd

def step (s : State R.toCodec) : Action R.toCodec → State R.toCodec
  | .append p =>
    if s.view.count p < (members J p).length then { s with view := s.view.grow p } else s
  | .tear p tail => { s with view := ⟨s.view.count, Function.update s.view.tail p tail⟩ }
  | .cycle budget nowNs fate => s.cycle cfg J budget nowNs fate
  | .restart => s.restart

/-- Before the first action: no member is complete and nothing is written. -/
def init (C : Codec) : State C :=
  ⟨⟨fun _ => 0, fun _ => ⟨[], torn_nil C⟩⟩, [], Checkpoint.empty, Checkpoint.empty, Window.empty, []⟩

def run (actions : List (Action R.toCodec)) : State R.toCodec := actions.foldl (step cfg J) (init R.toCodec)

def Steps (cond : State R.toCodec → Action R.toCodec → Prop) (actions : List (Action R.toCodec)) : Prop :=
  ∀ pre a post, actions = pre ++ a :: post → cond (run cfg J pre) a

variable {cfg J}

theorem mem_returned_step (s : State R.toCodec) (a : Action R.toCodec) {c : Checkpoint} (hc : c ∈ s.returned) :
    c ∈ (step cfg J s a).returned := by
  cases a with
  | append p =>
    rw [step]
    split <;> exact hc
  | tear p tail => exact hc
  | cycle budget nowNs fate =>
    show c ∈ (s.cycle cfg J budget nowNs fate).returned
    unfold cycle
    split
    · exact hc
    · exact hc
    · exact mem_append_left _ hc
    · exact hc
    · exact hc
  | restart => exact hc

theorem mem_returned_foldl {c : Checkpoint} : ∀ (actions : List (Action R.toCodec)) {s : State R.toCodec},
    c ∈ s.returned → c ∈ (actions.foldl (step cfg J) s).returned
  | [], _, hc => hc
  | a :: rest, s, hc => by
    exact mem_returned_foldl rest (mem_returned_step s a hc)

theorem run_induction {cond : State R.toCodec → Action R.toCodec → Prop} {Inv : State R.toCodec → Prop}
    (hinit : Inv (init R.toCodec)) (hstep : ∀ s a, cond s a → Inv s → Inv (step cfg J s a))
    {actions : List (Action R.toCodec)} (hsteps : Steps cfg J cond actions) : Inv (run cfg J actions) := by
  induction actions using reverseRecOn with
  | nil => exact hinit
  | append_singleton actions a ih =>
    have hpre : Inv (run cfg J actions) := by
      apply ih
      intro pre a' post heq; exact hsteps pre a' (post ++ [a]) (by simp [heq])
    rw [run, foldl_append]; exact hstep _ a (hsteps actions a [] rfl) hpre

/-- A checkpoint that a cycle can start from, now or after a restart, or that one returned. -/
def Known {C : Codec} (s : State C) (c : Checkpoint) : Prop := c = s.saved ∨ c = s.checkpoint ∨ c ∈ s.returned

/-- What has to be shown of cycles to know of whole runs: `Shown` of the files, `Good` of every
known checkpoint, `Marked` of the window beside it, and `Ok` of every write. -/
structure Rules (cfg : Config) (J : Journal R.toCodec) (cond : State R.toCodec → Action R.toCodec → Prop)
    (Shown : View R.toCodec → Prop) (Good : View R.toCodec → List Write → Checkpoint → Prop)
    (Marked : Checkpoint → List Write → Window → Prop) (Ok : Write → Prop) : Prop where
  shown_init : Shown (init R.toCodec).view
  shown_step : ∀ s a, cond s a → Shown s.view → Shown (step cfg J s a).view
  good_init : Good (init R.toCodec).view [] Checkpoint.empty
  good_view : ∀ v v' log c, Shown v' → (∀ p, v.count p ≤ v'.count p) → Good v log c → Good v' log c
  good_log : ∀ v log writes c, (∀ w ∈ writes, Ok w) → Good v log c → Good v (log ++ writes) c
  marked_empty : ∀ c log, Marked c log Window.empty
  marked_log : ∀ c log writes w, Marked c log w → Marked c (log ++ writes) w
  raised : ∀ c log w tree budget nowNs, Marked c log w → Marked c log (derive R cfg tree budget nowNs c w).1
  returned : ∀ s budget nowNs fate left plan, cond s (.cycle budget nowNs fate) → Shown s.view →
    Good s.view s.log s.checkpoint → Marked s.checkpoint s.log s.window → (∀ w ∈ s.log, Ok w) →
    derive R cfg (J.tree s.view) budget nowNs s.checkpoint s.window = (left, .ok plan) →
    (∀ w ∈ plan.writes, Ok w) ∧ Good s.view (s.log ++ plan.writes) plan.checkpoint ∧
      Marked plan.checkpoint (s.log ++ plan.writes) plan.window

structure Holds {C : Codec} (Shown : View C → Prop) (Good : View C → List Write → Checkpoint → Prop)
    (Marked : Checkpoint → List Write → Window → Prop) (Ok : Write → Prop) (s : State C) : Prop where
  shown : Shown s.view
  good : ∀ c, Known s c → Good s.view s.log c
  marked : Marked s.checkpoint s.log s.window
  ok : ∀ w ∈ s.log, Ok w

section Rules

variable {cond : State R.toCodec → Action R.toCodec → Prop} {Shown : View R.toCodec → Prop}
  {Good : View R.toCodec → List Write → Checkpoint → Prop} {Marked : Checkpoint → List Write → Window → Prop}
  {Ok : Write → Prop} {s : State R.toCodec}

theorem Holds.view (rules : Rules cfg J cond Shown Good Marked Ok)
    (h : Holds Shown Good Marked Ok s) {v : View R.toCodec}
    (hshown : Shown v) (hgrows : ∀ p, s.view.count p ≤
      v.count p) : Holds Shown Good Marked Ok { s with view := v } :=
  ⟨hshown, fun c hc => rules.good_view _ _ _ c hshown hgrows (h.good c hc), h.marked, h.ok⟩

theorem Holds.write (rules : Rules cfg J cond Shown Good Marked Ok) (h : Holds Shown Good Marked Ok s)
    {writes : List Write} (hok : ∀ w ∈ writes, Ok w) : Holds Shown Good Marked Ok (s.write writes) := by
  refine ⟨h.shown, fun c hc => rules.good_log _ _ _ c hok (h.good c hc), rules.marked_log _ _ _ _ h.marked, ?_⟩
  intro w hw
  rcases mem_append.mp hw with hw | hw
  · exact h.ok w hw
  · exact hok w hw

theorem Holds.restart (rules : Rules cfg J cond Shown Good Marked Ok) (h : Holds Shown Good Marked Ok s) :
    Holds Shown Good Marked Ok s.restart := by
  refine ⟨h.shown, ?_, rules.marked_empty _ _, h.ok⟩
  rintro c (hc | hc | hc)
  · exact h.good c (Or.inl hc)
  · exact h.good c (Or.inl hc)
  · exact h.good c (Or.inr (Or.inr hc))

theorem Holds.cycle (rules : Rules cfg J cond Shown Good Marked Ok) (h : Holds Shown Good Marked Ok s) {budget : ℕ}
    {nowNs : ℤ} {fate : CycleFate} (hcond : cond s (.cycle budget nowNs fate)) :
    Holds Shown Good Marked Ok (s.cycle cfg J budget nowNs fate) := by
  have hraised := rules.raised _ _ _ (J.tree s.view) budget nowNs h.marked
  have hreturned := rules.returned s budget nowNs fate
  unfold State.cycle
  split
  · exact h.restart rules
  · next w e heq _ =>
    rw [heq] at hraised; exact ⟨h.shown, h.good, hraised, h.ok⟩
  · next left plan saved heq =>
    obtain ⟨hok, hgood, hmarked⟩ := hreturned left plan hcond h.shown
      (h.good _ (Or.inr (Or.inl rfl))) h.marked h.ok heq
    have hwritten := h.write rules hok
    refine ⟨h.shown, ?_, hmarked, hwritten.ok⟩
    rintro c (hc | hc | hc)
    · change c = if saved then plan.checkpoint else s.saved at hc
      split at hc
      · exact hc ▸ hgood
      · exact hwritten.good c (Or.inl hc)
    · exact hc ▸ hgood
    · rcases mem_append.mp hc with hc | hc
      · exact hwritten.good c (Or.inr (Or.inr hc))
      · exact mem_singleton.mp hc ▸ hgood
  · next left plan k heq =>
    obtain ⟨hok, -, -⟩ := hreturned left plan hcond h.shown (h.good _ (Or.inr (Or.inl rfl))) h.marked h.ok heq
    have hfirst : ∀ w ∈ plan.writes.take k, Ok w := fun w hw => hok w (mem_of_mem_take hw)
    have hwritten := h.write rules hfirst
    rw [heq] at hraised
    exact ⟨h.shown, hwritten.good, rules.marked_log _ _ _ _ hraised, hwritten.ok⟩
  · next left plan k heq =>
    obtain ⟨hok, -, -⟩ := hreturned left plan hcond h.shown (h.good _ (Or.inr (Or.inl rfl))) h.marked h.ok heq
    exact (h.write rules (fun w hw => hok w (mem_of_mem_take hw))).restart rules

theorem Holds.step (rules : Rules cfg J cond Shown Good Marked Ok) (h : Holds Shown Good Marked Ok s)
    {a : Action R.toCodec} (hcond : cond s a) : Holds Shown Good Marked Ok (State.step cfg J s a) := by
  have hshown := rules.shown_step s a hcond h.shown
  cases a with
  | append p =>
    rw [State.step] at hshown ⊢
    split
    · next hlt =>
      rw [if_pos hlt] at hshown; exact h.view rules hshown (s.view.count_le_grow p)
    · exact h
  | tear p tail => exact h.view rules hshown (fun _ => le_rfl)
  | cycle budget nowNs fate => exact h.cycle rules hcond
  | restart => exact h.restart rules

theorem Holds.foldl (rules : Rules cfg J cond Shown Good Marked Ok) (hcond : ∀ s a, cond s a) :
    ∀ (actions : List (Action R.toCodec)) {s : State R.toCodec}, Holds Shown Good Marked Ok s →
      Holds Shown Good Marked Ok (actions.foldl (State.step cfg J) s)
  | [], _, h => h
  | a :: rest, s, h => Holds.foldl rules hcond rest (h.step rules (hcond s a))

/-- **What holds of every cycle holds in every run.** -/
theorem Rules.run (rules : Rules cfg J cond Shown Good Marked Ok) {actions : List (Action R.toCodec)}
    (hsteps : Steps cfg J cond actions) : Holds Shown Good Marked Ok (State.run cfg J actions) := by
  apply run_induction _ _ hsteps
  · refine ⟨rules.shown_init, ?_, rules.marked_empty _ _, fun w hw => (not_mem_nil hw).elim⟩
    rintro c (hc | hc | hc)
    · exact hc ▸ rules.good_init
    · exact hc ▸ rules.good_init
    · exact (not_mem_nil hc).elim
  · exact fun s a hcond h => h.step rules hcond

theorem Holds.resume (rules : Rules cfg J cond Shown Good Marked Ok) (h : Holds Shown Good Marked Ok s)
    {c : Checkpoint} (hc : c ∈ s.returned) : Holds Shown Good Marked Ok (s.resume c) := by
  have hgood := h.good c (Or.inr (Or.inr hc))
  refine ⟨h.shown, ?_, rules.marked_empty _ _, h.ok⟩
  rintro c' (hc' | hc' | hc')
  · exact hc' ▸ hgood
  · exact hc' ▸ hgood
  · exact h.good c' (Or.inr (Or.inr hc'))

end Rules

end State

/-! # What a partition holds -/

def snapshotBatch (stream : Stream) (hour : ℤ) : Write → Option (List Row)
  | .snapshot stream' hour' chunk => if stream' = stream ∧ hour' = hour then some chunk else none
  | _ => none

/-- What a write brings to a liquidation partition, in the types of the partition. -/
def eventBatch (hour : ℤ) : Write → Option (List LiquidationEvent)
  | .liquidation hour' chunk => if hour' = hour then some (chunk.map LiquidationEvent.compact) else none
  | _ => none

section Partition

variable {log : List Write}

variable {stream : Stream} {hour : ℤ}

theorem snapshots_apply_batch (lake : Lake) (w : Write) (b : List Row)
    (hb : snapshotBatch stream hour w = some b) (hexisting : ∀ r ∈ lake.snapshots stream hour, r.enforceDtypes = r)
    (hchunk : ∀ r ∈ b, r.enforceDtypes = r) (r : Row) : r ∈ (w.apply lake).snapshots stream hour ↔
      r ∈ mergeEarliest Row.key Row.fetchedAtMs (lake.snapshots stream hour) b := by
  cases w with
  | snapshot stream' hour' chunk =>
    obtain ⟨⟨rfl, rfl⟩, heq⟩ := (Option.ite_none_right_eq_some).mp hb
    cases heq
    simp only [Write.apply, update_self]; exact mem_mergePartition hexisting hchunk
  | liquidation _ _ | coverage _ => cases hb

theorem snapshots_apply_other (lake : Lake) (w : Write) (hb : snapshotBatch stream hour w = none) :
    (w.apply lake).snapshots stream hour = lake.snapshots stream hour := by
  cases w with
  | snapshot stream' hour' chunk =>
    have hne : ¬ (stream' = stream ∧ hour' = hour) := by simpa [snapshotBatch] using hb
    by_cases hs : stream = stream'
    · subst hs
      have hh : hour ≠ hour' := fun h => hne ⟨rfl, h.symm⟩
      simp [Write.apply, update_of_ne hh]
    · simp [Write.apply, update_of_ne hs]
  | liquidation _ _ | coverage _ => rfl

section

variable (hdtypes : ∀ r ∈ logged (snapshotBatch stream hour) log, r.enforceDtypes = r)

include hdtypes

/-- **A snapshot partition holds the earliest rows that were written to it.** -/
theorem mem_snapshots (hd : Distinct Row.key Row.fetchedAtMs (logged (snapshotBatch stream hour) log)) {r : Row} :
    r ∈ (log.foldl Write.apply Lake.empty).snapshots stream hour ↔
      r ∈ earliest Row.key Row.fetchedAtMs (logged (snapshotBatch stream hour) log) :=
  (covers_log (fun lake : Lake => lake.snapshots stream hour) rfl snapshots_apply_batch snapshots_apply_other
    hdtypes).mem_iff hd

theorem exists_snapshot_le {r : Row} (hr : r ∈ logged (snapshotBatch stream hour) log) :
    ∃ r' ∈ (log.foldl Write.apply Lake.empty).snapshots stream hour,
      r'.key = r.key ∧ r'.fetchedAtMs ≤ r.fetchedAtMs :=
  (covers_log (fun lake : Lake => lake.snapshots stream hour) rfl snapshots_apply_batch snapshots_apply_other
    hdtypes).first r hr

end

theorem mergeEvents_compact (existing chunk : List LiquidationEvent) :
    mergeEvents existing (chunk.map LiquidationEvent.compact) = mergeEvents existing chunk := by
  simp [mergeEvents, comp_def]

/-- **A liquidation partition holds the earliest events that were written to it.** -/
theorem mem_liquidations (hstored : ∀ e ∈ logged (eventBatch hour) log, e.Stored)
    (hd : Distinct LiquidationEvent.key LiquidationEvent.ingestedAt (logged (eventBatch hour) log))
    {e : LiquidationEvent} :
    e ∈ (log.foldl Write.apply Lake.empty).liquidations hour ↔
      e ∈ earliest LiquidationEvent.key LiquidationEvent.ingestedAt (logged (eventBatch hour) log) := by
  refine (covers_log (fun lake : Lake => lake.liquidations hour) rfl ?_ ?_ hstored).mem_iff hd
  · intro lake w b hb hexisting hchunk e
    cases w with
    | snapshot _ _ _ => cases hb
    | liquidation hour' chunk =>
      obtain ⟨rfl, heq⟩ := (Option.ite_none_right_eq_some).mp hb
      cases heq
      simp only [Write.apply, update_self]
      rw [← mergeEvents_compact]; exact mem_mergeEvents hexisting hchunk
    | coverage _ => cases hb
  · intro lake w hb
    cases w with
    | snapshot _ _ _ => rfl
    | liquidation hour' chunk =>
      have hne : hour ≠ hour' := by
        rintro rfl; simp [eventBatch] at hb
      simp [Write.apply, update_of_ne hne]
    | coverage _ => rfl

end Partition

end CryptoPilot.Streams
