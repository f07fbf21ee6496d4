/- # EarliestSample — what becomes of a consumed sample, and of a cycle that raised.

A sample whose checkpoint was returned is settled: a sample of its label that is no later was
written in full.  When the earlier twins name every symbol of the later ones (`Nested`), each of its
rows is in the table with a receipt no later than its own. -/
import CryptoPilot.Streams.SnapshotTables

namespace CryptoPilot.Streams

open CryptoPilot.Lib CryptoPilot.Capture

/-! # Deriving again -/

def pruned (cfg : Config) (nowNs : ℤ) (w : Window) : Window := pruneRest cfg nowNs (pruneWs cfg nowNs w)

section Retry

variable {R : Runtime} {cfg : Config} {nowNs : ℤ}

@[simp] theorem pruned_pruneRest (w : Window) : pruned cfg nowNs (pruneRest cfg nowNs w) = pruned cfg nowNs w := by
  simp [pruned, pruneRest, pruneWs]

@[simp] theorem pruned_pruneWs (w : Window) : pruned cfg nowNs (pruneWs cfg nowNs w) = pruned cfg nowNs w := by
  simp [pruned, pruneRest, pruneWs]

theorem runLoop_related {σ α : Type} {step : σ → α → σ × Option CycleError} {Rel : σ → σ → Prop}
    (hstep : ∀ s t a, Rel s t → Rel (step s a).1 (step t a).1 ∧ (step s a).2 = (step t a).2) :
    ∀ {l : List α} {s t : σ}, Rel s t →
      Rel (runLoop step l s).1 (runLoop step l t).1 ∧ (runLoop step l s).2 = (runLoop step l t).2
  | [], _, _, h => ⟨h, rfl⟩
  | a :: rest, s, t, h => by
    obtain ⟨hrel, herr⟩ := hstep s t a h
    rw [runLoop, runLoop]
    cases hs : step s a with
    | mk s' e =>
      cases ht : step t a with
      | mk t' e' =>
        rw [hs, ht] at hrel herr
        subst herr
        cases e with
        | none => exact runLoop_related hstep hrel
        | some e => exact ⟨hrel, rfl⟩

/-- States of `_derive_rest` whose windows differ only in what a check prunes. -/
def RestAlike (cfg : Config) (nowNs : ℤ) (s t : RestState) : Prop :=
  pruned cfg nowNs s.window = pruned cfg nowNs t.window ∧ s.done = t.done ∧ s.frames = t.frames

theorem restStep_alike (s t : RestState) (a : Record) (h : RestAlike cfg nowNs s t) :
    RestAlike cfg nowNs (restStep R cfg nowNs s a).1 (restStep R cfg nowNs t a).1 ∧
      (restStep R cfg nowNs s a).2 = (restStep R cfg nowNs t a).2 := by
  obtain ⟨w, done, frames⟩ := s
  obtain ⟨w', done', frames'⟩ := t
  obtain ⟨hwindow, hdone, hframes⟩ := h
  subst hdone hframes
  have hrest : (pruneRest cfg nowNs w).rest = (pruneRest cfg nowNs w').rest := by
    simpa [pruned, pruneRest, pruneWs] using congrArg Window.rest hwindow
  have hafter : pruned cfg nowNs (pruneRest cfg nowNs w) = pruned cfg nowNs (pruneRest cfg nowNs w') := by
    simpa using hwindow
  unfold restStep
  cases labelOf a with
  | none => exact ⟨⟨hwindow, rfl, rfl⟩, rfl⟩
  | some label =>
    simp only [hrest]
    split
    · exact ⟨⟨hwindow, rfl, rfl⟩, rfl⟩
    · split
      · exact ⟨⟨hafter, rfl, rfl⟩, rfl⟩
      · split
        · exact ⟨⟨hafter, rfl, rfl⟩, rfl⟩
        · exact ⟨⟨hafter, rfl, rfl⟩, rfl⟩
        · have hws : (pruned cfg nowNs w).ws = (pruned cfg nowNs w').ws := congrArg Window.ws hwindow
          refine ⟨⟨?_, rfl, rfl⟩, rfl⟩
          show Window.mk _ (pruned cfg nowNs w).ws = Window.mk _ (pruned cfg nowNs w').ws
          rw [hws]; rfl

/-- States of `_derive_ws` whose windows differ only in what a check prunes. -/
def WsAlike (cfg : Config) (nowNs : ℤ) (s t : WsState) : Prop :=
  pruned cfg nowNs s.window = pruned cfg nowNs t.window ∧ s.trackers = t.trackers ∧ s.events = t.events

section

variable {s t : WsState} (h : WsAlike cfg nowNs s t) (slot : Slot) (recvNs : ℕ)

include h slot recvNs

theorem markOk_alike :
    WsAlike cfg nowNs (s.markOk slot recvNs).1 (t.markOk slot recvNs).1 ∧
      (s.markOk slot recvNs).2 = (t.markOk slot recvNs).2 := by
  obtain ⟨hwindow, htrackers, hevents⟩ := h
  unfold WsState.markOk
  rw [htrackers]
  split
  · exact ⟨⟨hwindow, htrackers, hevents⟩, rfl⟩
  · exact ⟨⟨hwindow, rfl, hevents⟩, rfl⟩

theorem frameStep_alike (text : String) :
    WsAlike cfg nowNs (frameStep R cfg nowNs s slot recvNs text).1 (frameStep R cfg nowNs t slot recvNs text).1 ∧
      (frameStep R cfg nowNs s slot recvNs text).2 = (frameStep R cfg nowNs t slot recvNs text).2 := by
  obtain ⟨hwindow, htrackers, hevents⟩ := h
  have hws : (pruneWs cfg nowNs s.window).ws = (pruneWs cfg nowNs t.window).ws := by
    simpa [pruned, pruneRest, pruneWs] using congrArg Window.ws hwindow
  have hrest : (pruned cfg nowNs s.window).rest = (pruned cfg nowNs t.window).rest := congrArg Window.rest hwindow
  have hafter : pruned cfg nowNs (pruneWs cfg nowNs s.window) = pruned cfg nowNs (pruneWs cfg nowNs t.window) := by
    simpa using hwindow
  have hstaged : ∀ m : Memory String, pruned cfg nowNs { pruneWs cfg nowNs s.window with ws := m } =
      pruned cfg nowNs { pruneWs cfg nowNs t.window with ws := m } := by
    intro m
    show Window.mk (pruned cfg nowNs s.window).rest _ = Window.mk (pruned cfg nowNs t.window).rest _
    rw [hrest]; rfl
  unfold frameStep
  simp only [hws]
  split
  · have halike : WsAlike cfg nowNs { s with window := pruneWs cfg nowNs s.window }
        { t with window := pruneWs cfg nowNs t.window } := ⟨hafter, htrackers, hevents⟩
    exact markOk_alike halike slot recvNs
  · split
    · exact ⟨⟨hstaged _, htrackers, hevents⟩, rfl⟩
    · next event _ =>
      have halike : WsAlike cfg nowNs
          ⟨{ pruneWs cfg nowNs s.window with ws := (pruneWs cfg nowNs t.window).ws.stage (R.sha256 text) recvNs },
            s.trackers, s.events ++ [event]⟩
          ⟨{ pruneWs cfg nowNs t.window with ws := (pruneWs cfg nowNs t.window).ws.stage (R.sha256 text) recvNs },
            t.trackers, t.events ++ [event]⟩ := ⟨hstaged _, htrackers, by simp [hevents]⟩
      exact markOk_alike halike slot recvNs

end

theorem wsStep_alike (s t : WsState) (a : Record) (h : WsAlike cfg nowNs s t) :
    WsAlike cfg nowNs (wsStep R cfg nowNs s a).1 (wsStep R cfg nowNs t a).1 ∧
      (wsStep R cfg nowNs s a).2 = (wsStep R cfg nowNs t a).2 := by
  obtain ⟨hwindow, htrackers, hevents⟩ := h
  unfold wsStep
  split
  · split
    · exact ⟨⟨hwindow, htrackers, hevents⟩, rfl⟩
    · rw [htrackers]
      split
      · exact ⟨⟨hwindow, rfl, hevents⟩, rfl⟩
      · exact ⟨⟨hwindow, rfl, hevents⟩, rfl⟩
      · split
        · exact ⟨⟨hwindow, htrackers, hevents⟩, rfl⟩
        · exact frameStep_alike ⟨hwindow, htrackers, hevents⟩ _ _ _
      · exact ⟨⟨hwindow, htrackers, hevents⟩, rfl⟩
  · exact ⟨⟨hwindow, htrackers, hevents⟩, rfl⟩

theorem restStep_pruned (s : RestState) (a : Record) :
    (pruned cfg nowNs (restStep R cfg nowNs s a).1.window).discard = (pruned cfg nowNs s.window).discard := by
  unfold restStep
  split
  · rfl
  · split
    · rfl
    · simp only
      split
      · rw [pruned_pruneRest]
      · split
        · rw [pruned_pruneRest]
        · rw [pruned_pruneRest]
        · show (pruned cfg nowNs (pruneRest cfg nowNs s.window)).discard = _
          rw [pruned_pruneRest]

theorem wsStep_pruned (s : WsState) (a : Record) :
    (pruned cfg nowNs (wsStep R cfg nowNs s a).1.window).discard = (pruned cfg nowNs s.window).discard := by
  rcases wsStep_window nowNs s a with h | h | ⟨text, -, h⟩
  · rw [h]
  · rw [h, pruned_pruneWs]
  · rw [h]
    show (pruned cfg nowNs (pruneWs cfg nowNs s.window)).discard = _
    rw [pruned_pruneWs]

def Plan.yield (plan : Plan) : List Write × Checkpoint := (plan.writes, plan.checkpoint)

theorem derive_left_pruned (tree : Tree) (budget : ℕ) (c : Checkpoint) (w : Window) :
    (pruned cfg nowNs (derive R cfg tree budget nowNs c w).1).discard = (pruned cfg nowNs w).discard := by
  have hrest : ∀ records, (pruned cfg nowNs (deriveRest R cfg nowNs w.discard records).1.window).discard =
      (pruned cfg nowNs w).discard := by
    intro records
    have hkeeps : ∀ (s : RestState) (a : Record), (pruned cfg nowNs s.window).discard =
      (pruned cfg nowNs w).discard →
        (pruned cfg nowNs (restStep R cfg nowNs s a).1.window).discard = (pruned cfg nowNs w).discard :=
      fun s a h => (restStep_pruned s a).trans h
    exact runLoop_keeps hkeeps rfl
  have hws : ∀ (w₁ : Window) trackers records, (pruned cfg nowNs w₁).discard = (pruned cfg nowNs w).discard →
      (pruned cfg nowNs (deriveWs R cfg nowNs w₁ trackers records).1.window).discard =
        (pruned cfg nowNs w).discard := by
    intro w₁ trackers records h₁
    have hkeeps : ∀ (s : WsState) (a : Record), (pruned cfg nowNs s.window).discard = (pruned cfg nowNs w).discard →
        (pruned cfg nowNs (wsStep R cfg nowNs s a).1.window).discard = (pruned cfg nowNs w).discard :=
      fun s a h => (wsStep_pruned s a).trans h
    exact runLoop_keeps hkeeps h₁
  unfold derive
  split
  · rfl
  · next g _ =>
    have h := hrest (recordsOf R g)
    split
    · next rest e heq =>
      rw [heq] at h; exact h
    · next rest heq =>
      rw [heq] at h
      have h' := hws rest.window (restoreTrackers c) (recordsOf R g) h
      split
      · next ws e heq' =>
        rw [heq'] at h'; exact h'
      · next ws heq' =>
        rw [heq'] at h'; exact h'

variable {w w' : Window}

variable (R) in
theorem deriveRest_alike (h : pruned cfg nowNs w = pruned cfg nowNs w') (records : List Record) :
    RestAlike cfg nowNs (deriveRest R cfg nowNs w records).1 (deriveRest R cfg nowNs w' records).1 ∧
      (deriveRest R cfg nowNs w records).2 = (deriveRest R cfg nowNs w' records).2 :=
  runLoop_related restStep_alike ⟨h, rfl, rfl⟩

variable (R) in
theorem deriveWs_alike (h : pruned cfg nowNs w = pruned cfg nowNs w') (trackers : Slot → Tracker)
    (records : List Record) :
    WsAlike cfg nowNs (deriveWs R cfg nowNs w trackers records).1 (deriveWs R cfg nowNs w' trackers records).1 ∧
      (deriveWs R cfg nowNs w trackers records).2 = (deriveWs R cfg nowNs w' trackers records).2 :=
  runLoop_related wsStep_alike ⟨h, rfl, rfl⟩

theorem derive_yield_eq (h : (pruned cfg nowNs w).discard = (pruned cfg nowNs w').discard) (tree : Tree)
    (budget : ℕ) (c : Checkpoint) :
    (derive R cfg tree budget nowNs c w).2.map Plan.yield =
    (derive R cfg tree budget nowNs c w').2.map Plan.yield := by
  unfold derive
  split
  · rfl
  · next g _ =>
    obtain ⟨hrest, herr⟩ := deriveRest_alike R (show pruned cfg nowNs w.discard =
      pruned cfg nowNs w'.discard from h)
      (recordsOf R g)
    cases hd : deriveRest R cfg nowNs w.discard (recordsOf R g) with
    | mk rest e =>
      cases hd' : deriveRest R cfg nowNs w'.discard (recordsOf R g) with
      | mk rest' e' =>
        rw [hd, hd'] at hrest herr
        simp only at hrest herr
        subst herr
        cases e with
        | some e => rfl
        | none =>
          obtain ⟨hws, herr'⟩ := deriveWs_alike R hrest.1 (restoreTrackers c) (recordsOf R g)
          cases hw : deriveWs R cfg nowNs rest.window (restoreTrackers c) (recordsOf R g) with
          | mk ws e =>
            cases hw' : deriveWs R cfg nowNs rest'.window (restoreTrackers c) (recordsOf R g) with
            | mk ws' e' =>
              rw [hw, hw'] at hws herr'
              simp only at hws herr'
              subst herr'
              cases e with
              | some e =>
                simp only [hw, hw']
              | none =>
                obtain ⟨-, htrackers, hevents⟩ := hws
                simp only [hw, hw', Except.map, Plan.yield, writesOf, advance, hrest.2.2, htrackers, hevents]

end Retry

/-! # Runs -/

section Runs

variable {R : Runtime} (cfg : Config) (J : Journal R.toCodec)

/-- An earlier sample of a label that some cycle can derive names every symbol of a later one. -/
def Nested : Prop :=
  ∀ r ∈ J.records, ∀ r' ∈ J.records, ∀ label rows rows', IsSample R cfg r label rows →
    IsSample R cfg r' label rows' →
    MemberFirst cfg J r' label → recvOf r' ≤ recvOf r → ∀ row ∈ rows, ∃ row' ∈ rows', row'.symbol = row.symbol

def Consumed {C : Codec} (J : Journal C) (s : State C) (r : Record) : Prop :=
  ∃ f ∈ J.files, ∃ k, ∃ hk : k < f.2.length, ConsumedMember s f k ∧ r ∈ (f.2[k]).records

/-- Every row of the sample is in the table with a receipt no later than its own. -/
def Kept {C : Codec} (s : State C) (r : Record) (label : Label) (rows : List Row) : Prop :=
  ∀ row ∈ rows, ∃ row' ∈ table s label.1, row'.key = row.key ∧ row'.fetchedAtMs ≤ ((recvOf r : ℤ) / 10 ^ 6 : ℤ)

def Stands {C : Codec} (s : State C) (label : Label) (rows : List Row) : Prop :=
  ∀ row ∈ rows, row ∈ table s label.1 ∧ ∀ row' ∈ table s label.1, row'.key = row.key → row' = row

/-- No sample of the same dataset and grid, consumed or written by an interrupted cycle, was
received before. -/
def NonePrecedes (s : State R.toCodec) (r : Record) (label : Label) : Prop :=
  ∀ r' ∈ J.records, ∀ label' rows', IsSample R cfg r' label' rows' → label'.1 = label.1 →
    R.gridNs label'.2 = R.gridNs label.2 → (Consumed J s r' ∨ ∃ row ∈ rows', row ∈ writtenRows s.log label.1) →
    recvOf r ≤ recvOf r'

def cycleYield (s : State R.toCodec) (budget : ℕ) (nowNs : ℤ) : Except CycleError (List Write × Checkpoint) :=
  (derive R cfg (J.tree s.view) budget nowNs s.checkpoint s.window).2.map Plan.yield

def Unstaged {C : Codec} (s : State C) : Prop := s.window.discard = s.window

variable {cfg J}

variable (cfg) in
theorem discard_derive {w : Window} (hw : w.discard = w) (tree : Tree) (budget : ℕ) (nowNs : ℤ) (c : Checkpoint) :
    (derive R cfg tree budget nowNs c w).1.discard = (derive R cfg tree budget nowNs c w).1 := by
  unfold derive
  split
  · exact hw
  · split
    · rfl
    · split <;> rfl

theorem unstaged_run (actions : List (Action R.toCodec)) : Unstaged (State.run cfg J actions) := by
  have hinit : Unstaged (State.init R.toCodec) := rfl
  have hsteps : State.Steps cfg J (fun _ _ => True) actions := fun _ _ _ _ => trivial
  refine State.run_induction hinit ?_ hsteps
  intro s a _ hs
  cases a with
  | append p =>
    rw [State.step]
    split
    · exact hs
    · exact hs
  | tear p tail => exact hs
  | restart => rfl
  | cycle budget nowNs fate =>
    have hw := discard_derive (R := R) cfg hs (J.tree s.view) budget nowNs s.checkpoint
    show Unstaged (State.cycle cfg J s budget nowNs fate)
    unfold State.cycle
    split
    · rfl
    · next heq _ =>
      rw [heq] at hw; exact hw
    · next plan _ heq =>
      obtain ⟨g, rest, ws, hd⟩ := derived_of_derive heq
      show plan.window.discard = plan.window
      rw [hd.window]; rfl
    · next heq =>
      rw [heq] at hw; exact hw
    · rfl

variable (cfg J) in
theorem cycle_fails (s : State R.toCodec) (budget : ℕ) (nowNs : ℤ) (k : ℕ) :
    (s.cycle cfg J budget nowNs (.fails k)).view = s.view ∧
      (s.cycle cfg J budget nowNs (.fails k)).checkpoint = s.checkpoint ∧
      (s.cycle cfg J budget nowNs (.fails k)).window =
        (derive R cfg (J.tree s.view) budget nowNs s.checkpoint s.window).1 := by
  unfold State.cycle
  cases derive R cfg (J.tree s.view) budget nowNs s.checkpoint s.window with
  | mk w result =>
    cases result with
    | error e | ok plan => exact ⟨rfl, rfl, rfl⟩

variable {actions : List (Action R.toCodec)} {r : Record}

theorem Consumed.settled (h : Consumed J (State.run cfg J actions) r) :
    Settled cfg J (State.run cfg J actions).log r := by
  obtain ⟨f, hf, k, hk, hconsumed, hr⟩ := h
  exact settled_of_consumed (rest_holds cfg J actions) hf hk hconsumed r hr

theorem Consumed.mem_records {C : Codec} {J : Journal C} {s : State C} (h : Consumed J s r) : r ∈ J.records := by
  obtain ⟨f, hf, k, hk, -, hr⟩ := h; exact ⟨f, hf, _, List.getElem_mem hk, hr⟩

theorem kept_of_consumed (hnested : Nested cfg J)
    (h : Consumed J (State.run cfg J actions) r) {label : Label} {rows : List Row}
    (hs : IsSample R cfg r label rows) :
    Kept (State.run cfg J actions) r label rows := by
  intro row hrow
  obtain ⟨r', rows', hfirst, hs', hle, hwritten⟩ := h.settled label rows hs
  obtain ⟨row', hrow', hsymbol⟩ :=
    hnested r h.mem_records r' hfirst.mem_records label rows rows' hs hs' hfirst hle row hrow
  obtain ⟨stored, hstored, hkey, htime⟩ :=
    exists_table_row_le (rest_holds cfg J actions).ok (show row' ∈ writtenRows _ label.1 from hwritten row' hrow')
  obtain ⟨gridNs, hgrid, hresp⟩ := hs.response
  obtain ⟨gridNs', hgrid', hresp'⟩ := hs'.response
  obtain rfl : gridNs = gridNs' := Option.some.inj (hgrid.symm.trans hgrid')
  refine ⟨stored, hstored, hkey.trans ?_, htime.trans ?_⟩
  · rw [Row.key, Row.key, hsymbol, hresp'.grid row' hrow', hresp.grid row hrow]
  · rw [hresp'.receipt row' hrow', WithTop.coe_le_coe]
    exact Int.ediv_le_ediv (by decide) (by exact_mod_cast hle)

theorem stands_of_consumed (hms : DistinctReceipts cfg J)
    (h : Consumed J (State.run cfg J actions) r) {label : Label} {rows : List Row}
    (hs : IsSample R cfg r label rows)
    (hleast : NonePrecedes cfg J (State.run cfg J actions) r label) : Stands
    (State.run cfg J actions) label rows := by
  have hok := (rest_holds cfg J actions).ok
  obtain ⟨gridNs, hgrid, hresp⟩ := hs.response
  -- what settles the sample is the sample itself
  have hwritten : Written (State.run cfg J actions).log label.1 rows := by
    obtain ⟨r', rows', hfirst, hs', hle, hwritten⟩ := h.settled label rows hs
    obtain ⟨gridNs', -, hresp'⟩ := hs'.response
    obtain ⟨row', hrow'⟩ := List.exists_mem_of_ne_nil _ hresp'.nonempty
    have hge := hleast r' hfirst.mem_records label rows' hs' rfl rfl (Or.inr ⟨row', hrow', hwritten row' hrow'⟩)
    obtain rfl : r' = r :=
      hms r' hfirst.mem_records r h.mem_records label label rows' rows hs' hs (by rw [le_antisymm hle hge])
    obtain ⟨-, rfl⟩ := hs'.label_eq hs; exact hwritten
  intro row hrow
  have hmem : row ∈ table (State.run cfg J actions) label.1 := by
    rw [table_eq hms hok]
    refine ⟨hwritten row hrow, ?_⟩
    intro y hy hkey
    obtain ⟨-, r', label', rows', hs', hstream, hy', hfirst⟩ := exists_sample_of_mem hok hy
    obtain ⟨gridNs', hgrid', hresp'⟩ := hs'.response
    have hinstant : gridNs' = gridNs := by
      rw [← hresp'.grid y hy', ← hresp.grid row hrow]; exact congrArg Prod.snd hkey
    have hle := hleast r' hfirst.mem_records label' rows' hs' hstream (by rw [hgrid, hgrid', hinstant])
      (Or.inr ⟨y, hy', hy⟩)
    rw [hresp.receipt row hrow, hresp'.receipt y hy', WithTop.coe_le_coe]
    exact Int.ediv_le_ediv (by decide) (by exact_mod_cast hle)
  refine ⟨hmem, ?_⟩
  intro row' hrow' hkey
  rw [table_eq hms hok] at hmem hrow'
  refine eq_of_mem_earliest (distinct_of_samples hms ?_) hrow' hmem hkey
  intro y hy
  obtain ⟨-, r', label', rows', hs', -, hy', hfirst⟩ := exists_sample_of_mem hok hy
  exact ⟨r', label', rows', hs', hfirst.mem_records, hy'⟩

/-- **The earliest good sample wins and is never lost**, if the earlier twins name every symbol of
the later ones. -/
theorem earliest_sample_wins (cfg : Config) (J : Journal R.toCodec) (hnested : Nested cfg J)
    (actions : List (Action R.toCodec)) :
    (∀ r label rows, Consumed J (State.run cfg J actions) r → IsSample R cfg r label rows →
      Kept (State.run cfg J actions) r label rows) ∧
    (DistinctReceipts cfg J → ∀ r label rows, Consumed J (State.run cfg J actions) r → IsSample R cfg r label rows →
      NonePrecedes cfg J (State.run cfg J actions) r label → Stands (State.run cfg J actions) label rows) ∧
    ∀ budget nowNs k after, State.step cfg J (State.run cfg J actions) (.cycle budget nowNs (.fails k)) = after →
      Unstaged after ∧ cycleYield cfg J after budget nowNs =
        cycleYield cfg J (State.run cfg J actions) budget nowNs := by
  refine ⟨fun r label rows h hs => kept_of_consumed hnested h hs,
    fun hms r label rows h hs hleast => stands_of_consumed hms h hs hleast, ?_⟩
  rintro budget nowNs k after rfl
  obtain ⟨hview, hcheckpoint, hwindow⟩ := cycle_fails cfg J (State.run cfg J actions) budget nowNs k
  rw [State.step]
  refine ⟨?_, ?_⟩
  · rw [Unstaged, hwindow]; exact discard_derive cfg (unstaged_run actions) _ _ _ _
  · rw [cycleYield, hview, hcheckpoint, hwindow]
    exact derive_yield_eq (derive_left_pruned _ _ _ _) _ _ _

end Runs

/-! # Twins of one grid -/

theorem consumed_green {symbols : List String} {J : Journal (twinRuntime symbols).toCodec}
    {hlisted : (twinFiles symbols).Pairwise (fun a b => listing a.1 < listing b.1)}
    {hrecords : ∀ f ∈ twinFiles symbols, ∀ rs ∈ f.2, rs ≠ [] ∧
      ∀ r ∈ rs, isJournalable (twinRuntime symbols).toCodec r = true}
    (hJ : J = journalOf _ (twinFiles symbols) hlisted hrecords) {s : State (twinRuntime symbols).toCodec}
    (hall : ConsumesAll J s) : Consumed J s (greenTwin symbols) := by
  subst hJ
  have hfile : (⟨.bookTicker, .green, 472222⟩, [memberOf (twinRuntime symbols).toCodec [greenTwin symbols]]) ∈
      (journalOf _ (twinFiles symbols) hlisted hrecords).files := List.mem_cons_of_mem _ List.mem_cons_self
  exact ⟨_, hfile, 0, Nat.zero_lt_one, hall _ hfile 0 Nat.zero_lt_one, List.mem_singleton_self _⟩

theorem earliest_sample_wins_equal_twins :
    Kept (State.run Config.default equalTwins ((allPaths equalTwins).map .append ++ [drain equalTwins]))
      (greenTwin ["A"]) (.bookTicker, twinGrid) (twinRows ["A"] (greenTwin ["A"])) := by
  have hconsumed := consumed_green rfl (drained_at_once (quiet_twins (Or.inl rfl) (fun _ => mem_equalTwins))).1
  refine (earliest_sample_wins Config.default equalTwins ?_ _).1 _ _ _ hconsumed
    ((isSample_twins (Or.inl rfl) (Or.inr rfl)).mpr ⟨rfl, rfl⟩)
  intro r hr r' hr' label rows rows' hs hs' _ _ row hrow
  obtain ⟨rfl, rfl⟩ := (isSample_twins (Or.inl rfl) (mem_equalTwins hr)).mp hs
  obtain ⟨-, rfl⟩ := (isSample_twins (Or.inl rfl) (mem_equalTwins hr')).mp hs'
  have hsingle : ∀ r, ∃ ms, twinRows ["A"] r = [twinRow ms "A"] := by
    intro r
    unfold twinRows
    split
    · exact ⟨_, rfl⟩
    · exact ⟨_, rfl⟩
  obtain ⟨ms, hms⟩ := hsingle r
  obtain ⟨ms', hms'⟩ := hsingle r'
  rw [hms, List.mem_singleton] at hrow
  exact ⟨twinRow ms' "A", by rw [hms']; exact List.mem_singleton_self _, by rw [hrow]; rfl⟩

/-- **A consumed sample whose symbol is lost**: the twin that was derived instead of it does not
name the symbol. -/
theorem consumed_sample_lost :
    Consumed unequalTwins (State.run Config.default unequalTwins ((allPaths unequalTwins).map .append ++
        [drain unequalTwins])) (greenTwin ["A", "B"]) ∧
      IsSample (twinRuntime ["A", "B"]) Config.default (greenTwin ["A", "B"]) (.bookTicker, twinGrid)
        (twinRows ["A", "B"] (greenTwin ["A", "B"])) ∧
      twinRow 1700000000200 "B" ∈ twinRows ["A", "B"] (greenTwin ["A", "B"]) ∧
      ∀ row ∈ table (State.run Config.default unequalTwins ((allPaths unequalTwins).map .append ++
        [drain unequalTwins])) .bookTicker, row.key ≠ (twinRow 1700000000200 "B").key := by
  refine ⟨consumed_green rfl (drained_at_once quiet_unequalTwins).1, isSample_unequalTwins (Or.inr rfl),
    by decide +kernel, ?_⟩
  intro row hrow hkey; exact symbol_ne_of_drained_at_once hrow (congrArg Prod.fst hkey)

end CryptoPilot.Streams
