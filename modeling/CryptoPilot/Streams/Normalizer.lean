/- # Normalizer — one cycle of the raw-to-derived normalizer.

A cycle reads the complete members past the checkpoint up to a byte budget, file by file, sorts
their records by receipt, and derives snapshot rows, liquidation events and coverage from them
(`normalize_once` in `src/market_data/streams/normalizer.py`). -/
import CryptoPilot.Streams.Coverage
import CryptoPilot.Streams.DedupeWindow
import CryptoPilot.Streams.Liquidations

namespace CryptoPilot.Streams

open CryptoPilot.Lib CryptoPilot.Capture

/-! # The hot tree -/

/-- `HOT_STREAMS` in their order. -/
def streamRank : Stream → ℕ
  | .bookTicker => 0
  | .premiumIndex => 1
  | .forceOrder => 2

def slotRank : Slot → ℕ
  | .blue => 0
  | .green => 1

/-- The place of a file in `_hot_files`: streams in their order, days and names sorted. -/
def listing (p : SegmentPath) : ℕ ×ₗ ℕ ×ₗ ℕ := toLex (streamRank p.stream, toLex (p.hour, slotRank p.slot))

/-- The place of `rel` among texts. -/
def relOrder (p : SegmentPath) : String ×ₗ ℕ ×ₗ ℕ := toLex (p.stream.name, toLex (p.hour, slotRank p.slot))

/-- The files under `raw/hot` as `_hot_files` lists them. -/
structure Tree where
  files : List (SegmentPath × Bytes)
  listed : files.Pairwise (fun a b => listing a.1 < listing b.1)

/-! # Records -/

/-- `_recv_ns_of`. -/
def recvOf (r : Record) : ℕ :=
  match Record.get r "recv_ns" with
  | some (.int n) => n.toNat
  | _ => 0

def streamOf (r : Record) : Option Stream :=
  match Record.get r "stream" with
  | some (.str "book_ticker") => some .bookTicker
  | some (.str "premium_index") => some .premiumIndex
  | some (.str "force_order") => some .forceOrder
  | _ => none

def slotOf (r : Record) : Option Slot :=
  match Record.get r "slot" with
  | some (.str "blue") => some .blue
  | some (.str "green") => some .green
  | _ => none

def textOf (r : Record) (key : String) : Option String :=
  match Record.get r key with
  | some (.str s) => some s
  | _ => none

def isSuccessfulRestStatus : Option Json → Bool
  | some (.int n) => n = 200
  | _ => false

/-! # Gathering new members -/

/-- `_Member`. -/
structure Span where
  records : List Record
  start : ℕ
  stop : ℕ
  deriving DecidableEq

/-- `_iter_members`: the records of a member are yielded when the next one was read. -/
def membersFrom (raised : Bool) : List (Record × ℕ) → List Record → ℕ → ℕ → List Span
  | [], pending, start, stop => if pending = [] ∨ raised then [] else [⟨pending, start, stop⟩]
  | (r, e) :: rest, pending, start, stop =>
    if pending ≠ [] ∧ e ≠ stop then ⟨pending, start, stop⟩ :: membersFrom raised rest [r] stop e
    else membersFrom raised rest (pending ++ [r]) start e

def iterMembers (y : Yields (Record × ℕ)) (start : ℕ) : Yields Span :=
  ⟨membersFrom y.raised.isSome y.items [] start start, y.raised⟩

structure Gathered where
  record : Record
  path : SegmentPath
  deriving DecidableEq

/-- What `_gather_new_records` has collected. -/
structure Gather where
  gathered : List Gathered
  /-- The member end that each touched file advances to. -/
  consumed : SegmentPath → Option ℕ
  bytes : ℕ
  /-- `more_pending` is that there is one. -/
  oldestPending : Option ℕ

def Gather.start : Gather := ⟨[], fun _ => none, 0, none⟩

def Gather.notePending (g : Gather) (recvNs : ℕ) : Gather :=
  { g with oldestPending := some (g.oldestPending.elim recvNs (min recvNs)) }

def Gather.accept (g : Gather) (path : SegmentPath) (m : Span) : Gather :=
  { g with
    gathered := g.gathered ++ m.records.map (fun r => ⟨r, path⟩)
    consumed := Function.update g.consumed path (some m.stop)
    bytes := g.bytes + (m.stop - m.start) }

/-- The loop over the members of a file, and whether it ended at the budget. -/
def takeMembers (budget : ℕ) (path : SegmentPath) : List Span → Gather → Gather × Bool
  | [], g => (g, false)
  | m :: rest, g =>
    if 0 < g.bytes ∧ budget < g.bytes + (m.stop - m.start) then
      (m.records.head?.elim g (fun r => g.notePending (recvOf r)), true)
    else takeMembers budget path rest (g.accept path m)

section Cycle

variable (R : Runtime) (cfg : Config)

/-- One file of `_gather_new_records`; one shorter than its cursor is read from its start. -/
def gatherFile (budget : ℕ) (cursor : SegmentPath → ℕ) (g : Gather) (file : SegmentPath × Bytes) :
    Except CycleError Gather :=
  let start := if file.2.length < cursor file.1 then 0 else cursor file.1
  let y := iterCompleteRecords R.toCodec (some file.2) start
  if budget ≤ g.bytes then
    -- `_peek_first_recv`
    match y.items, y.raised with
    | (r, _) :: _, _ => .ok (g.notePending (recvOf r))
    | [], some e => .error (.journal e)
    | [], none => .ok g
  else
    match takeMembers budget file.1 (iterMembers y start).items g, y.raised with
    | (_, false), some e => .error (.journal e)
    | (g', _), _ => .ok g'

def gatherNewRecords (tree : Tree) (cursor : SegmentPath → ℕ) (budget : ℕ) : Except CycleError Gather :=
  tree.files.foldlM (gatherFile R budget cursor) Gather.start

def receiptKey (g : Gathered) : ℕ ×ₗ String ×ₗ String ×ₗ ℕ ×ₗ ℕ :=
  let slot := match Record.get g.record "slot" with
    | none => ""
    | some (.str s) => s
    | some value => R.str value
  toLex (recvOf g.record, toLex (slot, relOrder g.path))

/-! # REST records -/

def parseRestRecord (record : Record) (stream : Stream) (gridNs : ℤ) : Except CycleError (Option (List Row)) :=
  if textOf record "kind" = some "rest" ∧ isSuccessfulRestStatus (Record.get record "status") then
    match (textOf record "body").bind R.loads with
    | none | some .null => .ok none
    | some payload =>
      if recvOf record < 2 ^ 63 then parsePayload R cfg.maxRejectedFraction stream payload gridNs (recvOf record)
      else .error .outOfBounds
  else .ok none

/-- The state of `_derive_rest`. -/
structure RestState where
  window : Window
  /-- `cycle_done`. -/
  done : List Label
  frames : List (Stream × List Row)

/-- The label of a record that `_derive_rest` considers. -/
def labelOf (record : Record) : Option Label :=
  match streamOf record, slotOf record, textOf record "grid" with
  | some .bookTicker, some _, some grid => some (.bookTicker, grid)
  | some .premiumIndex, some _, some grid => some (.premiumIndex, grid)
  | _, _, _ => none

/-- What a record says of its grid: the rows, `none` when it is not a successful sample. -/
def sampleOf (label : Label) (record : Record) : Except CycleError (Option (List Row)) :=
  match R.gridNs label.2 with
  | none => .ok none
  | some gridNs => parseRestRecord R cfg record label.1 gridNs

/-- The window with its grids pruned, as `check_rest` leaves it. -/
def pruneRest (nowNs : ℤ) (w : Window) : Window := { w with rest := w.rest.prune (nowNs - cfg.restWindowNs) }

/-- One record of `_derive_rest`. -/
def restStep (nowNs : ℤ) (s : RestState) (record : Record) : RestState × Option CycleError :=
  match labelOf record with
  | none => (s, none)
  | some label =>
    if label ∈ s.done then (s, none)
    else
      let s := { s with window := pruneRest cfg nowNs s.window }
      if s.window.rest.check label (recvOf record) then (s, none)
      else
        match sampleOf R cfg label record with
        | .error e => (s, some e)
        | .ok none => (s, none)
        | .ok (some rows) =>
          ({ window := { s.window with rest := s.window.rest.stage label (recvOf record) }
             done := label :: s.done
             frames := s.frames ++ [(label.1, rows)] }, none)

/-- A loop that ends at the first error and keeps the state it had then. -/
def runLoop {σ α : Type} (step : σ → α → σ × Option CycleError) : List α → σ → σ × Option CycleError
  | [], s => (s, none)
  | a :: rest, s =>
    match step s a with
    | (s', none) => runLoop step rest s'
    | (s', some e) => (s', some e)

def deriveRest (nowNs : ℤ) (window : Window) (records : List Record) : RestState × Option CycleError :=
  runLoop (restStep R cfg nowNs) records ⟨window, [], []⟩

/-! # Frames -/

/-- The state of `_derive_ws`. -/
structure WsState where
  window : Window
  trackers : Slot → Tracker
  events : List LiquidationEvent

/-- `tracker.mark_ok(recv_ts)`. -/
def WsState.markOk (s : WsState) (slot : Slot) (recvNs : ℕ) : WsState × Option CycleError :=
  match (s.trackers slot).markOk recvNs with
  | .error e => (s, some e)
  | .ok t => ({ s with trackers := Function.update s.trackers slot t }, none)

/-- The window with its digests pruned, as `check_frame` leaves it. -/
def pruneWs (nowNs : ℤ) (w : Window) : Window := { w with ws := w.ws.prune (nowNs - cfg.wsWindowNs) }

/-- A frame of `_derive_ws`. -/
def frameStep (nowNs : ℤ) (s : WsState) (slot : Slot) (recvNs : ℕ) (text : String) : WsState × Option CycleError :=
  let s := { s with window := pruneWs cfg nowNs s.window }
  if s.window.ws.check (R.sha256 text) recvNs then s.markOk slot recvNs
  else
    let s := { s with window := { s.window with ws := s.window.ws.stage (R.sha256 text) recvNs } }
    match parseWsFrame R text recvNs with
    | none => (s, none)
    | some event => { s with events := s.events ++ [event] }.markOk slot recvNs

/-- One record of `_derive_ws`. -/
def wsStep (nowNs : ℤ) (s : WsState) (record : Record) : WsState × Option CycleError :=
  match streamOf record, slotOf record with
  | some .forceOrder, some slot =>
    if 2 ^ 63 ≤ recvOf record then (s, some .outOfBounds)
    else
      match textOf record "kind" with
      | some "ws_open" | some "ws_close" =>
        ({ s with trackers := Function.update s.trackers slot (s.trackers slot).markError }, none)
      | some "frame" =>
        match textOf record "frame" with
        | none => (s, none)
        | some text => frameStep R cfg nowNs s slot (recvOf record) text
      | _ => (s, none)
  | _, _ => (s, none)

def deriveWs (nowNs : ℤ) (window : Window) (trackers : Slot → Tracker) (records : List Record) :
    WsState × Option CycleError :=
  runLoop (wsStep R cfg nowNs) records ⟨window, trackers, []⟩

/-! # Writes -/

structure Lake where
  /-- The hourly partitions of each snapshot dataset; one that does not exist is empty. -/
  snapshots : Stream → ℤ → List Row
  liquidations : ℤ → List LiquidationEvent
  /-- The lines of the coverage files. -/
  coverage : List (ℤ × ℤ)

def Lake.empty : Lake := ⟨fun _ _ => [], fun _ => [], []⟩

inductive Write where
  | snapshot (stream : Stream) (hour : ℤ) (chunk : List Row)
  | liquidation (hour : ℤ) (chunk : List LiquidationEvent)
  | coverage (line : ℤ × ℤ)

def Write.apply (lake : Lake) : Write → Lake
  | .snapshot stream hour chunk =>
    { lake with
      snapshots := Function.update lake.snapshots stream
        (Function.update (lake.snapshots stream) hour (mergePartition (lake.snapshots stream hour) chunk)) }
  | .liquidation hour chunk =>
    { lake with
      liquidations := Function.update lake.liquidations hour (mergeEvents (lake.liquidations hour) chunk) }
  | .coverage line => { lake with coverage := lake.coverage ++ [line] }

def rowsOf (frames : List (Stream × List Row)) (stream : Stream) : List Row :=
  (frames.filter (fun f => f.1 = stream)).flatMap Prod.snd

/-- The files that `write_hourly_partition` replaces. -/
def snapshotWrites (frames : List (Stream × List Row)) (stream : Stream) : List Write :=
  (hourGroups Row.hour (rowsOf frames stream)).map (fun g => .snapshot stream g.1 g.2)

/-- The files that `append_liquidation_events` replaces. -/
def liquidationWrites (events : List LiquidationEvent) : List Write :=
  (hourGroups LiquidationEvent.hour events).map (fun g => .liquidation g.1 g.2)

/-- The lines that `flush` appends. -/
def coverageWrites (t : Tracker) : List Write := (t.intervals.flatMap splitAtMidnight).map .coverage

/-! # The cycle -/

/-- `NormalizerCheckpoint`; a file without a cursor is at 0, a slot without a state closed. -/
structure Checkpoint where
  files : SegmentPath → ℕ
  coverage : Slot → TrackerState

def Checkpoint.empty : Checkpoint := ⟨fun _ => 0, fun _ => none⟩

def restoreTrackers (checkpoint : Checkpoint) (slot : Slot) : Tracker := Tracker.restore (checkpoint.coverage slot)

def advance (tree : Tree) (checkpoint : Checkpoint) (g : Gather) (trackers : Slot → Tracker) : Checkpoint where
  files p :=
    if p ∈ tree.files.map Prod.fst then (g.consumed p).getD (checkpoint.files p) else 0
  coverage slot := (trackers slot).flushed.snapshotState

/-- What a cycle writes, in order, and what it returns with when all writes succeed. -/
structure Plan where
  writes : List Write
  checkpoint : Checkpoint
  window : Window

def recordsOf (g : Gather) : List Record := (sortBy (receiptKey R) g.gathered).map Gathered.record

def writesOf (frames : List (Stream × List Row)) (ws : WsState) : List Write :=
  snapshotWrites frames .bookTicker ++ snapshotWrites frames .premiumIndex ++ liquidationWrites ws.events ++
    coverageWrites (ws.trackers .blue) ++ coverageWrites (ws.trackers .green)

/-- `normalize_once` up to its first write, and the window left if it raises then or later. -/
def derive (tree : Tree) (budget : ℕ) (nowNs : ℤ) (checkpoint : Checkpoint) (window : Window) :
    Window × Except CycleError Plan :=
  match gatherNewRecords R tree checkpoint.files budget with
  | .error e => (window, .error e)
  | .ok g =>
    match deriveRest R cfg nowNs window.discard (recordsOf R g) with
    | (rest, some e) => (rest.window.discard, .error e)
    | (rest, none) =>
      match deriveWs R cfg nowNs rest.window (restoreTrackers checkpoint) (recordsOf R g) with
      | (ws, some e) => (ws.window.discard, .error e)
      | (ws, none) =>
        (ws.window.discard,
          .ok ⟨writesOf rest.frames ws, advance tree checkpoint g ws.trackers, ws.window.commit⟩)

/-! # What a cycle does, step by step -/

structure Derived (tree : Tree) (budget : ℕ) (nowNs : ℤ) (checkpoint : Checkpoint) (window : Window) (plan : Plan)
    (g : Gather) (rest : RestState) (ws : WsState) : Prop where
  gathers : gatherNewRecords R tree checkpoint.files budget = .ok g
  samples : deriveRest R cfg nowNs window.discard (recordsOf R g) = (rest, none)
  events : deriveWs R cfg nowNs rest.window (restoreTrackers checkpoint) (recordsOf R g) = (ws, none)
  writes : plan.writes = writesOf rest.frames ws
  checkpoint : plan.checkpoint = advance tree checkpoint g ws.trackers
  window : plan.window = ws.window.commit

variable {R cfg}

theorem derived_of_derive {tree : Tree} {budget : ℕ} {nowNs : ℤ} {checkpoint : Checkpoint} {window left : Window}
    {plan : Plan} (h : derive R cfg tree budget nowNs checkpoint window = (left, .ok plan)) :
    ∃ g rest ws, Derived R cfg tree budget nowNs checkpoint window plan g rest ws := by
  unfold derive at h
  split at h
  · cases h
  · next g hg =>
    split at h
    · cases h
    · next rest hrest =>
      split at h
      · cases h
      · next ws hws =>
        cases h; exact ⟨g, rest, ws, hg, hrest, hws, rfl, rfl, rfl⟩

theorem runLoop_keeps {σ α : Type} {step : σ → α → σ × Option CycleError} {P : σ → Prop}
    (hstep : ∀ s a, P s → P (step s a).1) : ∀ {l : List α} {s : σ}, P s → P (runLoop step l s).1
  | [], s, h => h
  | a :: rest, s, h => by
    have hs := hstep s a h
    rw [runLoop]
    split
    · next s' heq =>
      rw [heq] at hs; exact runLoop_keeps hstep hs
    · next s' e heq =>
      rw [heq] at hs; exact hs

theorem runLoop_invariant {σ α : Type} {step : σ → α → σ × Option CycleError} {Inv : List α → σ → Prop} {l : List α}
    (hstep : ∀ pre a post s s', l = pre ++ a :: post → Inv pre s → step s a = (s', none) → Inv (pre ++ [a]) s') :
    ∀ {pre post : List α} {s s' : σ}, l = pre ++ post → Inv pre s → runLoop step post s = (s', none) → Inv l s'
  | pre, [], s, s', hl, h, hrun => by
    cases hrun
    rw [hl, List.append_nil]; exact h
  | pre, a :: post, s, s', hl, h, hrun => by
    rw [runLoop] at hrun
    split at hrun
    · next s₁ heq =>
      have hl' : l = (pre ++ [a]) ++ post := by simp [hl]
      exact runLoop_invariant hstep hl' (hstep pre a post s s₁ hl h heq) hrun
    · cases hrun

/-! # What a cycle leaves alone -/

variable (nowNs : ℤ)

theorem restStep_ws (s : RestState) (record : Record) :
    (restStep R cfg nowNs s record).1.window.ws = s.window.ws := by
  unfold restStep
  split
  · rfl
  · split
    · rfl
    · simp only
      split
      · rfl
      · split <;> rfl

theorem restStep_seen (s : RestState) (record : Record) {e : Label × ℕ}
    (he : e ∈ (restStep R cfg nowNs s record).1.window.rest.seen) : e ∈ s.window.rest.seen := by
  unfold restStep at he
  split at he
  · exact he
  · split at he
    · exact he
    · simp only at he
      split at he
      · exact Marks.mem_of_mem_prune he
      · split at he <;> exact Marks.mem_of_mem_prune he

theorem markOk_window (s : WsState) (slot : Slot) (recvNs : ℕ) : (s.markOk slot recvNs).1.window = s.window := by
  unfold WsState.markOk
  split <;> rfl

theorem wsStep_window (s : WsState) (record : Record) :
    (wsStep R cfg nowNs s record).1.window = s.window ∨
      (wsStep R cfg nowNs s record).1.window = pruneWs cfg nowNs s.window ∨
      ∃ text, textOf record "frame" = some text ∧ (wsStep R cfg nowNs s record).1.window =
        { s.window with
          ws := (s.window.ws.prune (nowNs - cfg.wsWindowNs)).stage (R.sha256 text) (recvOf record) } := by
  unfold wsStep
  split
  · split
    · exact Or.inl rfl
    · split
      · exact Or.inl rfl
      · exact Or.inl rfl
      · split
        · exact Or.inl rfl
        · next text htext =>
          unfold frameStep
          simp only
          split
          · rw [markOk_window]; exact Or.inr (Or.inl rfl)
          · right
            right
            refine ⟨text, htext, ?_⟩
            split
            · rfl
            · rw [markOk_window]; rfl
      · exact Or.inl rfl
  · exact Or.inl rfl

theorem wsStep_rest (s : WsState) (record : Record) :
    (wsStep R cfg nowNs s record).1.window.rest = s.window.rest := by
  rcases wsStep_window nowNs s record with h | h | ⟨text, -, h⟩
  · rw [h]
  · rw [h]; rfl
  · rw [h]

variable (R cfg) in
theorem deriveWs_rest (window : Window) (trackers : Slot → Tracker) (records : List Record) :
    (deriveWs R cfg nowNs window trackers records).1.window.rest = window.rest := by
  have hkeeps : ∀ (s : WsState) (a : Record), s.window.rest = window.rest →
      (wsStep R cfg nowNs s a).1.window.rest = window.rest :=
    fun s a h => (wsStep_rest nowNs s a).trans h
  exact runLoop_keeps hkeeps rfl

variable (R cfg) in
theorem deriveRest_ws (window : Window) (records : List Record) :
    (deriveRest R cfg nowNs window records).1.window.ws = window.ws := by
  have hkeeps : ∀ (s : RestState) (a : Record), s.window.ws = window.ws →
      (restStep R cfg nowNs s a).1.window.ws = window.ws :=
    fun s a h => (restStep_ws nowNs s a).trans h
  exact runLoop_keeps hkeeps rfl

variable (R cfg) in
theorem deriveRest_seen (window : Window) (records : List Record) :
    ∀ e ∈ (deriveRest R cfg nowNs window records).1.window.rest.seen, e ∈ window.rest.seen := by
  have hkeeps : ∀ (s : RestState) (a : Record), (∀ e ∈ s.window.rest.seen, e ∈ window.rest.seen) →
      ∀ e ∈ (restStep R cfg nowNs s a).1.window.rest.seen, e ∈ window.rest.seen :=
    fun s a h e he => h e (restStep_seen nowNs s a he)
  exact runLoop_keeps hkeeps (fun _ he => he)

theorem derive_left_rest {P : Label → ℕ → Prop} {w : Window} (h : w.rest.All P) (tree : Tree)
    (budget : ℕ) (nowNs : ℤ)
    (c : Checkpoint) : (derive R cfg tree budget nowNs c w).1.rest.All P := by
  unfold derive
  split
  · exact h
  · next g _ =>
    have hseen := deriveRest_seen R cfg nowNs w.discard (recordsOf R g)
    split
    · next rest e heq =>
      rw [heq] at hseen; exact h.discarded hseen
    · next rest heq =>
      rw [heq] at hseen
      have hws := deriveWs_rest R cfg nowNs rest.window (restoreTrackers c) (recordsOf R g)
      split
      · next ws e heq' =>
        rw [heq'] at hws; exact h.discarded (hws ▸ hseen)
      · next ws heq' =>
        rw [heq'] at hws; exact h.discarded (hws ▸ hseen)

end Cycle

end CryptoPilot.Streams
