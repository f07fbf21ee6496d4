/- # LiquidationRuns — what runs of the normalizer make of the forced orders.

A frame whose order parses is an event of its text, at its receipt.  Texts are remembered by their
digests, so a frame is dropped only for a derived one of the same text that is no later: in any run
that consumes the journal the partitions hold, of each key, the event of the earliest frame. -/
import CryptoPilot.Streams.EarliestSample

namespace CryptoPilot.Streams

open CryptoPilot.Lib CryptoPilot.Capture List Option Function

variable {R : Runtime} {cfg : Config}

/-! # Frames -/

def IsFrame (r : Record) (slot : Slot) (text : String) : Prop :=
  streamOf r = some .forceOrder ∧ slotOf r = some slot ∧ textOf r "kind" = some "frame" ∧
    textOf r "frame" = some text

/-- The record says that the connection of the slot was opened or closed. -/
def IsBreak (r : Record) (slot : Slot) : Prop :=
  streamOf r = some .forceOrder ∧ slotOf r = some slot ∧
    (textOf r "kind" = some "ws_open" ∨ textOf r "kind" = some "ws_close")

def IsEvent (R : Runtime) (r : Record) (e : LiquidationEvent) : Prop :=
  ∃ slot text, IsFrame r slot text ∧ parseWsFrame R text (recvOf r) = some e

variable {r : Record} {slot : Slot}

theorem IsFrame.eq {slot slot' : Slot} {text text' : String} (h : IsFrame r slot text)
    (h' : IsFrame r slot' text') : slot = slot' ∧ text = text' :=
  ⟨Option.some.inj (h.2.1.symm.trans h'.2.1), Option.some.inj (h.2.2.2.symm.trans h'.2.2.2)⟩

def markedAt (s : WsState) (slot : Slot) (t : Tracker) : Slot → Tracker := Function.update s.trackers slot t

/-- What a record of `_derive_ws` that does not raise does to the state. -/
inductive WsEffect (R : Runtime) (cfg : Config) (nowNs : ℤ) (s : WsState) (r : Record) : WsState → Prop where
  /-- No record of the stream, or none that counts. -/
  | idle (hframe : ∀ slot text, ¬ IsFrame r slot text) (hbreak : ∀ slot,
      ¬ IsBreak r slot) : WsEffect R cfg nowNs s r s
  | opened (slot : Slot) (hbreak : IsBreak r slot) :
      WsEffect R cfg nowNs s r { s with trackers := markedAt s slot (s.trackers slot).markError }
  | duplicate (slot : Slot) (text : String) (t : Tracker) (hframe : IsFrame r slot text)
      (hseen : (pruneWs cfg nowNs s.window).ws.check (R.sha256 text) (recvOf r) = true)
      (hmark : (s.trackers slot).markOk (recvOf r) = .ok t) :
      WsEffect R cfg nowNs s r { s with window := pruneWs cfg nowNs s.window, trackers := markedAt s slot t }
  | rejected (slot : Slot) (text : String) (hframe : IsFrame r slot text)
      (hseen : (pruneWs cfg nowNs s.window).ws.check (R.sha256 text) (recvOf r) = false)
      (hparse : parseWsFrame R text (recvOf r) = none) :
      WsEffect R cfg nowNs s r
        { s with
          window := { pruneWs cfg nowNs s.window with
            ws := (pruneWs cfg nowNs s.window).ws.stage (R.sha256 text) (recvOf r) } }
  | event (slot : Slot) (text : String) (t : Tracker) (e : LiquidationEvent) (hframe : IsFrame r slot text)
      (hseen : (pruneWs cfg nowNs s.window).ws.check (R.sha256 text) (recvOf r) = false)
      (hparse : parseWsFrame R text (recvOf r) = some e) (hmark : (s.trackers slot).markOk (recvOf r) = .ok t) :
      WsEffect R cfg nowNs s r
        { window := { pruneWs cfg nowNs s.window with
            ws := (pruneWs cfg nowNs s.window).ws.stage (R.sha256 text) (recvOf r) }
          trackers := markedAt s slot t
          events := s.events ++ [e] }

variable {s s' : WsState}

theorem markOk_eq_none {recvNs : ℕ} (h : s.markOk slot recvNs = (s', none)) :
    ∃ t, (s.trackers slot).markOk recvNs = .ok t ∧ s' = { s with trackers := markedAt s slot t } := by
  unfold WsState.markOk at h
  split at h
  · cases h
  · next t ht =>
    cases h; exact ⟨t, ht, rfl⟩

variable {nowNs : ℤ}

theorem wsStep_effect (h : wsStep R cfg nowNs s r = (s', none)) : WsEffect R cfg nowNs s r s' := by
  unfold wsStep at h
  split at h
  · next slot hstream hslot =>
    split at h
    · cases h
    · split at h
      · next hkind =>
        cases h; exact .opened slot ⟨hstream, hslot, Or.inl hkind⟩
      · next hkind =>
        cases h; exact .opened slot ⟨hstream, hslot, Or.inr hkind⟩
      · next hkind =>
        split at h
        · next htext =>
          cases h
          refine .idle (fun slot' text hf => ?_) (fun slot' hb => ?_)
          · exact absurd (htext.symm.trans hf.2.2.2) nofun
          · rcases hb.2.2 with hb | hb
            all_goals exact absurd (hkind.symm.trans hb) (by decide)
        · next text htext =>
          have hframe : IsFrame r slot text := ⟨hstream, hslot, hkind, htext⟩
          unfold frameStep at h
          simp only at h
          split at h
          · next hseen =>
            obtain ⟨t, hmark, rfl⟩ := markOk_eq_none h
            exact .duplicate slot text t hframe hseen hmark
          · next hseen =>
            split at h
            · next hparse =>
              cases h; exact .rejected slot text hframe (eq_false_of_ne_true hseen) hparse
            · next e hparse =>
              obtain ⟨t, hmark, rfl⟩ := markOk_eq_none h
              exact .event slot text t e hframe (eq_false_of_ne_true hseen) hparse hmark
      · next hopen hclose hkind =>
        cases h
        refine .idle (fun slot' text hf => hkind hf.2.2.1) (fun slot' hb => ?_)
        rcases hb.2.2 with hb | hb
        · exact hopen hb
        · exact hclose hb
  · next hnone =>
    cases h
    exact .idle (fun slot text hf => hnone slot hf.1 hf.2.1) (fun slot hb => hnone slot hb.1 hb.2.1)

def Follows (trackers : Slot → Tracker) (r : Record) : Prop :=
  ∀ slot seg, streamOf r = some .forceOrder → slotOf r = some slot → (trackers slot).segment = some seg →
    seg.last ≤ recvOf r

theorem markOk_none {s : WsState} {recvNs : ℕ}
    (h : ∀ seg, (s.trackers slot).segment = some seg → seg.last ≤ recvNs) : (s.markOk slot recvNs).2 = none := by
  unfold WsState.markOk Tracker.markOk
  cases hseg : (s.trackers slot).segment with
  | none => rfl
  | some seg =>
    have hle := h seg hseg; simp only [if_neg (not_lt.mpr hle)]

theorem wsStep_none {s : WsState} (hrange : recvOf r < 2 ^ 63) (h : Follows s.trackers r) :
    (wsStep R cfg nowNs s r).2 = none := by
  unfold wsStep
  split
  · next slot hstream hslot =>
    rw [if_neg (not_le.mpr hrange)]
    split
    · rfl
    · rfl
    · split
      · rfl
      · unfold frameStep
        simp only
        split
        · exact markOk_none (fun seg hseg => h slot seg hstream hslot hseg)
        · split
          · rfl
          · exact markOk_none (fun seg hseg => h slot seg hstream hslot hseg)
    · rfl
  · rfl

theorem last_of_markOk {t t' : Tracker} {ts : ℤ} (h : t.markOk ts = .ok t') {seg : Segment}
    (hseg : t'.segment = some seg) : seg.last = ts := by
  unfold Tracker.markOk at h
  split at h
  · cases h; cases hseg; rfl
  · split at h
    · cases h
    · cases h; cases hseg; rfl

theorem WsEffect.last (h : WsEffect R cfg nowNs s r s') {seg : Segment}
    (hseg : (s'.trackers slot).segment = some seg) :
    (∃ seg₀, (s.trackers slot).segment = some seg₀ ∧ seg₀.last = seg.last) ∨ seg.last = recvOf r := by
  have hmarked : ∀ slot' t, (s.trackers slot').markOk (recvOf r) = .ok t →
      (markedAt s slot' t slot).segment = some seg →
      (∃ seg₀, (s.trackers slot).segment = some seg₀ ∧ seg₀.last = seg.last) ∨ seg.last = recvOf r := by
    intro slot' t hmark hseg
    by_cases hslot : slot = slot'
    · rw [markedAt, hslot, update_self] at hseg; exact Or.inr (last_of_markOk hmark hseg)
    · rw [markedAt, update_of_ne hslot] at hseg; exact Or.inl ⟨seg, hseg, rfl⟩
  cases h with
  | idle | rejected => exact Or.inl ⟨seg, hseg, rfl⟩
  | opened slot' _ =>
    by_cases hslot : slot = slot'
    · change (markedAt s slot' _ slot).segment = some seg at hseg
      rw [markedAt, hslot, update_self, Tracker.markError] at hseg
      split at hseg
      · next hnone =>
        rw [hnone] at hseg; cases hseg
      · cases hseg
    · change (markedAt s slot' _ slot).segment = some seg at hseg
      rw [markedAt, update_of_ne hslot] at hseg; exact Or.inl ⟨seg, hseg, rfl⟩
  | duplicate slot' _ t _ _ hmark | event slot' _ t _ _ _ _ hmark =>
    exact hmarked slot' t hmark hseg

/-- **Records in order that the trackers have not passed do not raise.** -/
theorem deriveWs_none : ∀ {records : List Record} {s : WsState},
    records.Pairwise (fun a b => recvOf a ≤ recvOf b) → (∀ r ∈ records, recvOf r < 2 ^ 63) →
    (∀ r ∈ records, Follows s.trackers r) → (runLoop (wsStep R cfg nowNs) records s).2 = none
  | [], _, _, _, _ => rfl
  | a :: rest, s, hsorted, hrange, hfollows => by
    obtain ⟨hhead, htail⟩ := pairwise_cons.mp hsorted
    have hnone : (wsStep R cfg nowNs s a).2 = none :=
      wsStep_none (hrange a mem_cons_self) (hfollows a mem_cons_self)
    rw [runLoop]
    split
    · next s' heq =>
      refine deriveWs_none htail (fun r hr => hrange r (mem_cons_of_mem _ hr)) ?_
      intro r hr slot seg hstream hslot hseg
      rcases (wsStep_effect heq).last hseg with ⟨seg₀, hseg₀, hlast⟩ | hlast
      · rw [← hlast]; exact hfollows r (mem_cons_of_mem _ hr) slot seg₀ hstream hslot hseg₀
      · rw [hlast]; exact_mod_cast hhead r hr
    · next s' e heq =>
      rw [heq] at hnone; cases hnone

/-! # One cycle -/

/-- The state of `_derive_ws` after the records `pre`, as far as events go. -/
structure WsRun (R : Runtime) (window : Window) (pre : List Record) (s : WsState) : Prop where
  seen : ∀ m ∈ s.window.ws.seen, m ∈ window.ws.seen
  events : ∀ e ∈ s.events, ∃ r ∈ pre, IsEvent R r e
  staged : ∀ m ∈ s.window.ws.staged, ∃ r ∈ pre, ∃ slot text, IsFrame r slot text ∧ R.sha256 text = m.1 ∧
    recvOf r = m.2 ∧ ∀ e, parseWsFrame R text (recvOf r) = some e → e ∈ s.events
  settled : ∀ r ∈ pre, ∀ slot text e, IsFrame r slot text → parseWsFrame R text (recvOf r) = some e →
    (∃ e' ∈ s.events, e'.toOrder = e.toOrder ∧ e'.ingestedAt ≤ e.ingestedAt) ∨
      ∃ n ≤ recvOf r, (R.sha256 text, n) ∈ window.ws.seen

section Cycle

variable {nowNs : ℤ} {window : Window} {pre : List Record} {s : WsState} {a : Record} {T : Set String}

variable {trackers : Slot → Tracker}

theorem WsRun.skip (h : WsRun R window pre s) {w : Window}
    (hseen : ∀ m ∈ w.ws.seen, m ∈ s.window.ws.seen) (hstaged : w.ws.staged = s.window.ws.staged)
    (hsettled : ∀ slot text e, IsFrame a slot text → parseWsFrame R text (recvOf a) = some e →
      (∃ e' ∈ s.events, e'.toOrder = e.toOrder ∧ e'.ingestedAt ≤ e.ingestedAt) ∨
        ∃ n ≤ recvOf a, (R.sha256 text, n) ∈ window.ws.seen) :
    WsRun R window (pre ++ [a]) { s with window := w, trackers := trackers } := by
  refine ⟨fun m hm => h.seen m (hseen m hm), ?_, ?_, ?_⟩
  · intro e he
    obtain ⟨r, hr, hevent⟩ := h.events e he; exact ⟨r, mem_append_left _ hr, hevent⟩
  · intro m hm
    rw [hstaged] at hm
    obtain ⟨r, hr, hrest⟩ := h.staged m hm; exact ⟨r, mem_append_left _ hr, hrest⟩
  · intro r hr slot text e hframe hparse
    rcases mem_append.mp hr with hr | hr
    · exact h.settled r hr slot text e hframe hparse
    · rw [mem_singleton.mp hr] at hframe hparse ⊢; exact hsettled slot text e hframe hparse

variable (cfg nowNs) in
theorem WsRun.take (h : WsRun R window pre s) {slot : Slot} {text : String} (hframe : IsFrame a slot text)
    {new : List LiquidationEvent} (hnew : ∀ e, e ∈ new ↔ parseWsFrame R text (recvOf a) = some e) :
    WsRun R window (pre ++ [a])
      ⟨{ pruneWs cfg nowNs s.window with ws := (pruneWs cfg nowNs s.window).ws.stage (R.sha256 text) (recvOf a) },
        trackers, s.events ++ new⟩ := by
  have hself : a ∈ pre ++ [a] := mem_append_right _ (mem_singleton_self a)
  refine ⟨fun m hm => h.seen m (Marks.mem_of_mem_prune hm), ?_, ?_, ?_⟩
  · intro e he
    rcases mem_append.mp he with he | he
    · obtain ⟨r, hr, hevent⟩ := h.events e he; exact ⟨r, mem_append_left _ hr, hevent⟩
    · exact ⟨a, hself, slot, text, hframe, (hnew e).mp he⟩
  · intro m hm
    rcases Marks.mem_of_mem_set hm with hm | rfl
    · obtain ⟨r, hr, slot', text', hframe', hdigest, hrecv, hderived⟩ := h.staged m hm
      exact ⟨r, mem_append_left _ hr, slot', text', hframe', hdigest, hrecv,
        fun e he => mem_append_left _ (hderived e he)⟩
    · exact ⟨a, hself, slot, text, hframe, rfl, rfl, fun e he => mem_append_right _ ((hnew e).mpr he)⟩
  · intro r hr slot' text' e hframe' hparse
    rcases mem_append.mp hr with hr | hr
    · rcases h.settled r hr slot' text' e hframe' hparse with ⟨e', he', hle⟩ | hseen
      · exact Or.inl ⟨e', mem_append_left _ he', hle⟩
      · exact Or.inr hseen
    · rw [mem_singleton.mp hr] at hframe' hparse
      obtain ⟨-, rfl⟩ := hframe.eq hframe'
      exact Or.inl ⟨e, mem_append_right _ ((hnew e).mpr hparse), rfl, le_rfl⟩

section

variable (h : WsRun R window pre s) (hsha : Set.InjOn R.sha256 T)

include h hsha

theorem WsRun.settled_of_check (hT : ∀ r ∈ pre, ∀ slot text, IsFrame r slot text → text ∈ T)
    {text : String} (htext : text ∈ T) {recvNs : ℕ}
    (hseen : (pruneWs cfg nowNs s.window).ws.check (R.sha256 text) recvNs = true)
    {e : LiquidationEvent} (hparse : parseWsFrame R text recvNs = some e) :
    (∃ e' ∈ s.events, e'.toOrder = e.toOrder ∧ e'.ingestedAt ≤ e.ingestedAt) ∨
      ∃ n ≤ recvNs, (R.sha256 text, n) ∈ window.ws.seen := by
  have hall : (pruneWs cfg nowNs s.window).ws.All (fun d n => (d, n) ∈ window.ws.seen ∨
    (d, n) ∈ s.window.ws.staged) := by
    rintro m (hm | hm)
    · exact Or.inl (h.seen m (Marks.mem_of_mem_prune hm))
    · exact Or.inr hm
  obtain ⟨n, hle, hn | hn⟩ := hall.of_check hseen
  · exact Or.inr ⟨n, hle, hn⟩
  · left
    obtain ⟨r, hr, slot', text', hframe, hdigest, hrecv, hderived⟩ := h.staged _ hn
    obtain rfl : text' = text := hsha (hT r hr slot' text' hframe) htext hdigest
    obtain ⟨hingested, hparse'⟩ := parseWsFrame_recv hparse (recvOf r)
    refine ⟨_, hderived _ hparse', rfl, ?_⟩
    rw [hingested, hrecv]
    show (n : ℤ) ≤ recvNs; exact_mod_cast hle

theorem WsRun.step (hT : ∀ r ∈ pre ++ [a], ∀ slot text, IsFrame r slot text → text ∈ T)
    {s' : WsState} (hstep : wsStep R cfg nowNs s a = (s', none)) :
    WsRun R window (pre ++ [a]) s' := by
  cases wsStep_effect hstep with
  | idle hframe _ => exact h.skip (fun _ hm => hm) rfl (fun slot text _ hf => absurd hf (hframe slot text))
  | opened slot hbreak =>
    refine h.skip (fun _ hm => hm) rfl ?_
    intro slot' text e hf
    rcases hbreak.2.2 with hb | hb
    all_goals exact absurd (hb.symm.trans hf.2.2.1) (by decide)
  | duplicate slot text t hframe hseen hmark =>
    refine h.skip (fun _ hm => Marks.mem_of_mem_prune hm) rfl ?_
    intro slot' text' e hf hparse
    obtain ⟨-, rfl⟩ := hframe.eq hf
    exact h.settled_of_check hsha (fun r hr => hT r (mem_append_left _ hr))
      (hT a (mem_append_right _ (mem_singleton_self a)) slot' _ hf) hseen hparse
  | rejected slot text hframe hseen hparse =>
    have htake : WsRun R window (pre ++ [a]) ⟨_, s.trackers, s.events ++ []⟩ :=
      h.take cfg nowNs hframe (by simp [hparse])
    rwa [append_nil] at htake
  | event slot text t e hframe hseen hparse hmark =>
    refine h.take cfg nowNs hframe ?_
    intro e'
    rw [mem_singleton, hparse, Option.some.injEq, eq_comm]

end

/-- **`_derive_ws` as far as events go.** -/
theorem deriveWs_run {records : List Record} {ws : WsState} (hstaged : window.ws.staged = [])
    (hsha : Set.InjOn R.sha256 T) (hT : ∀ r ∈ records, ∀ slot text, IsFrame r slot text → text ∈ T)
    (h : deriveWs R cfg nowNs window trackers records = (ws, none)) : WsRun R window records ws := by
  refine runLoop_invariant ?_ (nil_append records).symm ?_ h
  · intro pre a post s s' hl hinv hstep
    refine hinv.step hsha ?_ hstep
    intro r hr
    apply hT r
    rw [hl]
    rcases mem_append.mp hr with hr | hr
    · exact mem_append_left _ hr
    · exact mem_append_right _ (mem_singleton.mp hr ▸ mem_cons_self)
  · refine ⟨fun m hm => hm, fun e he => (not_mem_nil he).elim, ?_, fun r hr => (not_mem_nil hr).elim⟩
    intro m hm
    rw [hstaged] at hm; cases hm

end Cycle

/-! # Runs -/

variable (R cfg) in
theorem deriveWs_seen (nowNs : ℤ) (window : Window) (trackers : Slot → Tracker) (records : List Record) :
    ∀ m ∈ (deriveWs R cfg nowNs window trackers records).1.window.ws.seen, m ∈ window.ws.seen := by
  have hkeeps : ∀ (s : WsState) (a : Record), (∀ m ∈ s.window.ws.seen, m ∈ window.ws.seen) →
      ∀ m ∈ (wsStep R cfg nowNs s a).1.window.ws.seen, m ∈ window.ws.seen := by
    intro s a h m hm
    rcases wsStep_window nowNs s a with heq | heq | ⟨text, -, heq⟩
    · rw [heq] at hm; exact h m hm
    all_goals rw [heq] at hm; exact h m (Marks.mem_of_mem_prune hm)
  exact runLoop_keeps hkeeps (fun _ hm => hm)

theorem derive_left_ws {P : String → ℕ → Prop} {w : Window} (h : w.ws.All P) (tree : Tree) (budget : ℕ) (nowNs : ℤ)
    (c : Checkpoint) : (derive R cfg tree budget nowNs c w).1.ws.All P := by
  unfold derive
  split
  · exact h
  · next g _ =>
    have hrest := deriveRest_ws R cfg nowNs w.discard (recordsOf R g)
    split
    · next rest e heq =>
      rw [heq] at hrest
      refine h.discarded fun e he => ?_
      rw [hrest] at he; exact he
    · next rest heq =>
      rw [heq] at hrest
      have hseen := deriveWs_seen R cfg nowNs rest.window (restoreTrackers c) (recordsOf R g)
      rw [hrest] at hseen
      split
      · next ws e heq' =>
        rw [heq'] at hseen; exact h.discarded hseen
      · next ws heq' =>
        rw [heq'] at hseen; exact h.discarded hseen

theorem mem_liquidation_writesOf {frames : List (Stream × List Row)} {ws : WsState} {hour : ℤ}
    {chunk : List LiquidationEvent} :
    Write.liquidation hour chunk ∈ writesOf frames ws ↔
      (∃ e ∈ ws.events, e.hour = hour) ∧ chunk = ws.events.filter (fun e => e.hour = hour) := by
  simp only [writesOf, mem_append]
  constructor
  · rintro ((((h | h) | h) | h) | h)
    · obtain ⟨g, -, heq⟩ := mem_map.mp h; cases heq
    · obtain ⟨g, -, heq⟩ := mem_map.mp h; cases heq
    · obtain ⟨g, hg, heq⟩ := mem_map.mp h; cases heq; exact mem_hourGroups.mp hg
    all_goals obtain ⟨g, -, heq⟩ := mem_map.mp h; cases heq
  · intro h; exact Or.inl (Or.inl (Or.inr (mem_map.mpr ⟨(hour, chunk), mem_hourGroups.mpr h, rfl⟩)))

section Runs

variable (R) (J : Journal R.toCodec)

def frameTexts {C : Codec} (J : Journal C) : Set String := {text | ∃ r ∈ J.records, ∃ slot, IsFrame r slot text}

def EventWritten (log : List Write) (e : LiquidationEvent) : Prop := e.compact ∈ logged (eventBatch e.hour) log

def EventSettled (log : List Write) (r : Record) : Prop :=
  ∀ e, IsEvent R r e → ∃ e', EventWritten log e' ∧ e'.toOrder = e.toOrder ∧ e'.ingestedAt ≤ e.ingestedAt

/-- Every mark of a frame is a frame whose event was written, if it is one. -/
def WsMarked (log : List Write) (w : Window) : Prop :=
  w.ws.All (fun digest n => ∃ text ∈ frameTexts J, R.sha256 text = digest ∧
    ∀ e, parseWsFrame R text n = some e → EventWritten log e)

def FromFrames : Write → Prop
  | .liquidation hour chunk => ∀ e ∈ chunk, e.hour = hour ∧ ∃ r ∈ J.records, IsEvent R r e
  | _ => True

variable {R J}

variable {log : List Write} {e : LiquidationEvent}

theorem EventWritten.append (h : EventWritten log e) (writes : List Write) :
    EventWritten (log ++ writes) e := by
  obtain ⟨w, hw, hbatch⟩ := h; exact ⟨w, mem_append_left _ hw, hbatch⟩

theorem EventSettled.append {r : Record} (h : EventSettled R log r) (writes : List Write) :
    EventSettled R (log ++ writes) r := by
  intro e he
  obtain ⟨e', hwritten, hrest⟩ := h e he; exact ⟨e', hwritten.append writes, hrest⟩

theorem WsMarked.append {w : Window} (h : WsMarked R J log w) (writes : List Write) :
    WsMarked R J (log ++ writes) w :=
  h.imp (fun _ _ ⟨text, htext, hdigest, hwritten⟩ =>
    ⟨text, htext, hdigest, fun e he => (hwritten e he).append writes⟩)

theorem eventWritten_writesOf (frames : List (Stream × List Row)) {ws : WsState}
    (he : e ∈ ws.events) : EventWritten (writesOf frames ws) e := by
  refine ⟨.liquidation e.hour (ws.events.filter (fun e' => e'.hour = e.hour)),
    mem_liquidation_writesOf.mpr ⟨⟨e, he, rfl⟩, rfl⟩,
    (ws.events.filter (fun e' => e'.hour = e.hour)).map LiquidationEvent.compact, by simp [eventBatch], ?_⟩
  exact mem_map_of_mem (mem_filter.mpr ⟨he, by simp⟩)

theorem ws_returned (hsha : Set.InjOn R.sha256 (frameTexts J)) {v : View R.toCodec} {c : Checkpoint}
    {w left : Window} {budget : ℕ} {nowNs : ℤ} {plan : Plan} (hgood : Accounted J (EventSettled R) v log c)
    (hmarked : WsMarked R J log w) (h : derive R cfg (J.tree v) budget nowNs c w = (left, .ok plan)) :
    (∀ x ∈ plan.writes, FromFrames R J x) ∧ Accounted J (EventSettled R) v (log ++ plan.writes) plan.checkpoint ∧
      WsMarked R J (log ++ plan.writes) plan.window := by
  obtain ⟨g, rest, ws, hd⟩ := derived_of_derive h
  have hmem : ∀ r ∈ recordsOf R g, r ∈ J.records := by
    intro r hr
    obtain ⟨f, hf, m, hm, hrm, -⟩ := exists_member_of_mem_recordsOf hgood hd.gathers hr
    exact ⟨f, hf, m, hm, hrm⟩
  have hrest := deriveRest_ws R cfg nowNs w.discard (recordsOf R g)
  rw [hd.samples] at hrest
  have hrun : WsRun R rest.window (recordsOf R g) ws := by
    refine deriveWs_run ?_ hsha (fun r hr slot text hf => ⟨r, hmem r hr, slot, hf⟩) hd.events
    rw [hrest]; rfl
  have hseen : ∀ m ∈ rest.window.ws.seen, m ∈ w.ws.seen := by
    intro m hm
    rw [hrest] at hm; exact hm
  have hwritten : ∀ e ∈ ws.events, EventWritten (log ++ plan.writes) e := by
    intro e he
    rw [hd.writes]
    obtain ⟨x, hx, hbatch⟩ := eventWritten_writesOf rest.frames he
    exact ⟨x, mem_append_right _ hx, hbatch⟩
  refine ⟨?_, ?_, ?_⟩
  · intro x hx
    rw [hd.writes] at hx
    cases x with
    | snapshot _ _ _ => trivial
    | liquidation hour chunk =>
      intro e he
      obtain ⟨-, rfl⟩ := mem_liquidation_writesOf.mp hx
      obtain ⟨he, hhour⟩ := mem_filter.mp he
      obtain ⟨r, hr, hevent⟩ := hrun.events e he
      exact ⟨of_decide_eq_true hhour, r, hmem r hr, hevent⟩
    | coverage _ => trivial
  · rw [hd.checkpoint]
    refine hgood.advance hd.gathers _ (fun r hr => hr.append _) ?_
    rintro r hr e ⟨slot, text, hframe, hparse⟩
    rcases hrun.settled r hr slot text e hframe hparse with ⟨e', he', hle⟩ | ⟨n, hle, hn⟩
    · exact ⟨e', hwritten e' he', hle⟩
    · -- a frame seen before: its event was written when it was marked
      obtain ⟨text', htext', hdigest, hmark⟩ := hmarked _ (Or.inl (hseen _ hn))
      obtain rfl : text' = text := hsha htext' ⟨r, hmem r hr, slot, hframe⟩ hdigest
      obtain ⟨hingested, hparse'⟩ := parseWsFrame_recv hparse n
      refine ⟨_, (hmark _ hparse').append _, rfl, ?_⟩
      rw [hingested]
      show (n : ℤ) ≤ recvOf r; exact_mod_cast hle
  · rw [hd.window]
    refine Memory.All.commit ?_
    rintro m (hm | hm)
    · exact hmarked.append plan.writes m (Or.inl (hseen m (hrun.seen m hm)))
    · obtain ⟨r, hr, slot, text, hframe, hdigest, hrecv, hderived⟩ := hrun.staged m hm
      refine ⟨text, ⟨r, hmem r hr, slot, hframe⟩, hdigest, ?_⟩
      intro e he
      rw [← hrecv] at he; exact hwritten e (hderived e he)

variable (cfg J)

theorem wsRules (hsha : Set.InjOn R.sha256 (frameTexts J)) :
    State.Rules cfg J (fun _ _ => True) (Within J) (Accounted J (EventSettled R))
      (fun _ log w => WsMarked R J log w) (FromFrames R J) where
  shown_init := fun _ _ => Nat.zero_le _
  shown_step s a _ h := within_step s a h
  good_init := accounted_empty (fun _ _ => Nat.zero_le _)
  good_view _ _ _ _ hshown hgrows h := h.grow hgrows hshown
  good_log _ _ _ _ _ h := h.mono (fun _ hr => hr.append _)
  marked_empty _ _ := Memory.all_empty
  marked_log _ _ _ _ h := h.append _
  raised c _ _ tree budget nowNs h := derive_left_ws h tree budget nowNs c
  returned _ _ _ _ _ _ _ _ hgood hmarked _ h := ws_returned hsha hgood hmarked h

end Runs

/-! # The partitions -/

section Partitions

variable (R) in
def acceptedEvents (J : Journal R.toCodec) : Set LiquidationEvent :=
  {e | ∃ r ∈ J.records, ∃ e', IsEvent R r e' ∧ e = e'.compact}

def liquidationTable {C : Codec} (s : State C) : Set LiquidationEvent := {e | ∃ hour, e ∈ s.lake.liquidations hour}

variable (R) in
/-- `json.dumps` encodes the orders that `json.loads` decoded. -/
def OrdersSerialise (J : Journal R.toCodec) : Prop :=
  ∀ text ∈ frameTexts J, ∀ msg o, R.loads text = some (.obj msg) → Record.get msg "o" = some (.obj o) →
    (R.dumpsOrder o).isSome

variable (R) in
def DistinctEvents (J : Journal R.toCodec) : Prop :=
  ∀ r ∈ J.records, ∀ r' ∈ J.records, ∀ e e', IsEvent R r e → IsEvent R r' e' → recvOf r = recvOf r' → r = r'

variable {J : Journal R.toCodec}

variable {e : LiquidationEvent} {r : Record}

theorem IsEvent.ingestedAt (h : IsEvent R r e) : e.ingestedAt = recvOf r := by
  obtain ⟨slot, text, -, hparse⟩ := h; exact (parseWsFrame_recv hparse 0).1

theorem IsEvent.eq {e e' : LiquidationEvent} (h : IsEvent R r e) (h' : IsEvent R r e') :
    e = e' := by
  obtain ⟨slot, text, hframe, hparse⟩ := h
  obtain ⟨slot', text', hframe', hparse'⟩ := h'
  obtain ⟨-, rfl⟩ := hframe.eq hframe'; exact Option.some.inj (hparse.symm.trans hparse')

theorem rawOrderJson_of_parseOrder {o : Record} {order : Order} (h : parseOrder R o = some order) :
    order.rawOrderJson = R.dumpsOrder o := by
  iterate 15 obtain ⟨_, _, h⟩ := bind_eq_some_iff.mp h
  cases h; rfl

theorem IsEvent.stored (hserial : OrdersSerialise R J) (hr : r ∈ J.records) (h : IsEvent R r e) :
    e.compact.Stored := by
  obtain ⟨slot, text, hframe, hparse⟩ := h
  refine ⟨e.compact_compact, ?_⟩
  show e.rawOrderJson.isSome
  unfold parseWsFrame at hparse
  split at hparse
  · next msg hloads =>
    unfold parseLiquidation at hparse
    split at hparse
    · next o ho =>
      obtain ⟨order, horder, rfl⟩ := map_eq_some_iff.mp hparse
      rw [rawOrderJson_of_parseOrder horder]
      exact hserial text ⟨r, hr, slot, hframe⟩ msg o hloads ho
    · cases hparse
  · cases hparse

theorem distinct_acceptedEvents (hdistinct : DistinctEvents R J) :
    Distinct LiquidationEvent.key LiquidationEvent.ingestedAt (acceptedEvents R J) := by
  rintro x ⟨r, hr, e, he, rfl⟩ y ⟨r', hr', e', he', rfl⟩ - htime
  change e.ingestedAt = e'.ingestedAt at htime
  rw [he.ingestedAt, he'.ingestedAt] at htime
  obtain rfl := hdistinct r hr r' hr' e e' he he' (by exact_mod_cast htime)
  rw [he.eq he']

theorem accepted_of_logged {log : List Write} (hok : ∀ w ∈ log, FromFrames R J w) {hour : ℤ}
    (h : e ∈ logged (eventBatch hour) log) : e.hour = hour ∧ e ∈ acceptedEvents R J := by
  obtain ⟨w, hw, b, hb, he⟩ := h
  have hfrom := hok w hw
  cases w with
  | snapshot _ _ _ => cases hb
  | liquidation hour' chunk =>
    obtain ⟨rfl, heq⟩ := (ite_none_right_eq_some).mp hb
    cases heq
    obtain ⟨e', he', rfl⟩ := mem_map.mp he
    obtain ⟨hhour, r, hr, hevent⟩ := hfrom e' he'; exact ⟨hhour, r, hr, e', hevent, rfl⟩
  | coverage _ => cases hb

abbrev WsHolds (J : Journal R.toCodec) (s : State R.toCodec) : Prop :=
  State.Holds (Within J) (Accounted J (EventSettled R)) (fun _ log w => WsMarked R J log w) (FromFrames R J) s

/-- **The partitions of a state that consumed the journal** hold the earliest events of the journal.
-/
theorem liquidationTable_eq (hserial : OrdersSerialise R J) (hdistinct : DistinctEvents R J) {s : State R.toCodec}
    (h : WsHolds J s) (hall : ConsumesAll J s) :
    liquidationTable s = earliest LiquidationEvent.key LiquidationEvent.ingestedAt (acceptedEvents R J) := by
  have hd := distinct_acceptedEvents hdistinct
  have hpartition : ∀ hour e, e ∈ s.lake.liquidations hour ↔
      e ∈ earliest LiquidationEvent.key LiquidationEvent.ingestedAt (logged (eventBatch hour) s.log) := by
    intro hour e
    refine mem_liquidations ?_ (hd.mono (fun e he => (accepted_of_logged h.ok he).2))
    intro e he
    obtain ⟨-, r, hr, e', hevent, rfl⟩ := accepted_of_logged h.ok he; exact hevent.stored hserial hr
  -- every event is preceded by one that was written, in the partition of its hour
  have hwritten : ∀ e ∈ acceptedEvents R J, ∃ y ∈ logged (eventBatch e.hour) s.log,
      y.key = e.key ∧ y.ingestedAt ≤ e.ingestedAt := by
    rintro _ ⟨r, ⟨f, hf, m, hm, hrm⟩, e, hevent, rfl⟩
    obtain ⟨k, hk, rfl⟩ := mem_iff_getElem.mp hm
    obtain ⟨c, hc, hle⟩ := hall f hf k hk
    obtain ⟨pos, hat, hsettled⟩ := h.good c (Or.inr (Or.inr hc))
    obtain ⟨e', hw, horder, htime⟩ := hsettled f hf _ (mem_take_of_consumed hat hf hk hle) r hrm e hevent
    have hhour : e'.hour = e.hour := by rw [LiquidationEvent.hour, LiquidationEvent.hour, horder]
    refine ⟨e'.compact, ?_, ?_, htime⟩
    · show e'.compact ∈ logged (eventBatch e.hour) s.log
      rw [← hhour]; exact hw
    · simp only [LiquidationEvent.compact, LiquidationEvent.key, horder]
  ext e
  constructor
  · rintro ⟨hour, he⟩
    obtain ⟨hmem, hmin⟩ := (hpartition hour e).mp he
    obtain ⟨hhour, haccepted⟩ := accepted_of_logged h.ok hmem
    refine ⟨haccepted, ?_⟩
    intro y hy hkey
    obtain ⟨z, hz, hzkey, hzle⟩ := hwritten y hy
    have hyhour : y.hour = hour := by
      rw [← hhour, LiquidationEvent.hour, LiquidationEvent.hour]
      rw [show y.eventTimeMs = e.eventTimeMs from congrArg (fun k => k.2.1) hkey]
    rw [hyhour] at hz; exact (hmin z hz (hzkey.trans hkey)).trans hzle
  · rintro ⟨haccepted, hmin⟩
    obtain ⟨z, hz, hzkey, hzle⟩ := hwritten e haccepted
    have hzaccepted := (accepted_of_logged h.ok hz).2
    obtain rfl : z = e := hd z hzaccepted e haccepted hzkey (le_antisymm hzle (hmin z hzaccepted hzkey))
    refine ⟨z.hour, (hpartition z.hour z).mpr ⟨hz, ?_⟩⟩
    intro y hy hkey; exact hmin y (accepted_of_logged h.ok hy).2 hkey

end Partitions

/-! # Main result -/

/-- **Liquidation derivation depends only on the journal**, from any checkpoint that was returned
and going on in any way. -/
theorem liquidations_depend_on_journal (cfg : Config) (J : Journal R.toCodec)
    (hsha : Set.InjOn R.sha256 (frameTexts J)) (hserial : OrdersSerialise R J) (hdistinct : DistinctEvents R J)
    (actions : List (Action R.toCodec)) (hall : ConsumesAll J (State.run cfg J actions)) :
    liquidationTable (State.run cfg J actions) =
        earliest LiquidationEvent.key LiquidationEvent.ingestedAt (acceptedEvents R J) ∧
      (∀ e ∈ liquidationTable (State.run cfg J actions), ∀ e' ∈ liquidationTable (State.run cfg J actions),
        e.key = e'.key → e = e') ∧
      ∀ c ∈ (State.run cfg J actions).returned, ∀ more : List (Action R.toCodec),
        liquidationTable (more.foldl (State.step cfg J) ((State.run cfg J actions).resume c)) =
          liquidationTable (State.run cfg J actions) := by
  have rules := wsRules cfg J hsha
  have hholds : WsHolds J (State.run cfg J actions) := rules.run (fun _ _ _ _ => trivial)
  have htable := liquidationTable_eq hserial hdistinct hholds hall
  refine ⟨htable, ?_, ?_⟩
  · rw [htable]
    intro e he e' he' hkey; exact eq_of_mem_earliest (distinct_acceptedEvents hdistinct) he he' hkey
  · intro c hc more
    rw [htable]
    refine liquidationTable_eq hserial hdistinct ((hholds.resume rules hc).foldl rules (fun _ _ => trivial) more) ?_
    intro f hf k hk
    obtain ⟨c', hc', hle⟩ := hall f hf k hk; exact ⟨c', State.mem_returned_foldl more hc', hle⟩

/-! # A journal of frames -/

theorem frames_drained_at_once {J : Journal R.toCodec} (hrest : ∀ r ∈ J.records, labelOf r = none)
    (hrange : ∀ r ∈ J.records, recvOf r < 2 ^ 63) :
    ConsumesAll J (State.run cfg J ((allPaths J).map .append ++ [drain J])) := by
  obtain ⟨v, hv, hcount⟩ := foldl_append_eq cfg (allPaths J) (s := State.init R.toCodec) (fun p => Nat.zero_le _)
  have hfull := count_eq_length hcount
  have hat : J.At v (fun _ => 0) Checkpoint.empty.files := at_init v (fun f hf => (hfull f hf).le)
  have hok : ∃ left plan, derive R cfg (J.tree v) (totalBytes J + 1) 0 Checkpoint.empty Window.empty =
      (left, .ok plan) := by
    obtain ⟨g, adv, hg, hread, -⟩ := gatherNewRecords_reading hat (totalBytes J + 1)
    refine exists_derive_of_loops hg (deriveRest_none ?_) ?_
    · intro r hr label hlabel
      rw [hrest r (hread.mem_records hr)] at hlabel; cases hlabel
    · intro window
      refine deriveWs_none pairwise_recordsOf (fun r hr => hrange r (hread.mem_records hr)) ?_
      rintro r hr slot seg - - hseg; cases hseg
  obtain ⟨plan, g, rest, ws, hd, hstep, hat', -⟩ :=
    exists_drained_of (s := { State.init R.toCodec with view := v }) hat hok
  have hrun : State.run cfg J ((allPaths J).map .append ++ [drain J]) =
      ⟨v, plan.writes, plan.checkpoint, plan.checkpoint, plan.window, [plan.checkpoint]⟩ := by
    rw [State.run, foldl_append, hv]; exact hstep
  rw [hrun]; exact consumesAll_of_at (mem_singleton_self _) hat' hfull

def orderMessage (symbol quantity : String) : Json :=
  .obj [("e", .str "forceOrder"), ("E", .int 1700000000000),
    ("o", .obj [("S", .str "SELL"), ("T", .int 1700000000000),
    ("X", .str "FILLED"), ("ap", .str "100"), ("f", .str "IOC"), ("l", .str "1"), ("o", .str "LIMIT"),
    ("p", .str "100"), ("q", .str quantity), ("s", .str symbol), ("z", .str "1")])]

def frameRecord (slot : String) (recvNs : ℤ) (message : Json) : Record :=
  [("v", .int 1), ("stream", .str "force_order"), ("slot", .str slot), ("kind", .str "frame"),
    ("recv_ns", .int recvNs),
    ("frame", .str message.text)]

def bitcoinOrder : Json := orderMessage "BTCUSDT" "1"

def blueFrame : Record := frameRecord "blue" 1700000000100000000 bitcoinOrder

def greenFrame : Record := frameRecord "green" 1700000000200000000 bitcoinOrder

def frameRuntime : Runtime :=
  knownRuntime [.obj blueFrame, .obj greenFrame, bitcoinOrder] []
    [(bitcoinOrder.text, "6580f864adcc44e9cd01d8cf1a5662981eeee4d6edca7afed7caeeadf3ec9dca")]

def frameTwins : Journal frameRuntime.toCodec :=
  journalOf _ [(⟨.forceOrder, .blue, 472222⟩, [[blueFrame]]), (⟨.forceOrder, .green, 472222⟩, [[greenFrame]])]
    (by decide +kernel) (by decide +kernel)

theorem mem_frameTwins (hr : r ∈ frameTwins.records) : r = blueFrame ∨ r = greenFrame := by
  obtain ⟨f, hf, rs, hrs, hr⟩ := mem_records_journalOf.mp hr
  simp only [mem_cons, not_mem_nil, or_false] at hf
  rcases hf with rfl | rfl
  · simp only [mem_singleton] at hrs
    subst hrs; exact Or.inl (mem_singleton.mp hr)
  · simp only [mem_singleton] at hrs
    subst hrs; exact Or.inr (mem_singleton.mp hr)

theorem recvOf_blueFrame : recvOf blueFrame = 1700000000100000000 := by decide +kernel

theorem recvOf_greenFrame : recvOf greenFrame = 1700000000200000000 := by decide +kernel

theorem liquidations_depend_on_journal_twins :
    liquidationTable (State.run Config.default frameTwins
      ((allPaths frameTwins).map .append ++ [drain frameTwins])) =
      earliest LiquidationEvent.key LiquidationEvent.ingestedAt (acceptedEvents frameRuntime frameTwins) := by
  refine (liquidations_depend_on_journal Config.default frameTwins ?_ ?_ ?_ _ (frames_drained_at_once ?_ ?_)).1
  · have hone : ∀ text ∈ frameTexts frameTwins, text = bitcoinOrder.text := by
      rintro text ⟨r, hr, slot, -, -, -, htext⟩
      rcases mem_frameTwins hr with rfl | rfl
      all_goals exact (Option.some.inj htext).symm
    intro text htext text' htext' _
    rw [hone text htext, hone text' htext']
  · exact fun _ _ _ _ _ _ => rfl
  · intro r hr r' hr' _ _ _ _ heq
    rcases mem_frameTwins hr with rfl | rfl <;> rcases mem_frameTwins hr' with rfl | rfl
    · rfl
    · rw [recvOf_blueFrame, recvOf_greenFrame] at heq; omega
    · rw [recvOf_blueFrame, recvOf_greenFrame] at heq; omega
    · rfl
  · intro r hr
    rcases mem_frameTwins hr with rfl | rfl <;> rfl
  · intro r hr
    rcases mem_frameTwins hr with rfl | rfl
    · rw [recvOf_blueFrame]; norm_num
    · rw [recvOf_greenFrame]; norm_num

end CryptoPilot.Streams
