/- # ExecutorRefines — the executor's functions move along the order machine.

`Spec c timed x s Q` says: from `s` the program `x` moves its intent along `Reach`, whether it
returns or raises, and `Q` holds when it returns. -/
import CryptoPilot.Live.OrderMachine

namespace CryptoPilot.Live

open CryptoPilot.Lib Proc

/-! ## What every move keeps -/

section Moves

variable {c : ExecConfig} {timed : Bool} {a a' : Abs}

section

variable (h : Step c timed a a')

include h

theorem Step.trace_suffix : a.trace <:+ a'.trace := by
  cases h <;> first | exact List.suffix_cons _ _ | exact List.suffix_rfl

theorem Step.closeLeg_eq : a'.closeLeg = a.closeLeg := by
  cases h <;> rfl

theorem Step.intent_eq : a'.core.intent = a.core.intent := by
  cases h <;> rfl

theorem Step.index_eq : a'.core.index = a.core.index := by
  cases h <;> rfl

theorem Step.filters_eq : a'.core.filters = a.core.filters := by
  cases h <;> rfl

end

theorem Step.reading_eq (h : Step c false a a') : a'.reading = a.reading := by
  cases h with
  | tick call allowed => cases allowed
  | _ => rfl

theorem Step.latestQuote_eq (h : Step c timed a a') (symbol : String) :
    latestQuote a'.trace symbol = latestQuote a.trace symbol := by
  have hother : ∀ e : Event, e.call ≠ .bookTickers →
      latestQuote (e :: a.trace) symbol = latestQuote a.trace symbol := by
    intro e he
    rw [latestQuote]
    split
    · next hcall _ => exact absurd hcall he
    · rfl
  cases h with
  | heard quiet dated =>
    refine hother _ fun hb => ?_
    rw [hb] at quiet; cases quiet
  | failedAppend call failed | tick call allowed => exact hother _ (by rw [call]; nofun)
  | schema logs | submit logs | bookFill _ _ _ _ _ _ logs | paperFill _ _ _ _ logs
  | terminal cause logs => exact hother _ (by rw [logs.1]; nofun)
  | _ => rfl

theorem Reach.keeps {P : Abs → Prop} (hstep : ∀ {a a' : Abs}, Step c timed a a' → P a → P a')
    (h : Reach c timed a a') (ha : P a) : P a' := by
  induction h with
  | refl => exact ha
  | tail _ hlast ih => exact hstep hlast ih

theorem Reach.trace_suffix (h : Reach c timed a a') : a.trace <:+ a'.trace :=
  h.keeps (P := fun x => a.trace <:+ x.trace) (fun hs hx => hx.trans hs.trace_suffix)
    List.suffix_rfl

theorem Reach.closeLeg_eq (h : Reach c timed a a') : a'.closeLeg = a.closeLeg :=
  h.keeps (P := fun x => x.closeLeg = a.closeLeg) (fun hs hx => hs.closeLeg_eq.trans hx) rfl

theorem Reach.reading_eq (h : Reach c false a a') : a'.reading = a.reading :=
  h.keeps (P := fun x => x.reading = a.reading) (fun hs hx => hs.reading_eq.trans hx) rfl

theorem Reach.latestQuote_eq (h : Reach c timed a a') (symbol : String) :
    latestQuote a'.trace symbol = latestQuote a.trace symbol :=
  h.keeps (P := fun x => latestQuote x.trace symbol = latestQuote a.trace symbol)
    (fun hs hx => (hs.latestQuote_eq symbol).trans hx) rfl

theorem Step.allow (h : Step c false a a') : Step c timed a a' := by
  cases h with
  | heard quiet dated => exact .heard quiet dated
  | failedAppend call failed => exact .failedAppend call failed
  | tick call allowed => cases allowed
  | schema logs => exact .schema logs
  | submit logs seq id qty pos recorded => exact .submit logs seq id qty pos recorded
  | bookFill active live mem report new bounded logs id qty cumulative real seq fresh label =>
    exact .bookFill active live mem report new bounded logs id qty cumulative real seq fresh label
  | paperFill active paper pos whole logs cumulative simulated seq id =>
    exact .paperFill active paper pos whole logs cumulative simulated seq id
  | terminal cause logs => exact .terminal cause logs
  | release active why => exact .release active why
  | adopt unresolved => exact .adopt unresolved
  | writeOff unresolved last late => exact .writeOff unresolved last late
  | repeg inBand => exact .repeg inBand
  | escalate noActive noUnresolved => exact .escalate noActive noUnresolved
  | finish running ending => exact .finish running ending
  | block blocked => exact .block blocked

end Moves

/-! ## Specifications -/

/-- `s'` is `s` after moves of its machine. -/
def Moved (c : ExecConfig) (timed : Bool) (s s' : Local) : Prop := Reach c timed s.abs s'.abs

instance (c : ExecConfig) (timed : Bool) : IsPreorder Local (Moved c timed) where
  refl := fun _ => Relation.ReflTransGen.refl
  trans := fun _ _ _ h h' => Relation.ReflTransGen.trans h h'

/-- From `s`, `x` moves along the machine on both exits, and returns with `Q`. -/
abbrev Spec {α : Type} (c : ExecConfig) (timed : Bool) (x : IntentM α) (s : Local) (Q : α → Local → Prop) : Prop :=
  Along (Moved c timed) x s Q

namespace Spec

variable {α β : Type} {c : ExecConfig} {timed : Bool} {x : IntentM α} {s : Local}
  {Q Q' : α → Local → Prop} {R : β → Local → Prop}

theorem mono (h : Spec c timed x s Q) (hQ : ∀ r s', Reach c timed s.abs s'.abs → Q r s' → Q' r s') :
    Spec c timed x s Q' :=
  Along.mono h hQ

theorem ret {r : α} (h : Q r s) : Spec c timed (pure r) s Q := Along.ret h

theorem raise {exc : Exc} : Spec c timed (Proc.throw exc) s Q := Along.raise

variable {f : α → IntentM β}

theorem bind (h : Spec c timed x s Q)
    (hf : ∀ r s', Reach c timed s.abs s'.abs → Q r s' → Spec c timed (f r) s' R) :
    Spec c timed (x >>= f) s R :=
  Along.bind h hf

theorem catching {handler : Exc → IntentM α} (h : Spec c timed x s Q)
    (hh : ∀ exc s', Reach c timed s.abs s'.abs → Spec c timed (handler exc) s' Q) :
    Spec c timed (Proc.tryCatch x handler) s Q :=
  Along.catching h hh

theorem branch {p : Prop} [Decidable p] {y : IntentM α} (ht : p → Spec c timed x s Q)
    (hf : ¬ p → Spec c timed y s Q) : Spec c timed (if p then x else y) s Q :=
  Along.branch ht hf

theorem map {g : α → β} (h : Spec c timed x s fun r s' => R (g r) s') : Spec c timed (g <$> x) s R :=
  Along.map h

theorem readState {f : Local → IntentM β} (h : Spec c timed (f s) s R) : Spec c timed (Proc.get >>= f) s R :=
  Along.readState h

theorem readRt {f : IntentRuntime → IntentM β} (h : Spec c timed (f s.rt) s R) :
    Spec c timed (getRt >>= f) s R := by
  exact h

theorem fallible {r : Except Exc α} (h : ∀ v, r = .ok v → Spec c timed (f v) s R) :
    Spec c timed (Proc.ofExcept r >>= f) s R :=
  Along.fallible h

variable {f : IntentRuntime → IntentRuntime} {Q : Unit → Local → Prop}

theorem modify (h : Step c timed s.abs ({ s with rt := f s.rt } : Local).abs)
    (hQ : Q () { s with rt := f s.rt }) : Spec c timed (modifyRt f) s Q := by
  exact ⟨.single h, hQ⟩

theorem tweak (h : (f s.rt).core = s.rt.core) (hQ : Q () { s with rt := f s.rt }) :
    Spec c timed (modifyRt f) s Q := by
  refine ⟨?_, hQ⟩
  have habs : ({ s with rt := f s.rt } : Local).abs = s.abs := by
    simp only [Local.abs, h]
  rw [Moved, habs]

end Spec

/-! ## Effects -/

section Effects

variable {c : ExecConfig} {timed : Bool} {s : Local}

/-- The runtime is untouched and nothing new was heard about any order. -/
structure Calm (s s' : Local) : Prop where
  rt : s'.rt = s.rt
  answers : ∀ orderId, lastAnswer s'.w.trace orderId = lastAnswer s.w.trace orderId

theorem Calm.refl : Calm s s := ⟨rfl, fun _ => rfl⟩

theorem Calm.trans {s' s'' : Local} (h : Calm s s') (h' : Calm s' s'') : Calm s s'' :=
  ⟨h'.rt.trans h.rt, fun orderId => (h'.answers orderId).trans (h.answers orderId)⟩

variable {call : Call} {w' : World} {e : Event}

theorem abs_of_heard (h : s.w.Heard call e w') : ({ s with w := w' } : Local).abs = s.abs.hear e := by
  simp only [Local.abs, Abs.hear, h.trace, h.journal, h.reading]

theorem abs_of_appended {record : Record}
    (h : s.w.Appended record e w') : ({ s with w := w' } : Local).abs = s.abs.log e record := by
  simp only [Local.abs, Abs.log, h.trace, h.journal, h.reading]

theorem reach_of_heard (h : s.w.Heard call e w')
    (hq : call.quiet = true) : Reach c timed s.abs ({ s with w := w' } : Local).abs := by
  rw [abs_of_heard h]; exact .single (.heard (by rw [h.call]; exact hq) h.dated)

theorem calm_of_heard (h : s.w.Heard call e w') (hm : call.mute) : Calm s { s with w := w' } := by
  refine ⟨rfl, fun orderId => ?_⟩
  rw [h.trace]; exact lastAnswer_cons (by rw [h.call]; exact hm.2 orderId)

theorem wp_mute_command (hm : call.mute) :
    wp (liftWorld (command call)) (fun _ s' => Reach c timed s.abs s'.abs ∧ Calm s s')
      (fun _ s' => Reach c timed s.abs s'.abs ∧ Calm s s') s := by
  rw [liftWorld, wp_zoom]
  refine wp_command ⟨.refl, .refl⟩ (fun e w' hw _ => ?_) (fun e w' exc hw _ => ?_)
  all_goals exact ⟨reach_of_heard hw hm.1, calm_of_heard hw hm⟩

theorem spec_audit (kind : AuditKind) : Spec c timed (auditIntent kind) s (fun _ s' => Calm s s') :=
  wp_mono (wp_mute_command ⟨rfl, fun _ => rfl⟩) (fun _ _ h => h) (fun _ _ h => h.1)

theorem spec_clockOffsetMarginMs : Spec c timed (liftWorld clockOffsetMarginMs) s (fun _ s' => Calm s s') := by
  rw [Spec, Along, liftWorld, wp_zoom]
  refine wp_readAttr .refl fun r e w' hw => ?_
  exact ⟨reach_of_heard hw rfl, calm_of_heard hw ⟨rfl, fun _ => rfl⟩⟩

theorem spec_utcNow : Spec c timed (liftWorld utcNow) s (fun _ s' => Calm s s' ∧ s'.w.journal = s.w.journal) := by
  rw [Spec, Along, liftWorld, wp_zoom]
  refine wp_utcNow .refl fun e w' hw => ?_
  exact ⟨reach_of_heard hw rfl, calm_of_heard hw ⟨rfl, fun _ => rfl⟩, hw.journal⟩

theorem spec_appendRecord {record : Record}
    (h : ∀ e : Event, e.Logs record → Reach c timed s.abs (s.abs.log e record)) :
    Spec c timed (liftWorld (appendRecord record)) s (fun _ s' => Calm s s' ∧
      s'.w.journal = s.w.journal.apply record ∧
      ∃ e, e.Logs record ∧ s'.w.trace = e :: s.w.trace) := by
  rw [Spec, Along, liftWorld, wp_zoom]
  refine wp_appendRecord .refl (fun e w' hw => ?_) (fun e w' exc hw hr => ?_)
  · refine ⟨?_, ⟨rfl, fun orderId => ?_⟩, hw.journal, e, ⟨hw.call, hw.reply⟩, hw.trace⟩
    · rw [Moved, abs_of_appended hw]; exact h e ⟨hw.call, hw.reply⟩
    · rw [hw.trace]; exact lastAnswer_cons (by rw [hw.call]; rfl)
  · rw [Moved, abs_of_heard hw]; exact .single (.failedAppend hw.call (by simp [hr]))

theorem spec_ensureV2Schema : Spec c timed (liftWorld ensureV2Schema) s (fun _ s' => Calm s s' ∧
    SameJournal s.w.journal s'.w.journal) := by
  by_cases hschema : s.w.journal.hasSchema = true
  · have hrun : liftWorld ensureV2Schema s = (.ok (), s) := by
      simp [liftWorld, Proc.zoom, ensureV2Schema, Proc.get, bind, pure, hschema]
    rw [Spec, Along, wp, hrun]; exact ⟨.refl, .refl, .inl rfl⟩
  · have hrun : liftWorld ensureV2Schema s = liftWorld (appendRecord .schema) s := by
      simp [liftWorld, Proc.zoom, ensureV2Schema, Proc.get, bind, hschema]
    rw [Spec, Along, wp, hrun]
    have happend : Spec c timed (liftWorld (appendRecord .schema)) s _ :=
      spec_appendRecord fun e he => .single (.schema he)
    exact Spec.mono happend fun _ s' _ h => ⟨h.1, .inr h.2.1⟩

theorem liftWorld_bind {α β : Type} (x : WorldM α) (f : α → WorldM β) :
    liftWorld (x >>= f) = (liftWorld x >>= fun r => liftWorld (f r)) := by
  funext s
  simp only [liftWorld, Proc.zoom, bind]
  rcases x s.w with ⟨r, w⟩
  cases r <;> rfl

theorem liftWorld_get {β : Type} (f : World → WorldM β) :
    liftWorld (Proc.get >>= f) s = liftWorld (f s.w) s := rfl

theorem liftWorld_ofExcept {α : Type} (r : Except Exc α) :
    liftWorld (Proc.ofExcept r) = (Proc.ofExcept r : IntentM α) := rfl

theorem TerminalCause.later {s' : Local} {t : JournalTerminal} (h : TerminalCause c s.abs t)
    (hcalm : Calm s s') (hreach : Reach c timed s.abs s'.abs) : TerminalCause c s'.abs t := by
  have hcore : s'.abs.core = s.abs.core := by
    simp only [Local.abs, hcalm.rt]
  have hlast : lastAnswer s'.abs.trace t.clientOrderId = lastAnswer s.abs.trace t.clientOrderId := hcalm.answers _
  cases h with
  | settled active live settles last report =>
    refine .settled (hcore ▸ active) (hcore ▸ live) ?_ (hlast.trans last) report
    rcases settles with ⟨e, hmem, x, hx⟩ | h
    · exact .inl ⟨e, hreach.trace_suffix.subset hmem, x, hcore ▸ hx⟩
    · exact .inr (hcore ▸ h)
  | simulated active paper placed => exact .simulated (hcore ▸ active) (hcore ▸ paper) placed
  | missed unresolved status last late =>
    exact .missed (hcore ▸ unresolved) status (hlast.trans last) ⟨late.1, hcore ▸ late.2⟩
  | refused last post owner reply classed =>
    exact .refused (hlast.trans last) post (hcore ▸ owner) reply classed

theorem spec_recordTerminal {orderId status : String}
    (h : ∀ t : JournalTerminal, t.clientOrderId = orderId → t.status = status →
      TerminalCause c s.abs t) :
    Spec c timed (liftWorld (recordTerminal orderId status)) s (fun _ s' => Calm s s') := by
  rw [recordTerminal, liftWorld_bind]
  refine Spec.bind spec_utcNow fun recordedAt s₁ hreach₁ hcalm₁ => ?_
  rw [liftWorld_bind]
  refine Spec.bind spec_ensureV2Schema fun _ s₂ hreach₂ hcalm₂ => ?_
  have hcalm := hcalm₁.1.trans hcalm₂.1
  refine Spec.mono (spec_appendRecord fun e he => .single (.terminal ?_ he))
    fun _ s₃ _ h₃ => hcalm.trans h₃.1
  exact (h _ rfl rfl).later hcalm (hreach₁.trans hreach₂)

theorem spec_recordSubmit {orderId : String} {q : ℚ} {attemptSeq : ℤ}
    (hid : buildClientOrderId c.sha256 s.rt.intent.clientOrderPrefix s.rt.intent.symbol
      s.rt.intent.legIndex 0 s.w.journal.nextSubmitSeq = .ok orderId) :
    Spec c timed (liftWorld (recordSubmit orderId s.rt.intent.symbol s.w.journal.nextSubmitSeq
      attemptSeq s.rt.intent.side q s.rt.intent.reduceOnly s.rt.intent.legIndex)) s
      (fun _ s' => Calm s s' ∧ 0 < q ∧ ∃ e sub, e.Logs (.submit sub) ∧ sub.clientOrderId = orderId ∧
        sub.quantity = some q ∧ s'.w.trace.head? = some e) := by
  rw [recordSubmit, Spec, Along, wp, liftWorld_get, liftWorld_bind]
  refine Spec.fallible fun submit hsubmit => ?_
  obtain ⟨hpos, hsubmit⟩ := Journal.newSubmit_eq_ok hsubmit
  rw [liftWorld_bind]
  refine Spec.bind spec_utcNow fun recordedAt s₁ hreach₁ hcalm₁ => ?_
  rw [liftWorld_bind]
  refine Spec.bind spec_ensureV2Schema fun _ s₂ hreach₂ hcalm₂ => ?_
  have hcalm := hcalm₁.1.trans hcalm₂.1
  have hseq : s₂.w.journal.nextSubmitSeq = s.w.journal.nextSubmitSeq := by
    rw [hcalm₂.2.nextSubmitSeq_eq, hcalm₁.2]
  have hmove : ∀ e : Event, e.Logs (.submit (submit recordedAt)) →
      Reach c timed s₂.abs (s₂.abs.log e (.submit (submit recordedAt))) := by
    intro e he
    refine .single (.submit he ?_ ?_ (by rw [hsubmit]) hpos (by rw [hsubmit]))
    · rw [hsubmit]; exact congrArg Nat.cast hseq.symm
    · rw [hsubmit]; simp only [Local.abs, hcalm.rt, hseq]; exact hid
  rw [liftWorld_bind]
  refine Spec.bind (spec_appendRecord hmove) fun _ s₃ hreach₃ h₃ => ?_
  obtain ⟨hcalm₃, -, e, he, htrace⟩ := h₃
  refine Spec.ret ⟨hcalm.trans hcalm₃, hpos, e, submit recordedAt, he, by rw [hsubmit], by rw [hsubmit],
    by rw [htrace]; rfl⟩

end Effects

/-! ## Fills and releases -/

section Fills

variable {c : ExecConfig} {timed : Bool} {s : Local} {orderId : String}

structure Steady (s s' : Local) : Prop where
  core : s'.rt.core = s.rt.core
  answers : ∀ orderId, lastAnswer s'.w.trace orderId = lastAnswer s.w.trace orderId

theorem Calm.steady {s s' : Local} (h : Calm s s') : Steady s s' := ⟨by rw [h.rt], h.answers⟩

theorem spec_journalTerminal {orderId : Option String} {status : String}
    (h : ∀ t : JournalTerminal, orderId = some t.clientOrderId → t.status = status →
      TerminalCause c s.abs t) :
    Spec c timed (journalTerminal orderId status) s (fun _ s' => Steady s s') := by
  refine Spec.readRt ?_
  cases orderId with
  | none => exact Spec.ret ⟨rfl, fun _ => rfl⟩
  | some id =>
    refine Spec.branch (fun _ => Spec.ret ⟨rfl, fun _ => rfl⟩) fun _ => ?_
    refine Spec.bind (Spec.tweak (Q := fun _ s' => s'.rt.core = s.rt.core ∧ s'.w = s.w ∧
      s'.closeLeg = s.closeLeg) rfl ⟨rfl, rfl, rfl⟩) fun _ s₁ _ h₁ => ?_
    have habs : s₁.abs = s.abs := by
      simp only [Local.abs, h₁.1, h₁.2.1, h₁.2.2]
    refine Spec.mono (spec_recordTerminal fun t hid hstatus => ?_) fun _ s₂ _ h₂ => ?_
    · rw [habs]; exact h t (by rw [hid]) hstatus
    · refine ⟨by rw [h₂.rt, h₁.1], fun orderId => ?_⟩
      rw [h₂.answers, h₁.2.1]

def LastReported (s : Local) (orderId : String) : Prop :=
  ∃ e payload, lastAnswer s.w.trace orderId = some e ∧ e.reply = .order payload

theorem spec_releaseActive {status : String} (hactive : s.rt.activeId = some orderId)
    (hwhy : (s.rt.paperActive = true ∧ status ≠ "NOT_PLACED" ∧ status ≠ orderNotFoundStatus) ∨
      (s.rt.paperActive = false ∧ s.abs.Settles orderId ∧ LastReported s orderId)) :
    Spec c timed (releaseActive status) s (fun _ s' => s'.rt.core = s.rt.core.release) := by
  refine Spec.readRt ?_
  have hcause : ∀ t : JournalTerminal, s.rt.activeId = some t.clientOrderId → t.status = status →
      TerminalCause c s.abs t := by
    intro t ht hstatus
    rcases hwhy with ⟨hpaper, hplaced⟩ | ⟨hlive, hsettles, e, payload, hlast, hreply⟩
    · exact .simulated ht hpaper (hstatus ▸ hplaced)
    · obtain rfl : orderId = t.clientOrderId := Option.some.inj (hactive.symm.trans ht)
      exact .settled ht hlive hsettles hlast hreply
  refine Spec.bind (spec_journalTerminal hcause) fun _ s₁ hreach hsteady => ?_
  have hmove : Step c timed s₁.abs
      ({ s₁ with rt := { s₁.rt with activeId := none, activePrice := 0, activePostQty := 0,
                                    reportedExecuted := 0, paperActive := false } } : Local).abs := by
    have hcore : s₁.abs.core = s.rt.core := hsteady.core
    have hactive₁ : s₁.abs.core.activeId = some orderId := by rw [hcore]; exact hactive
    refine Step.release (a := s₁.abs) hactive₁ ?_
    · rcases hwhy with ⟨hpaper, -⟩ | ⟨-, hsettles, -⟩
      · exact .inl (by rw [hcore]; exact hpaper)
      · right
        rcases hsettles with ⟨e, hmem, x, hx⟩ | h
        · exact .inl ⟨e, hreach.trace_suffix.subset hmem, x, by rw [hcore]; exact hx⟩
        · exact .inr (by rw [hcore]; exact h)
  refine Spec.modify hmove ?_
  rw [← hsteady.core]; rfl

theorem core_book (rt : IntentRuntime) (quantity price : ℚ) (liquidity : Liquidity) (cumulative now : ℚ) :
    (rt.book c quantity price liquidity cumulative now).core = rt.core.book quantity cumulative := rfl

theorem wp_recordFill {draft : FillDraft} {Q : JournalFill → Local → Prop} {E : Exc → Local → Prop}
    (ok : ∀ s₁ f e w', Reach c timed s.abs s₁.abs → Calm s s₁ →
      SameJournal s.w.journal s₁.w.journal → s.w.journal.newFill draft = .ok f →
      s₁.w.Appended (.fill f) e w' → Q f { s₁ with w := w' })
    (raised : ∀ exc s', Reach c timed s.abs s'.abs → E exc s') :
    wp (liftWorld (recordFill draft)) Q E s := by
  rw [recordFill, wp, liftWorld_get, ← wp, liftWorld_bind, liftWorld_ofExcept, wp_bind, wp_ofExcept]
  refine ⟨fun f hf => ?_, fun _ _ => raised _ _ .refl⟩
  rw [liftWorld_bind, wp_bind]
  have hschema : Spec c timed (liftWorld ensureV2Schema) s _ := spec_ensureV2Schema
  refine wp_mono hschema (fun _ s₁ h₁ => ?_) (fun _ _ h => raised _ _ h)
  obtain ⟨hreach, hcalm, hsame⟩ := h₁
  rw [liftWorld_bind, wp_bind, liftWorld, wp_zoom]
  refine wp_appendRecord (raised _ _ hreach) (fun e w' hw => ?_) (fun e w' exc hw hr => ?_)
  · exact ok s₁ f e w' hreach hcalm hsame hf hw
  · refine raised _ _ (hreach.tail ?_)
    rw [abs_of_heard hw]; exact .failedAppend hw.call (by simp [hr])

theorem spec_applyFill {quantity price cumulative now : ℚ} {liquidity : Liquidity} {simulated : Bool}
    (hmove : ∀ (a : Abs) (e : Event) (f : JournalFill), a.core = s.rt.core → s.w.trace <:+ a.trace →
      f.toFillDraft = executionDraft c s.rt quantity price liquidity orderId cumulative simulated now →
      f.fillSeq = a.journal.nextFillSeq →
      (simulated = false → a.journal.observedQty orderId < cumulative) → 0 < quantity →
      e.Logs (.fill f) →
      Step c timed a ((a.log e (.fill f)).withCore (a.core.book quantity cumulative))) :
    Spec c timed (applyFill c quantity price liquidity orderId cumulative simulated now) s
      (fun _ s' => s'.rt.core = s.rt.core.book quantity cumulative ∧
        ∀ id, lastAnswer s'.w.trace id = lastAnswer s.w.trace id) := by
  refine Spec.branch (fun _ => Spec.raise) fun hpos => ?_
  refine Spec.readRt ?_
  rw [Spec, Along, wp_bind]
  refine wp_recordFill (fun s₁ f e w' hreach hcalm hsame hf hw => ?_) (fun _ _ h => h)
  obtain ⟨hf, hqty, hfresh⟩ := Journal.newFill_eq_ok hf
  have hstep : Step c timed s₁.abs ((s₁.abs.log e (.fill f)).withCore
      (s₁.abs.core.book quantity cumulative)) := by
    refine hmove s₁.abs e f (by simp only [Local.abs, hcalm.rt]) hreach.trace_suffix (by rw [hf]) ?_
      ?_ hqty ⟨hw.call, hw.reply⟩
    · rw [hf]; exact congrArg Nat.cast hsame.nextFillSeq_eq.symm
    · intro hreal
      have := hfresh cumulative orderId (by simp [executionDraft, hreal]) rfl
      rwa [Local.abs, hsame.observedQty_eq]
  -- the append and the assignment are one move; the audit row follows it
  set s₂ : Local := { s₁ with rt := s₁.rt.book c quantity price liquidity cumulative now, w := w' }
    with hs₂
  have hreach₂ : Reach c timed s.abs s₂.abs := by
    refine hreach.tail ?_
    have habs : s₂.abs = (s₁.abs.log e (.fill f)).withCore (s₁.abs.core.book quantity cumulative) := by
      simp only [hs₂, Local.abs, Abs.log, Abs.withCore, hw.trace, hw.journal, hw.reading]; rfl
    rw [habs]; exact hstep
  have haudit : Spec c timed (auditIntent .fill) s₂ _ := spec_audit .fill
  refine wp_mono haudit (fun _ s₃ h₃ => ⟨hreach₂.trans h₃.1, ?_, fun id => ?_⟩)
    (fun _ _ h => hreach₂.trans h)
  · rw [h₃.2.rt, core_book, hcalm.rt]
  · rw [h₃.2.answers, ← hcalm.answers, hw.trace]; exact lastAnswer_cons (by rw [hw.call]; rfl)

def Booked (k k' : Core) : Prop :=
  ∃ filled reported, k' = { k with filledTotal := filled, reportedExecuted := reported }

theorem Booked.refl (k : Core) : Booked k k := ⟨_, _, rfl⟩

theorem Booked.of_book (k : Core) (quantity cumulative : ℚ) : Booked k (k.book quantity cumulative) :=
  ⟨_, _, rfl⟩

variable {symbol : String} {now : ℚ}

theorem spec_syncVenueOrder {payload : OrderPayload} {e : Event}
    (hactive : s.rt.activeId = some orderId) (hlive : s.rt.paperActive = false)
    (hmem : e ∈ s.w.trace) (hcall : e.call = .queryOrder symbol orderId) (hreply : e.reply = .order payload) :
    Spec c timed (syncVenueOrder c now payload) s (fun _ s' => Booked s.rt.core s'.rt.core ∧
      (∀ id, lastAnswer s'.w.trace id = lastAnswer s.w.trace id) ∧
      ∃ x, readExecuted payload.executedQty = .ok x ∧ x ≤ s'.rt.reportedExecuted) := by
  refine Spec.readState ?_
  simp only [hactive, hlive]
  refine Spec.bind spec_clockOffsetMarginMs fun margin s₁ hreach₁ hcalm₁ => ?_
  refine Spec.fallible fun _ _ => ?_
  refine Spec.fallible fun x hx => ?_
  refine Spec.branch (fun _ => Spec.raise) fun hbound => ?_
  refine Spec.branch (fun hnew => ?_) fun hnew => ?_
  · refine Spec.bind (spec_applyFill fun a ev f hcore htrace hdraft hseq hfresh hpos hlogs => ?_)
      fun _ s₂ _ h₂ => Spec.ret ⟨?_, fun id => ?_, x, hx, ?_⟩
    · rw [hcalm₁.rt] at hcore hdraft
      have hr : s.rt.reportedExecuted = a.core.reportedExecuted := by rw [hcore]; rfl
      have hmem₁ : e ∈ a.trace := htrace.subset (hreach₁.trace_suffix.subset hmem)
      rw [hr]
      refine Step.bookFill (f := f) (by rw [hcore]; exact hactive) (by rw [hcore]; exact hlive) hmem₁
        ⟨symbol, payload, hcall, hreply, hx⟩ (by rw [← hr]; exact hnew)
        (by rw [hcore]; exact not_lt.mp hbound) hlogs (by rw [hdraft]; rfl)
        (by rw [hdraft, ← hr]; rfl) (by rw [hdraft]; rfl) (by rw [hdraft]; rfl) hseq (hfresh rfl)
        (by rw [hdraft, hcore]; rfl)
    · rw [h₂.1, hcalm₁.rt]; exact .of_book _ _ _
    · rw [h₂.2, hcalm₁.answers]
    · have := congrArg Core.reportedExecuted h₂.1; exact le_of_eq this.symm
  · refine Spec.ret ⟨?_, hcalm₁.answers, x, hx, ?_⟩
    · rw [hcalm₁.rt]; exact .refl _
    · rw [hcalm₁.rt]; exact not_lt.mp hnew

theorem spec_queryOrder :
    Spec c timed (liftWorld (queryOrder symbol orderId)) s (fun payload s' => s'.rt = s.rt ∧
      ∃ e, s'.w.trace = e :: s.w.trace ∧ e.call = .queryOrder symbol orderId ∧
        e.reply = .order payload) := by
  rw [Spec, Along, liftWorld, wp_zoom]
  refine wp_request .refl (fun payload e w' hw hr => ?_) (fun e w' exc hw _ => ?_) (fun e w' hw => ?_)
  · refine ⟨reach_of_heard hw rfl, rfl, e, hw.trace, hw.call, ?_⟩
    cases hrep : e.reply <;> simp_all [Reply.asOrder]
  all_goals exact reach_of_heard hw rfl

theorem isAbout_queryOrder {e : Event} (h : e.call = .queryOrder symbol orderId) :
    e.call.isAbout orderId = true := by
  rw [h]; exact decide_eq_true rfl

theorem spec_querySyncVenueOrder (hactive : s.rt.activeId = some orderId) (hlive : s.rt.paperActive = false) :
    Spec c timed (querySyncVenueOrder c now) s (fun _ s' => Booked s.rt.core s'.rt.core ∧
      LastReported s' orderId) := by
  refine Spec.readRt ?_
  simp only [hactive]
  refine Spec.bind spec_queryOrder fun payload s₁ _ h₁ => ?_
  obtain ⟨hrt, e, htrace, hcall, hreply⟩ := h₁
  refine Spec.mono (spec_syncVenueOrder (by rw [hrt]; exact hactive) (by rw [hrt]; exact hlive)
    (by rw [htrace]; exact List.mem_cons_self) hcall hreply) fun _ s₂ _ h₂ => ⟨hrt ▸ h₂.1, ?_⟩
  refine ⟨e, payload, ?_, hreply⟩
  rw [h₂.2.1, htrace]; exact lastAnswer_cons_self (isAbout_queryOrder hcall)

theorem wp_cancelOrder :
    wp (liftWorld (Proc.tryCatch (cancelOrder symbol orderId) tolerateCancelError))
      (fun _ s' => Reach c timed s.abs s'.abs ∧ s'.rt = s.rt)
      (fun _ s' => Reach c timed s.abs s'.abs) s := by
  rw [liftWorld, wp_zoom, wp_tryCatch]
  refine wp_command .refl (fun e w' hw _ => ⟨reach_of_heard hw rfl, rfl⟩) fun e w' exc hw _ => ?_
  have hreach : Reach c timed s.abs ({ s with w := w' } : Local).abs := reach_of_heard hw rfl
  unfold tolerateCancelError
  split
  · rw [wp_ite]; exact ⟨fun _ => ⟨hreach, rfl⟩, fun _ => hreach⟩
  · exact ⟨hreach, rfl⟩
  · exact hreach

theorem spec_queryIfKnown :
    Spec c timed (liftWorld (queryIfKnown symbol orderId)) s (fun found s' => s'.rt = s.rt ∧
      ∃ e, s'.w.trace = e :: s.w.trace ∧ e.call = .queryOrder symbol orderId ∧
        e.reading = s.w.reading ∧ s'.w.reading = s.w.reading ∧
        (∀ payload, found = some payload → e.reply = .order payload) ∧
        (found = none → e.Misses orderId)) := by
  rw [Spec, Along, liftWorld, wp_zoom, queryIfKnown, wp_tryCatch, wp_map]
  refine wp_request .refl (fun payload e w' hw hr => ?_) (fun e w' exc hw hr => ?_)
    (fun e w' hw => reach_of_heard hw rfl)
  · refine ⟨reach_of_heard hw rfl, rfl, e, hw.trace, hw.call, hw.dated, hw.reading,
      fun p hp => ?_, by simp⟩
    cases hrep : e.reply <;> simp_all [Reply.asOrder]
  · have hreach : Reach c timed s.abs ({ s with w := w' } : Local).abs := reach_of_heard hw rfl
    split
    · next code http =>
      rw [wp_ite]
      refine ⟨fun hcode => ⟨hreach, rfl, e, hw.trace, hw.call, hw.dated, hw.reading, by simp,
        fun _ => ⟨symbol, http, hw.call, ?_⟩⟩, fun _ => hreach⟩
      rw [hr, hcode]
    · exact hreach

theorem spec_cancelAndConfirm :
    Spec c timed (liftWorld (cancelAndConfirm symbol orderId)) s (fun confirmation s' =>
      s'.rt = s.rt ∧ ∀ payload, confirmation.payload = some payload →
        confirmation.closed = !isOpenStatus payload.status ∧ payload.status ≠ "" ∧
        ∃ e, s'.w.trace.head? = some e ∧ e.call = .queryOrder symbol orderId ∧
          e.reply = .order payload) := by
  rw [cancelAndConfirm, liftWorld_bind]
  refine Spec.bind (Q := fun _ s' => s'.rt = s.rt) wp_cancelOrder fun _ s₁ _ hrt₁ => ?_
  rw [liftWorld_bind]
  refine Spec.bind spec_queryIfKnown fun found s₂ _ h₂ => ?_
  obtain ⟨hrt₂, e, htrace, hcall, -, -, hfound, -⟩ := h₂
  cases found with
  | none => exact Spec.ret ⟨hrt₂.trans hrt₁, nofun⟩
  | some payload =>
    by_cases hstatus : payload.status = ""
    · simp only [if_pos hstatus]; exact Spec.raise
    · simp only [if_neg hstatus]
      refine Spec.ret ⟨hrt₂.trans hrt₁, fun p hp => ?_⟩
      cases hp; exact ⟨rfl, hstatus, e, by rw [htrace]; rfl, hcall, hfound payload rfl⟩

theorem spec_settleCancelled (hactive : s.rt.activeId = some orderId) (hlive : s.rt.paperActive = false) :
    Spec c timed (settleCancelled c now orderId) s (fun _ s' => Booked s.rt.core s'.rt.core ∧
      LastReported s' orderId ∧
      ∃ e ∈ s'.w.trace, ∃ x, e.ReportsClosed orderId x ∧ x ≤ s'.rt.reportedExecuted) := by
  refine Spec.readRt ?_
  refine Spec.bind spec_cancelAndConfirm fun confirmation s₁ _ h₁ => ?_
  obtain ⟨hrt, hconf⟩ := h₁
  cases hpayload : confirmation.payload with
  | none =>
    exact Spec.bind (spec_audit _) fun _ _ _ _ => Spec.raise
  | some payload =>
    obtain ⟨hclosed, hstatus, e, hhead, hcall, hreply⟩ := hconf payload hpayload
    have hmem : e ∈ s₁.w.trace := List.mem_of_mem_head? hhead
    refine Spec.bind (spec_syncVenueOrder (by rw [hrt]; exact hactive) (by rw [hrt]; exact hlive)
      hmem hcall hreply) fun _ s₂ hreach₂ h₂ => ?_
    obtain ⟨hbooked, hanswers, x, hx, hle⟩ := h₂
    refine Spec.branch (fun hc => ?_) fun _ =>
      Spec.bind (spec_audit _) fun _ _ _ _ => Spec.raise
    refine Spec.ret ⟨hrt ▸ hbooked, ⟨e, payload, ?_, hreply⟩, e, hreach₂.trace_suffix.subset hmem, x, ?_, hle⟩
    · rw [hanswers]
      cases htrace : s₁.w.trace with
      | nil => rw [htrace] at hhead; cases hhead
      | cons e' rest =>
        rw [htrace] at hhead; cases hhead; exact lastAnswer_cons_self (isAbout_queryOrder hcall)
    · refine ⟨_, payload, hcall, hreply, hx, hstatus, ?_⟩
      rw [hclosed] at hc; simpa using hc

theorem Booked.release_eq {k k' : Core} (h : Booked k k') :
    ∃ filled, k'.release = { k.release with filledTotal := filled } := by
  obtain ⟨filled, reported, rfl⟩ := h; exact ⟨filled, rfl⟩

/-- After a release only the booked total may differ from the core let go. -/
def Freed (k k' : Core) : Prop := ∃ filled, k' = { k.release with filledTotal := filled }

theorem spec_cancelAndSettle (hactive : s.rt.activeId = some orderId) :
    Spec c timed (cancelAndSettle c now) s (fun _ s' => Freed s.rt.core s'.rt.core) := by
  refine Spec.readRt ?_
  simp only [hactive]
  refine Spec.bind (spec_audit _) fun _ s₁ _ hcalm₁ => ?_
  have hactive₁ : s₁.rt.activeId = some orderId := by rw [hcalm₁.rt]; exact hactive
  refine Spec.branch (fun hpaper => ?_) fun hpaper => ?_
  · refine Spec.mono (spec_releaseActive hactive₁
      (.inl ⟨by rw [hcalm₁.rt]; exact hpaper, by decide⟩))
      fun _ s₂ _ h₂ => ⟨s.rt.filledTotal, ?_⟩
    rw [h₂, hcalm₁.rt]; rfl
  · have hlive : s₁.rt.paperActive = false := by
      rw [hcalm₁.rt]; exact Bool.eq_false_of_not_eq_true hpaper
    refine Spec.bind (spec_settleCancelled hactive₁ hlive) fun status s₂ _ h₂ => ?_
    obtain ⟨hbooked, hlast, hclosed⟩ := h₂
    have hkeep : s₂.rt.activeId = some orderId ∧ s₂.rt.paperActive = false := by
      obtain ⟨filled, reported, hcore⟩ := hbooked
      exact ⟨(congrArg Core.activeId hcore).trans hactive₁, (congrArg Core.paperActive hcore).trans hlive⟩
    refine Spec.mono (spec_releaseActive hkeep.1 (.inr ⟨hkeep.2, .inl hclosed, hlast⟩))
      fun _ s₃ _ h₃ => ?_
    obtain ⟨filled, hfilled⟩ := hbooked.release_eq; exact ⟨filled, by rw [h₃, hfilled, hcalm₁.rt]⟩

end Fills

/-! ## Simulated fills -/

section Paper

variable {c : ExecConfig} {timed : Bool} {s : Local}

def Idle {α : Type} (c : ExecConfig) (timed : Bool) (x : IntentM α) (s : Local) (P : α → Prop) : Prop :=
  wp x (fun r s' => (Reach c timed s.abs s'.abs ∧ Calm s s') ∧ P r)
    (fun _ s' => Reach c timed s.abs s'.abs ∧ Calm s s') s

variable {α : Type} {P : α → Prop}

theorem Idle.spec {x : IntentM α} (h : Idle c timed x s P) : Spec c timed x s (fun r s' => Calm s s' ∧ P r) :=
  wp_mono h (fun _ _ h => ⟨h.1.1, h.1.2, h.2⟩) (fun _ _ h => h.1)

theorem Idle.ret {r : α} (h : P r) : Idle c timed (pure r) s P :=
  ⟨⟨.refl, .refl⟩, h⟩

theorem Idle.bind {α β : Type} {x : IntentM α} {f : α → IntentM β} {P : α → Prop} {R : β → Prop}
    (h : Idle c timed x s P) (hf : ∀ r s', P r → Idle c timed (f r) s' R) : Idle c timed (x >>= f) s R := by
  rw [Idle, wp_bind]
  refine wp_mono h (fun r s' hr => ?_) (fun _ _ h => h)
  exact wp_mono (hf r s' hr.2)
    (fun _ _ h => ⟨⟨hr.1.1.trans h.1.1, hr.1.2.trans h.1.2⟩, h.2⟩)
    (fun _ _ h => ⟨hr.1.1.trans h.1, hr.1.2.trans h.2⟩)

theorem Idle.branch {p : Prop} [Decidable p] {x y : IntentM α}
    (ht : Idle c timed x s P) (hf : Idle c timed y s P) : Idle c timed (if p then x else y) s P := by
  by_cases hp : p
  · rw [if_pos hp]; exact ht
  · rw [if_neg hp]; exact hf

theorem Idle.readRt {β : Type} {f : IntentRuntime → IntentM β} {R : β → Prop}
    (h : Idle c timed (f s.rt) s R) : Idle c timed (getRt >>= f) s R := by
  exact h

theorem Idle.orDefault {x : IntentM α} {dflt : α}
    (h : Idle c timed x s P) (hd : P dflt) : Idle c timed (orDefault x dflt) s P := by
  rw [Idle, Live.orDefault, wp_tryCatch]
  refine wp_mono h (fun _ _ h => h) (fun exc s' hr => ?_)
  rw [wp_ite]; exact ⟨fun _ => ⟨hr, hd⟩, fun _ => hr⟩

theorem Idle.request {read : Reply → Option α} {call : Call} (hm : call.mute) :
    Idle c timed (liftWorld (request read call)) s (fun _ => True) := by
  rw [Idle, liftWorld, wp_zoom]
  refine wp_request ⟨.refl, .refl⟩ (fun r e w' hw _ => ⟨?_, trivial⟩) (fun e w' exc hw _ => ?_)
    (fun e w' hw => ?_)
  all_goals exact ⟨reach_of_heard hw hm.1, calm_of_heard hw hm⟩

theorem idle_tapeLive {now : ℚ} : Idle c timed (tapeLive now) s (fun _ => True) :=
  Idle.readRt (Idle.orDefault (Idle.request ⟨rfl, fun _ => rfl⟩) trivial)

theorem idle_tapePrinted {now price : ℚ} : Idle c timed (tapePrinted now price) s (fun _ => True) := by
  refine Idle.readRt (Idle.orDefault (Idle.bind (Idle.request ⟨rfl, fun _ => rfl⟩) fun _ _ _ => ?_)
    trivial)
  exact Idle.ret trivial

variable {now price postQty : ℚ} {touch : ℚ × ℚ} {timeInForce : TimeInForce}

theorem idle_simulatePaperFill {useTape : Bool} :
    Idle c timed (simulatePaperFill useTape now touch timeInForce price postQty) s (fun r => r =
      0 ∨ r = postQty) := by
  refine Idle.readRt ?_
  cases timeInForce with
  | ioc => exact Idle.ret (.inr rfl)
  | gtx =>
    refine Idle.branch (Idle.ret (.inr rfl)) (Idle.branch ?_ (Idle.ret (.inl rfl)))
    refine Idle.bind idle_tapeLive fun live s₁ _ => Idle.branch ?_ (Idle.ret (.inl rfl))
    refine Idle.bind idle_tapePrinted fun printed s₂ _ => ?_
    exact Idle.branch (Idle.ret (.inr rfl)) (Idle.ret (.inl rfl))

theorem idle_notePaperTapeDegraded : Idle c timed notePaperTapeDegraded s (fun _ => True) := by
  rw [notePaperTapeDegraded, Idle, wp_bind, wp_get, wp_ite]
  refine ⟨fun _ => ⟨⟨.refl, .refl⟩, trivial⟩, fun _ => ?_⟩
  have haudit : ∀ s' : Local,
      Idle c timed (Live.orDefault (auditIntent .paperTapeDegraded) ()) s' (fun _ => True) := by
    intro s'
    refine Idle.orDefault ?_ trivial
    exact wp_mono (wp_mute_command ⟨rfl, fun _ => rfl⟩) (fun _ _ h => ⟨h, trivial⟩) (fun _ _ h => h)
  exact wp_mono (haudit _) (fun _ _ h => ⟨⟨h.1.1, h.1.2.rt, h.1.2.answers⟩, trivial⟩)
    (fun _ _ h => ⟨h.1, h.2.rt, h.2.answers⟩)

theorem idle_paperGtxFill : Idle c timed (paperGtxFill c now touch price postQty) s (fun r => r =
    0 ∨ r = postQty) := by
  refine Idle.branch (Idle.bind idle_tapeLive fun live s₁ _ => ?_) idle_simulatePaperFill
  refine Idle.branch idle_simulatePaperFill ?_
  exact Idle.bind idle_notePaperTapeDegraded fun _ _ _ => idle_simulatePaperFill

theorem idle_paperPostFill :
    Idle c timed (paperPostFill c now touch timeInForce price postQty) s (fun r => r = 0 ∨ r = postQty) := by
  cases timeInForce with
  | gtx => exact idle_paperGtxFill
  | ioc =>
    rw [paperPostFill]; exact idle_simulatePaperFill

theorem spec_applyPaperFill {quantity price now cumulative : ℚ} {liquidity : Liquidity}
    {orderId : String} (hactive : s.rt.activeId = some orderId) (hpaper : s.rt.paperActive = true)
    (hcum : cumulative = s.rt.reportedExecuted + quantity)
    (hwhole : s.rt.reportedExecuted + quantity = s.rt.activePostQty) :
    Spec c timed (applyFill c quantity price liquidity orderId cumulative true now) s
      (fun _ s' => s'.rt.core = s.rt.core.book quantity cumulative) := by
  refine Spec.mono (spec_applyFill fun a e f hcore htrace hdraft hseq _ hpos hlogs => ?_)
    fun _ _ _ h => h.1
  have hr : s.rt.reportedExecuted = a.core.reportedExecuted := by rw [hcore]; rfl
  rw [hcum, hr]
  exact Step.paperFill (by rw [hcore]; exact hactive) (by rw [hcore]; exact hpaper) hpos
    (by rw [hcore]; exact hwhole) hlogs (by rw [hdraft]; rfl) (by rw [hdraft]; rfl) hseq
    (by rw [hdraft]; rfl)

end Paper

/-! ## The gate and the unknown submissions -/

section Resolve

variable {c : ExecConfig} {timed : Bool} {s : Local} {orderId : String} {now : ℚ}

theorem spec_endIntent {status : OutcomeStatus} (hrunning : s.rt.terminalStatus = none)
    (hending : Ending s.abs status) :
    Spec c timed (endIntent status now) s (fun _ s' => s'.rt.unresolvedId = s.rt.unresolvedId ∧
      s'.rt.terminalStatus = some status) :=
  Spec.modify (Step.finish hrunning hending) ⟨rfl, rfl⟩

theorem spec_applyCloseGate :
    Spec c timed (applyCloseGate now) s (fun held s' =>
      (held = false → s' = s ∧ gateState s.closeLeg = .opened) ∧
      (gateState s.closeLeg = .blocked → s'.rt.terminalStatus = some .residual ∧
        s'.rt.blockReason = some .blockedByCloseLeg)) := by
  refine Spec.readState ?_
  cases hgate : gateState s.closeLeg with
  | opened => exact Spec.ret ⟨fun _ => ⟨rfl, rfl⟩, nofun⟩
  | wait =>
    refine Spec.branch (fun _ => Spec.ret ⟨nofun, nofun⟩) fun _ => ?_
    refine Spec.bind (Spec.tweak (Q := fun _ _ => True) rfl trivial) fun _ s₁ _ _ => ?_
    exact Spec.bind (spec_audit _) fun _ _ _ _ => Spec.ret ⟨nofun, nofun⟩
  | blocked =>
    refine Spec.bind (Spec.modify (Q := fun _ s' => s'.rt.terminalStatus = some .residual ∧
      s'.rt.blockReason = some .blockedByCloseLeg) (Step.block hgate) ⟨rfl, rfl⟩)
      fun _ s₁ _ h₁ => ?_
    refine Spec.bind (spec_audit _) fun _ s₂ _ h₂ => Spec.ret ⟨nofun, fun _ => ?_⟩
    rw [h₂.rt]; exact h₁

/-- The last word on the unknown submission is a miss heard at the reading `now`. -/
def MissedAt (s : Local) (orderId : String) (now : ℚ) : Prop :=
  ∃ e, lastAnswer s.w.trace orderId = some e ∧ e.Misses orderId ∧ e.reading = now

section

variable (hunresolved : s.rt.unresolvedId = some orderId)

include hunresolved

theorem spec_lookupUnknownSubmission :
    Spec c timed lookupUnknownSubmission s (fun found s' => s'.rt = s.rt ∧
      s'.w.reading = s.w.reading ∧ (found = false → MissedAt s' orderId s.w.reading)) := by
  refine Spec.readRt ?_
  simp only [hunresolved]
  refine Spec.bind spec_queryIfKnown fun found s₁ _ h₁ => ?_
  obtain ⟨hrt, e, htrace, hcall, hdated, hreading, -, hmiss⟩ := h₁
  refine Spec.ret ⟨hrt, hreading, fun hnone => ?_⟩
  have hnone : found = none := by simpa using hnone
  refine ⟨e, ?_, hmiss hnone, hdated⟩
  rw [htrace]; exact lastAnswer_cons_self (isAbout_queryOrder hcall)

theorem spec_adoptUnknownSubmission :
    Spec c timed (adoptUnknownSubmission now) s (fun _ s' => s'.rt.core = s.rt.core.adopt) := by
  refine Spec.bind (spec_audit _) fun _ s₁ _ hcalm => ?_
  have hunresolved₁ : s₁.abs.core.unresolvedId = some orderId := by
    simp only [Local.abs, hcalm.rt]; exact hunresolved
  refine Spec.modify (Step.adopt (a := s₁.abs) hunresolved₁) ?_
  rw [← hcalm.rt]; rfl

theorem spec_declareNotPlaced (hmissed : MissedAt s orderId now)
    (hlate : unknownOutcomeHorizonS c ≤ now - s.rt.unresolvedAt) :
    Spec c timed declareNotPlaced s
      (fun _ s' => s'.rt.core = { s.rt.core with unresolvedId := none }) := by
  obtain ⟨e, hlast, hmiss, hdated⟩ := hmissed
  have hlate : s.abs.MissedLate c orderId e := ⟨hmiss, by rw [hdated]; exact hlate⟩
  refine Spec.bind (spec_audit _) fun _ s₁ hreach₁ hcalm => ?_
  refine Spec.readRt ?_
  have hunresolved₁ : s₁.rt.unresolvedId = some orderId := by rw [hcalm.rt]; exact hunresolved
  have hcause : ∀ t : JournalTerminal, s₁.rt.unresolvedId = some t.clientOrderId →
      t.status = "NOT_PLACED" → TerminalCause c s₁.abs t := by
    intro t ht hstatus
    obtain rfl : orderId = t.clientOrderId := Option.some.inj (hunresolved₁.symm.trans ht)
    exact (TerminalCause.missed hunresolved hstatus hlast hlate).later hcalm hreach₁
  refine Spec.bind (spec_journalTerminal hcause) fun _ s₂ hreach₂ hsteady => ?_
  have hcore : s₂.rt.core = s.rt.core := by rw [hsteady.core, hcalm.rt]
  have hunresolved₂ : s₂.abs.core.unresolvedId = some orderId := by
    simp only [Local.abs, hcore]; exact hunresolved
  have hlast₂ : lastAnswer s₂.abs.trace orderId = some e :=
    (hsteady.answers orderId).trans ((hcalm.answers orderId).trans hlast)
  have hlate₂ : s₂.abs.MissedLate c orderId e := by
    refine ⟨hlate.1, ?_⟩; simp only [Local.abs, hcore]; exact hlate.2
  refine Spec.modify (Step.writeOff (a := s₂.abs) hunresolved₂ hlast₂ hlate₂) ?_
  rw [← hcore]; rfl

end

/-- The submission is no longer unknown, and the intent is still running if it was. -/
def Resolved (s s' : Local) : Prop :=
  s'.rt.unresolvedId = none ∧ s'.rt.terminalStatus = s.rt.terminalStatus

theorem Resolved.of_adopt {s' : Local} (h : s'.rt.core = s.rt.core.adopt) : Resolved s s' :=
  ⟨congrArg Core.unresolvedId h, congrArg Core.terminalStatus h⟩

theorem Resolved.of_writeOff {s' : Local}
    (h : s'.rt.core = { s.rt.core with unresolvedId := none }) : Resolved s s' :=
  ⟨congrArg Core.unresolvedId h, congrArg Core.terminalStatus h⟩

theorem spec_resolveUnknownSubmission (hunresolved : s.rt.unresolvedId = some orderId)
    (hreading : s.w.reading = now) :
    Spec c timed (resolveUnknownSubmission c now) s (fun resolved s' =>
      resolved = true → Resolved s s') := by
  have hlookup : Spec c timed lookupAtTick s (fun found s' => ∀ b, found = some b →
      s'.rt = s.rt ∧ (b = false → MissedAt s' orderId now)) := by
    refine Spec.catching (Spec.map ?_) fun exc s' _ => ?_
    · refine Spec.mono (spec_lookupUnknownSubmission hunresolved) fun b s' _ h b' hb' => ?_
      cases hb'; exact ⟨h.1, hreading ▸ h.2.2⟩
    · exact Spec.branch (fun _ => Spec.ret nofun) fun _ => Spec.raise
  refine Spec.bind hlookup fun found s₁ _ h₁ => ?_
  match found, h₁ with
  | none, _ => exact Spec.ret nofun
  | some true, h₁ =>
    obtain ⟨hrt, -⟩ := h₁ true rfl
    refine Spec.bind (spec_adoptUnknownSubmission (by rw [hrt]; exact hunresolved))
      fun _ s₂ _ h₂ => Spec.ret fun _ => ?_
    rw [hrt] at h₂; exact .of_adopt h₂
  | some false, h₁ =>
    obtain ⟨hrt, hmissed⟩ := h₁ false rfl
    refine Spec.bind (Spec.tweak (Q := fun _ s' => s'.rt.core = s₁.rt.core ∧ s'.w = s₁.w) rfl
      ⟨rfl, rfl⟩) fun _ s₂ _ h₂ => ?_
    have hcore : s₂.rt.core = s.rt.core := by rw [h₂.1, hrt]
    refine Spec.readRt ?_
    refine Spec.branch (fun _ => Spec.ret nofun) fun _ => ?_
    refine Spec.branch (fun _ => Spec.ret nofun) fun hlate => ?_
    have hmissed₂ : MissedAt s₂ orderId now := by
      rw [MissedAt, h₂.2]; exact hmissed rfl
    refine Spec.bind (spec_declareNotPlaced ((congrArg Core.unresolvedId hcore).trans hunresolved)
      hmissed₂ (not_lt.mp hlate)) fun _ s₃ _ h₃ => Spec.ret fun _ => ?_
    rw [hcore] at h₃; exact .of_writeOff h₃

end Resolve

/-! ## Polling -/

section Polling

variable {c : ExecConfig} {timed : Bool} {s : Local} {orderId : String} {now : ℚ} {touch : ℚ × ℚ}

/-- The order is still active, and (unless simulated) the venue just reported on it. -/
structure Polled (s s' : Local) (orderId : String) : Prop where
  active : s'.rt.activeId = some orderId
  status : s'.rt.terminalStatus = s.rt.terminalStatus
  known : s'.rt.paperActive = true ∨ (s'.rt.paperActive = false ∧ LastReported s' orderId)

theorem spec_pollPaper (hactive : s.rt.activeId = some orderId) (hpaper : s.rt.paperActive = true)
    (hrunning : s.rt.terminalStatus = none) :
    Spec c timed (pollPaper c touch now orderId) s (fun ended s' =>
      s'.rt.unresolvedId = s.rt.unresolvedId ∧ (ended = false → Polled s s' orderId)) := by
  refine Spec.readRt ?_
  refine Spec.branch (fun _ => ?_) fun _ => Spec.ret ⟨rfl, fun _ => ⟨hactive, rfl, .inl hpaper⟩⟩
  refine Spec.bind idle_paperGtxFill.spec fun fill s₁ _ h₁ => ?_
  obtain ⟨hcalm, hfill⟩ := h₁
  have hkeep : Polled s s₁ orderId :=
    ⟨by rw [hcalm.rt]; exact hactive, by rw [hcalm.rt], .inl (by rw [hcalm.rt]; exact hpaper)⟩
  refine Spec.branch (fun hpos => ?_) fun _ => Spec.ret ⟨by rw [hcalm.rt], fun _ => hkeep⟩
  have hwhole : s₁.rt.reportedExecuted + fill = s₁.rt.activePostQty := by
    rw [hcalm.rt]
    rcases hfill with rfl | rfl
    · exact absurd hpos (lt_irrefl 0)
    · ring
  refine Spec.bind (spec_applyPaperFill hkeep.active (by rw [hcalm.rt]; exact hpaper)
    (by rw [hcalm.rt]) hwhole) fun _ s₂ _ h₂ => ?_
  have hcore : s₂.rt.core = s.rt.core.book fill (s.rt.reportedExecuted + fill) := by
    rw [h₂, hcalm.rt]
  have hactive₂ : s₂.rt.activeId = some orderId := (congrArg Core.activeId hcore).trans hactive
  have hpaper₂ : s₂.rt.paperActive = true := (congrArg Core.paperActive hcore).trans hpaper
  have hstatus₂ : s₂.rt.terminalStatus = s.rt.terminalStatus := congrArg Core.terminalStatus hcore
  have hunresolved₂ : s₂.rt.unresolvedId = s.rt.unresolvedId := congrArg Core.unresolvedId hcore
  refine Spec.readRt ?_
  refine Spec.branch (fun _ => ?_) fun _ =>
    Spec.ret ⟨hunresolved₂, fun _ => ⟨hactive₂, hstatus₂, .inl hpaper₂⟩⟩
  refine Spec.bind (spec_releaseActive hactive₂ (.inl ⟨hpaper₂, by decide⟩)) fun _ s₃ _ h₃ => ?_
  have hunresolved₃ : s₃.rt.unresolvedId = s.rt.unresolvedId := (congrArg Core.unresolvedId h₃).trans hunresolved₂
  have hrunning₃ : s₃.rt.terminalStatus = none := (congrArg Core.terminalStatus h₃).trans (hstatus₂.trans hrunning)
  refine Spec.branch (fun hfilled => ?_) fun _ => Spec.ret ⟨hunresolved₃, nofun⟩
  have hending : Ending s₃.abs .filled :=
    .whole ((congrArg Core.remaining h₃).trans_le hfilled)
  exact Spec.bind (spec_endIntent hrunning₃ hending) fun _ _ _ h =>
    Spec.ret ⟨h.1.trans hunresolved₃, nofun⟩

theorem spec_pollFills (hactive : s.rt.activeId = some orderId) (hrunning : s.rt.terminalStatus = none) :
    Spec c timed (pollFills c touch now orderId) s (fun ended s' =>
      s'.rt.unresolvedId = s.rt.unresolvedId ∧ (ended = false → Polled s s' orderId)) := by
  refine Spec.readRt ?_
  refine Spec.branch (fun hpaper => spec_pollPaper hactive hpaper hrunning) fun hpaper => ?_
  have hlive : s.rt.paperActive = false := Bool.eq_false_of_not_eq_true hpaper
  refine Spec.bind (spec_querySyncVenueOrder hactive hlive) fun _ s₁ _ h₁ => ?_
  obtain ⟨⟨filled, reported, hcore⟩, hlast⟩ := h₁
  refine Spec.ret ⟨congrArg Core.unresolvedId hcore, fun _ => ⟨?_, ?_, .inr ⟨?_, hlast⟩⟩⟩
  · exact (congrArg Core.activeId hcore).trans hactive
  · exact congrArg Core.terminalStatus hcore
  · exact (congrArg Core.paperActive hcore).trans hlive

theorem Freed.unresolvedId_eq {k k' : Core} (h : Freed k k') : k'.unresolvedId = k.unresolvedId := by
  obtain ⟨filled, rfl⟩ := h; rfl

theorem Freed.activeId_eq {k k' : Core} (h : Freed k k') : k'.activeId = none := by
  obtain ⟨filled, rfl⟩ := h; rfl

section

variable (hactive : s.rt.activeId = some orderId)

include hactive

theorem spec_cancelThen {f : IntentRuntime → IntentRuntime} (hf : ∀ rt, (f rt).core = rt.core) :
    Spec c timed (do cancelAndSettle c now; modifyRt f) s
      (fun _ s' => s'.rt.unresolvedId = s.rt.unresolvedId) := by
  refine Spec.bind (spec_cancelAndSettle hactive) fun _ s₁ _ h₁ => Spec.tweak (hf _) ?_
  exact (congrArg Core.unresolvedId (hf s₁.rt)).trans h₁.unresolvedId_eq

theorem spec_cancelEscalate (hunresolved : s.rt.unresolvedId = none) :
    Spec c timed (do cancelAndSettle c now; modifyRt fun rt => { rt with phase := .ioc }) s
      (fun _ s' => s'.rt.unresolvedId = s.rt.unresolvedId) := by
  refine Spec.bind (spec_cancelAndSettle hactive) fun _ s₁ _ h₁ => ?_
  have hunresolved₁ : s₁.rt.unresolvedId = s.rt.unresolvedId := h₁.unresolvedId_eq
  have hactive₁ : s₁.rt.activeId = none := h₁.activeId_eq
  refine Spec.modify (Step.escalate (a := s₁.abs) hactive₁ ?_) hunresolved₁
  exact hunresolved₁.trans hunresolved

theorem spec_cancel :
    Spec c timed (cancelAndSettle c now) s (fun _ s' => s'.rt.unresolvedId = s.rt.unresolvedId) :=
  Spec.mono (spec_cancelAndSettle hactive) fun _ _ _ h => h.unresolvedId_eq

end

variable {filters : SymbolFilters}

section

variable (hactive : s.rt.activeId = some orderId)

include hactive

theorem spec_pollRepeg :
    Spec c timed (pollRepeg c filters touch now) s
      (fun _ s' => s'.rt.unresolvedId = s.rt.unresolvedId) := by
  refine Spec.readRt ?_
  refine Spec.fallible fun candidate hcandidate => ?_
  have hmove : Step c timed s.abs
      ({ s with rt := { s.rt with lastRepegAt := now, passiveQuote := candidate } } : Local).abs :=
    Step.repeg (a := s.abs) (bandCappedPegPrice_inBand hcandidate)
  refine Spec.bind (Spec.modify (Q := fun _ s' => s'.rt.activeId = s.rt.activeId ∧
    s'.rt.unresolvedId = s.rt.unresolvedId) hmove ⟨rfl, rfl⟩) fun _ s₁ _ h₁ => ?_
  refine Spec.branch (fun _ => ?_) fun _ => Spec.ret h₁.2
  exact Spec.mono (spec_cancel (h₁.1.trans hactive)) fun _ _ _ h => h.trans h₁.2

section

variable (hunresolved : s.rt.unresolvedId = none) (hrunning : s.rt.terminalStatus = none)

include hunresolved hrunning

theorem spec_pollAdvance
    (hknown : s.rt.paperActive = true ∨ (s.rt.paperActive = false ∧ LastReported s orderId)) :
    Spec c timed (pollAdvance c filters touch now) s
      (fun _ s' => s'.rt.unresolvedId = s.rt.unresolvedId) := by
  refine Spec.readState ?_
  refine Spec.branch (fun hfilled => ?_) fun _ => ?_
  · -- the whole intent is filled, so the order is let go and the intent ends
    have hsettles : s.abs.Settles orderId := by
      refine .inr (.inr ?_)
      have hle : s.rt.intent.quantity - s.rt.filledTotal ≤ 0 := hfilled; exact sub_nonpos.mp hle
    rw [if_pos (by rw [hactive]; rfl)]
    refine Spec.bind (spec_releaseActive hactive ?_) fun _ s₁ _ h₁ => ?_
    · exact hknown.imp (fun h => ⟨h, by decide⟩) fun h => ⟨h.1, hsettles, h.2⟩
    · have hrunning₁ : s₁.rt.terminalStatus = none :=
        (congrArg Core.terminalStatus h₁).trans hrunning
      have hending : Ending s₁.abs .filled :=
        .whole ((congrArg Core.remaining h₁).trans_le hfilled)
      exact Spec.mono (spec_endIntent hrunning₁ hending) fun _ _ _ h =>
        h.1.trans (congrArg Core.unresolvedId h₁)
  · cases hphase : s.rt.phase with
    | ioc => exact spec_cancel hactive
    | passive =>
      refine Spec.branch (fun _ => spec_cancelEscalate hactive hunresolved) fun _ => ?_
      refine Spec.branch (fun _ => spec_cancel hactive) fun _ => ?_
      refine Spec.branch (fun _ => Spec.ret rfl) fun _ => ?_
      refine Spec.branch (fun _ => spec_pollRepeg hactive) fun _ => ?_
      exact Spec.branch (fun _ => spec_cancelThen hactive fun _ => rfl) fun _ => Spec.ret rfl

theorem spec_pollActive :
    Spec c timed (pollActive c touch now) s (fun _ s' => s'.rt.unresolvedId = s.rt.unresolvedId) := by
  refine Spec.readRt ?_
  cases hfilters : s.rt.filters with
  | none => exact Spec.raise
  | some filters =>
    simp only [hactive]
    refine Spec.bind (spec_pollFills hactive hrunning) fun ended s₁ _ h₁ => ?_
    refine Spec.branch (fun _ => Spec.ret h₁.1) fun hended => ?_
    have hpolled := h₁.2 (Bool.eq_false_of_not_eq_true hended)
    exact Spec.mono (spec_pollAdvance hpolled.active (h₁.1.trans hunresolved)
      (hpolled.status.trans hrunning) hpolled.known)
      fun _ _ _ h => h.trans h₁.1

end

end

theorem spec_pollStep (hrunning : s.rt.terminalStatus = none) (hunresolved : s.rt.unresolvedId = none) :
    Spec c timed (pollStep c touch now) s (fun goOn s' => goOn = true →
      s'.rt.terminalStatus = none ∧ s'.rt.activeId = none ∧ s'.rt.unresolvedId = none) := by
  refine Spec.readRt ?_
  cases hactive : s.rt.activeId with
  | none => exact Spec.ret fun _ => ⟨hrunning, hactive, hunresolved⟩
  | some orderId =>
    refine Spec.catching ?_ fun exc s' _ => ?_
    · refine Spec.bind (spec_pollActive hactive hunresolved hrunning) fun _ s₁ _ h₁ => ?_
      refine Spec.bind (Spec.tweak (Q := fun _ s' => s'.rt.core = s₁.rt.core) rfl rfl)
        fun _ s₂ _ h₂ => ?_
      refine Spec.readRt ?_
      refine Spec.ret fun hgo => ?_
      have hunresolved₂ : s₂.rt.unresolvedId = none := (congrArg Core.unresolvedId h₂).trans (h₁.trans hunresolved)
      simp only [IntentRuntime.done, Bool.and_eq_true, Bool.not_eq_true', Option.isSome_eq_false_iff,
        Option.isNone_iff_eq_none] at hgo
      exact ⟨hgo.1, hgo.2, hunresolved₂⟩
    · refine Spec.branch (fun _ => ?_) fun _ => Spec.raise
      refine Spec.bind (Spec.tweak (Q := fun _ _ => True) rfl trivial) fun _ _ _ _ => ?_
      refine Spec.bind (spec_audit _) fun _ _ _ _ => Spec.readRt ?_
      exact Spec.branch (fun _ => Spec.raise) fun _ => Spec.ret nofun

end Polling

/-! ## Posting -/

section Posting

variable {c : ExecConfig} {timed : Bool} {s : Local} {orderId : String} {now price postQty : ℚ}
  {touch : ℚ × ℚ} {timeInForce : TimeInForce}

theorem spec_recordOrderPosted {Q : Unit → Local → Prop} (hQ : ∀ s', Q () s') :
    Spec c timed (recordOrderPosted timeInForce) s Q := by
  refine Spec.bind (Spec.tweak (Q := fun _ _ => True) rfl trivial) fun _ _ _ _ => ?_
  exact Spec.mono (spec_audit _) fun _ s' _ _ => hQ s'

theorem spec_settlePaperPost (hactive : s.rt.activeId = some orderId)
    (hpaper : s.rt.paperActive = true) (hreported : s.rt.reportedExecuted = 0)
    (hqty : s.rt.activePostQty = postQty) (hrunning : s.rt.terminalStatus = none) :
    Spec c timed (settlePaperPost c touch now orderId timeInForce price postQty) s
      (fun _ _ => True) := by
  refine Spec.bind idle_paperPostFill.spec fun executed s₁ _ h₁ => ?_
  obtain ⟨hcalm, hexecuted⟩ := h₁
  refine Spec.branch (fun hpos => ?_) fun _ => spec_recordOrderPosted fun _ => trivial
  have hall : executed = postQty := by
    rcases hexecuted with rfl | h
    · exact absurd hpos (lt_irrefl 0)
    · exact h
  have hactive₁ : s₁.rt.activeId = some orderId := by rw [hcalm.rt]; exact hactive
  refine Spec.bind (spec_applyPaperFill hactive₁ (by rw [hcalm.rt]; exact hpaper)
    (by rw [hcalm.rt, hreported, zero_add]) ?_) fun _ s₂ _ h₂ => ?_
  · rw [hcalm.rt, hreported, hqty, zero_add, hall]
  · have hcore : s₂.rt.core = s.rt.core.book executed executed := by rw [h₂, hcalm.rt]
    rw [if_pos (le_of_eq hall.symm)]
    refine Spec.bind (spec_releaseActive ((congrArg Core.activeId hcore).trans hactive)
      (.inl ⟨(congrArg Core.paperActive hcore).trans hpaper, by decide⟩)) fun _ s₃ _ h₃ => ?_
    have hrunning₃ : s₃.rt.terminalStatus = none :=
      (congrArg Core.terminalStatus h₃).trans ((congrArg Core.terminalStatus hcore).trans hrunning)
    refine Spec.readRt (Spec.branch (fun hfilled => ?_) fun _ =>
      spec_recordOrderPosted fun _ => trivial)
    exact Spec.bind (spec_endIntent hrunning₃ (.whole hfilled)) fun _ _ _ _ =>
      Spec.mono (spec_audit _) fun _ _ _ _ => trivial

structure Refusal (s : Local) (orderId : String) (exc : Exc) (e : Event) (tag : OrderTag)
    (params : OrderParams) : Prop where
  last : lastAnswer s.w.trace orderId = some e
  post : e.call = .newOrder tag params
  owner : tag.owner = s.rt.index
  reply : e.reply = .error exc

variable {params : OrderParams} {tag : OrderTag}

section

variable {exc : Exc} {e : Event} (h : Refusal s orderId exc e tag params)

include h

theorem Refusal.cause (hclass : classedRefused exc = true) {t : JournalTerminal}
    (ht : some orderId = some t.clientOrderId) : TerminalCause c s.abs t := by
  obtain rfl := Option.some.inj ht; exact .refused h.last h.post h.owner h.reply hclass

theorem Refusal.later {s' : Local} (hsteady : Steady s s') : Refusal s' orderId exc e tag params :=
  ⟨(hsteady.answers orderId).trans h.last, h.post, h.owner.trans (congrArg Core.index hsteady.core).symm, h.reply⟩

theorem Refusal.refused (hknown : exc ≠ .orderStatusUnknown) : s.abs.Refused :=
  ⟨e, List.mem_of_find?_eq_some h.last, tag, params, exc, h.post, h.owner, h.reply, hknown⟩

end

section PostErrors

variable {exc : Exc} {e : Event} {tag : OrderTag} {params : OrderParams} {code : Option ℤ}
  {httpStatus : ℤ}

theorem spec_endRejected {id : Option String}
    (hcause : ∀ t : JournalTerminal, id = some t.clientOrderId → t.status = "REJECTED" →
      TerminalCause c s.abs t)
    (hending : ∀ s' : Local, Reach c timed s.abs s'.abs → Steady s s' → Ending s'.abs .rejected)
    (hrunning : s.rt.terminalStatus = none) :
    Spec c timed (endRejected now code id) s (fun _ s' => s'.rt.terminalStatus ≠ none) := by
  refine Spec.bind (spec_journalTerminal hcause) fun _ s₁ hreach hsteady => ?_
  have hrunning₁ : s₁.abs.core.terminalStatus = none := (congrArg Core.terminalStatus hsteady.core).trans hrunning
  refine Spec.bind (Spec.modify (Q := fun _ s' => s'.rt.terminalStatus ≠ none)
    (Step.finish (a := s₁.abs) hrunning₁ (hending s₁ hreach hsteady)) nofun) fun _ s₂ _ h₂ => ?_
  refine Spec.mono (spec_audit _) fun _ s₃ _ h₃ => ?_
  rw [h₃.rt]; exact h₂

theorem Refusal.ending (h : Refusal s orderId (.venueError code httpStatus) e tag params) (s' : Local)
    (_ : Reach c timed s.abs s'.abs) (hsteady : Steady s s') : Ending s'.abs .rejected :=
  .refused ((h.later hsteady).refused nofun) nofun

section

variable (hrefusal : Refusal s orderId (.venueError code httpStatus) e tag params)

include hrefusal

theorem spec_handleMarginWait (hclass : classedRefused (.venueError code httpStatus) = true)
    (hrunning : s.rt.terminalStatus = none) :
    Spec c timed (handleMarginWait c code orderId now) s (fun _ _ => True) := by
  refine Spec.readRt (Spec.branch (fun _ => ?_) fun _ => ?_)
  · exact Spec.mono (spec_endRejected (fun t ht _ => hrefusal.cause hclass ht) hrefusal.ending
      hrunning) fun _ _ _ _ => trivial
  · refine Spec.bind (Spec.tweak (Q := fun _ s' => Steady s s') rfl ⟨rfl, fun _ => rfl⟩)
      fun _ s₁ _ h₁ => Spec.branch (fun _ => ?_) fun _ => ?_
    · exact Spec.mono (spec_endRejected (fun t ht _ => (hrefusal.later h₁).cause hclass ht)
        (hrefusal.later h₁).ending ((congrArg Core.terminalStatus h₁.core).trans hrunning))
        fun _ _ _ _ => trivial
    · refine Spec.bind (Spec.tweak (Q := fun _ s' => Steady s s') rfl ⟨h₁.core, h₁.answers⟩)
        fun _ s₂ _ h₂ => ?_
      refine Spec.bind (spec_journalTerminal fun t ht _ => (hrefusal.later h₂).cause hclass ht)
        fun _ _ _ _ => Spec.mono (spec_audit _) fun _ _ _ _ => trivial

theorem spec_handlePostError (hrunning : s.rt.terminalStatus = none) :
    Spec c timed (handlePostError c code httpStatus orderId now) s (fun handled s' =>
      handled = true → s'.rt.terminalStatus ≠ none ∨
        classedNotPlaced (.venueError code httpStatus) = true) := by
  refine Spec.branch (fun hrate => ?_) fun _ => ?_
  · have hclass : classedNotPlaced (.venueError code httpStatus) = true := by
      rcases hrate with h | h <;> simp [classedNotPlaced, h]
    have hrefused : classedRefused (.venueError code httpStatus) = true := by
      rcases hrate with h | h <;> simp [classedRefused, h]
    refine Spec.bind (spec_journalTerminal fun t ht _ => hrefusal.cause hrefused ht) fun _ _ _ _ => ?_
    exact Spec.bind (spec_audit _) fun _ _ _ _ => Spec.ret fun _ => .inr hclass
  · cases haction : resolveErrorAction code with
    | intentReject =>
      have hrefused : classedRefused (.venueError code httpStatus) = true := by
        simp [classedRefused, haction]
      exact Spec.bind (spec_endRejected (fun t ht _ => hrefusal.cause hrefused ht) hrefusal.ending
        hrunning) fun _ _ _ h => Spec.ret fun _ => .inl h
    | marginWait =>
      have hrefused : classedRefused (.venueError code httpStatus) = true := by
        simp [classedRefused, haction]
      exact Spec.bind (spec_handleMarginWait hrefusal hrefused hrunning)
        fun _ _ _ _ => Spec.ret fun _ => .inr (by simp [classedNotPlaced, haction])
    | riskIncreaseFreeze =>
      have hrefused : classedRefused (.venueError code httpStatus) = true := by
        simp [classedRefused, haction]
      have hfreeze : Spec c timed (modifyFlags fun f =>
          { f with riskIncreaseFrozen := true, freezeCode := code }) s (fun _ s' => Steady s s') :=
        ⟨.refl, rfl, fun _ => rfl⟩
      refine Spec.bind hfreeze fun _ s₁ _ h₁ => ?_
      refine Spec.bind (spec_audit _) fun _ s₂ _ h₂ => ?_
      have hsteady : Steady s s₂ := ⟨h₂.steady.core.trans h₁.core, fun id => (h₂.answers id).trans (h₁.answers id)⟩
      exact Spec.bind (spec_endRejected (fun t ht _ => (hrefusal.later hsteady).cause hrefused ht)
        (hrefusal.later hsteady).ending ((congrArg Core.terminalStatus hsteady.core).trans hrunning))
        fun _ _ _ h => Spec.ret fun _ => .inl h
    | benignReprice =>
      have hrefused : classedRefused (.venueError code httpStatus) = true := by
        simp [classedRefused, haction]
      refine Spec.bind (spec_journalTerminal fun t ht _ => hrefusal.cause hrefused ht)
        fun _ _ _ _ => ?_
      refine Spec.bind (Spec.tweak (Q := fun _ _ => True) rfl trivial) fun _ _ _ _ => ?_
      exact Spec.ret fun _ => .inr (by simp [classedNotPlaced, haction])
    | _ => exact Spec.ret nofun

end

end PostErrors

/-- What a post leads to once its reply `e` was heard in the state `a` it was sent from. -/
theorem wp_handleReply {a : Abs} {e : Event}
    (hready : SendReady c a e tag params) (hid : params.newClientOrderId = orderId)
    (hqty : params.quantity = postQty) (hnow : a.reading = now) (habs : s.abs = a.hear e) :
    wp (handleReply c touch now orderId timeInForce price postQty e.reply)
      (fun _ s' => Reach c false (a.afterSend e params) s'.abs ∧ Landed e s'.abs)
      (fun _ s' => Reach c false (a.afterSend e params) s'.abs) s := by
  subst hid hqty hnow
  have hcore : s.rt.core = a.core := congrArg Abs.core habs
  have hrunning : s.rt.terminalStatus = none := (congrArg Core.terminalStatus hcore).trans hready.running
  have htrace : s.w.trace = e :: a.trace := congrArg Abs.trace habs
  -- a state that differs from `s` by the core the reply leads to is the state after the post
  have hafter : ∀ s' : Local, s'.w = s.w → s'.closeLeg = s.closeLeg →
      s'.rt.core = a.core.afterReply params.newClientOrderId params.quantity a.reading e.reply →
      s'.abs = a.afterSend e params := by
    intro s' hw hleg hk
    have hleg' : s.closeLeg = a.closeLeg := congrArg Abs.closeLeg habs
    have hjournal : s.w.journal = a.journal := congrArg Abs.journal habs
    have hreading : s.w.reading = a.reading := congrArg Abs.reading habs
    simp only [Local.abs, Abs.afterSend, Abs.withCore, Abs.hear, hw, hleg, hk, hleg', hjournal, htrace, hreading]
  have hrefusal : ∀ exc, e.reply = .error exc →
      Refusal s params.newClientOrderId exc e tag params := by
    intro exc hexc
    refine ⟨?_, hready.call, hready.owner.trans (congrArg Core.index hcore).symm, hexc⟩
    rw [htrace]; exact lastAnswer_cons_self (by rw [hready.call]; exact decide_eq_true rfl)
  -- a reply that is no plain error has been accounted for as soon as it was heard
  have hlanded : (∀ exc, e.reply = .error exc → exc = .orderStatusUnknown) →
      ∀ s' : Local, Landed e s'.abs := fun h _ => .inr fun exc hexc => .inl (h exc hexc)
  -- an assignment that the reply calls for, and what follows it
  have hassign : ∀ (f : IntentRuntime → IntentRuntime) (k : IntentM Unit),
      (f s.rt).core = a.core.afterReply params.newClientOrderId params.quantity a.reading e.reply →
      Spec c false k { s with rt := f s.rt } (fun _ _ => True) →
      (∀ exc, e.reply = .error exc → exc = .orderStatusUnknown) →
      wp (modifyRt f >>= fun _ => k)
        (fun _ s' => Reach c false (a.afterSend e params) s'.abs ∧ Landed e s'.abs)
        (fun _ s' => Reach c false (a.afterSend e params) s'.abs) s := by
    intro f k hf hk hno
    rw [wp_bind, modifyRt, wp_modify, ← hafter { s with rt := f s.rt } rfl rfl hf]
    exact wp_mono hk (fun _ s' h => ⟨h.1, hlanded hno s'⟩) (fun _ _ h => h)
  cases hreply : e.reply with
  | error exc =>
    have hsame : e.reply ≠ .error .orderStatusUnknown → s.abs = a.afterSend e params := by
      refine fun hne => hafter s rfl rfl (hcore.trans ?_)
      rw [hreply] at hne ⊢
      cases exc with
      | orderStatusUnknown => exact absurd rfl hne
      | _ => rfl
    cases exc with
    | orderStatusUnknown =>
      refine hassign _ _ (by rw [hreply, ← hcore]; rfl)
        (Spec.mono (spec_audit _) fun _ _ _ _ => trivial) fun exc hexc => ?_
      rw [hreply] at hexc; exact (Reply.error.inj hexc).symm
    | venueError code httpStatus =>
      rw [handleReply, wp_bind, ← hsame (by rw [hreply]; nofun)]
      refine wp_mono (spec_handlePostError (hrefusal _ hreply) hrunning) (fun handled s₁ h₁ => ?_)
        (fun _ _ h => h)
      rw [wp_ite]
      refine ⟨fun hhandled => ⟨h₁.1, ?_⟩, fun _ => h₁.1⟩
      refine (h₁.2 hhandled).imp id fun hclass exc hexc => .inr ?_
      rw [hreply] at hexc
      rw [← Reply.error.inj hexc]; exact hclass
    | orderObsolete =>
      rw [← hsame (by rw [hreply]; nofun)]
      have hspec : Spec c false (do
          journalTerminal (some params.newClientOrderId) "OBSOLETE"
          endIntent .obsolete a.reading
          auditIntent .intentObsolete) s (fun _ s' => s'.rt.terminalStatus ≠ none) := by
        refine Spec.bind (spec_journalTerminal fun t ht _ => (hrefusal _ hreply).cause rfl ht)
          fun _ s₁ _ h₁ => ?_
        refine Spec.bind (spec_endIntent ((congrArg Core.terminalStatus h₁.core).trans hrunning)
          (.refused (((hrefusal _ hreply).later h₁).refused nofun) nofun)) fun _ s₂ _ h₂ => ?_
        refine Spec.mono (spec_audit _) fun _ s₃ _ h₃ => ?_
        rw [h₃.rt, h₂.2]; nofun
      exact wp_mono hspec (fun _ _ h => ⟨h.1, .inl h.2⟩) (fun _ _ h => h)
    | _ =>
      change Reach c false (a.afterSend e params) s.abs
      rw [hsame (by rw [hreply]; nofun)]
  | shadow =>
    refine hassign
      (fun rt => { rt with terminalStatus := some .shadow, finalizedAt := a.reading }) (pure ())
      (by rw [hreply, ← hcore]; rfl) (Spec.ret trivial) fun exc hexc => ?_
    rw [hreply] at hexc; cases hexc
  | paper =>
    refine hassign _ _ (by rw [hreply, ← hcore]; rfl)
      (spec_settlePaperPost rfl rfl rfl rfl hrunning) fun exc hexc => ?_
    rw [hreply] at hexc; cases hexc
  | _ =>
    refine hassign _ _ (by rw [hreply, ← hcore]; rfl)
      (spec_recordOrderPosted fun _ => trivial) fun exc hexc => ?_
    rw [hreply] at hexc; cases hexc

/-- One turn of the intent: a `Turn` when it returns, a `BrokenTurn` when it raises. -/
def TurnSpec (c : ExecConfig) (x : IntentM Unit) (s : Local) : Prop :=
  wp x (fun _ s' => Turn c s.abs s'.abs) (fun _ s' => BrokenTurn c s.abs s'.abs) s

theorem Turn.prepend {a a' a'' : Abs} (h : Reach c false a a') (h' : Turn c a' a'') : Turn c a a'' := by
  rcases h' with h' | ⟨e, a₁, a₂, h₁, hsend, h₂, hlanded⟩
  · exact .inl (h.trans h')
  · exact .inr ⟨e, a₁, a₂, h.trans h₁, hsend, h₂, hlanded⟩

theorem BrokenTurn.prepend {a a' a'' : Abs} (h : Reach c false a a') (h' : BrokenTurn c a' a'') :
    BrokenTurn c a a'' := by
  rcases h' with h' | ⟨e, a₁, a₂, h₁, hsend, h₂⟩
  · exact .inl (h.trans h')
  · exact .inr ⟨e, a₁, a₂, h.trans h₁, hsend, h₂⟩

namespace TurnSpec

theorem of_spec {x : IntentM Unit} {Q : Unit → Local → Prop} (h : Spec c false x s Q) : TurnSpec c x s :=
  wp_mono h (fun _ _ h => .inl h.1) (fun _ _ h => .inl h)

theorem bind {α : Type} {x : IntentM α} {f : α → IntentM Unit} {Q : α → Local → Prop} (h : Spec c false x s Q)
    (hf : ∀ r s', Reach c false s.abs s'.abs → Q r s' → TurnSpec c (f r) s') : TurnSpec c (x >>= f) s := by
  rw [TurnSpec, wp_bind]
  refine wp_mono h (fun r s' hr => ?_) (fun _ _ h => .inl h)
  exact wp_mono (hf r s' hr.1 hr.2) (fun _ _ h => h.prepend hr.1) (fun _ _ h => h.prepend hr.1)

theorem branch {p : Prop} [Decidable p] {x y : IntentM Unit} (ht : p → TurnSpec c x s)
    (hf : ¬ p → TurnSpec c y s) : TurnSpec c (if p then x else y) s := by
  by_cases hp : p
  · rw [if_pos hp]; exact ht hp
  · rw [if_neg hp]; exact hf hp

theorem readState {f : Local → IntentM Unit} (h : TurnSpec c (f s) s) : TurnSpec c (Proc.get >>= f) s := by
  exact h

theorem readRt {f : IntentRuntime → IntentM Unit} (h : TurnSpec c (f s.rt) s) : TurnSpec c (getRt >>= f) s := by
  exact h

theorem fallible {α : Type} {r : Except Exc α} {f : α → IntentM Unit}
    (h : ∀ v, r = .ok v → TurnSpec c (f v) s) : TurnSpec c (Proc.ofExcept r >>= f) s := by
  rw [TurnSpec, wp_bind, wp_ofExcept]; exact ⟨fun v hv => h v hv, fun _ _ => .inl .refl⟩

end TurnSpec

/-- What holds of an intent that is about to post, whatever its price and quantity. -/
structure Ready (c : ExecConfig) (s : Local) (filters : SymbolFilters) (touch : ℚ × ℚ) (now : ℚ) : Prop where
  filters : s.rt.filters = some filters
  quote : latestQuote s.w.trace s.rt.intent.symbol = some touch
  gate : gateState s.closeLeg = .opened
  running : s.rt.terminalStatus = none
  noActive : s.rt.activeId = none
  noUnresolved : s.rt.unresolvedId = none
  reading : s.w.reading = now

variable {filters : SymbolFilters}

theorem Ready.later {s' : Local} {phase : Phase} (h : Ready c s filters touch now)
    (hreach : Reach c false s.abs s'.abs) (hcore : s'.rt.core = { s.rt.core with phase := phase }) :
    Ready c s' filters touch now where
  filters := (congrArg Core.filters hcore).trans h.filters
  quote := by
    have hintent : s'.rt.intent = s.rt.intent := congrArg Core.intent hcore
    rw [hintent]; exact (hreach.latestQuote_eq _).trans h.quote
  gate := by
    have hleg : s'.closeLeg = s.closeLeg := hreach.closeLeg_eq
    rw [hleg]; exact h.gate
  running := (congrArg Core.terminalStatus hcore).trans h.running
  noActive := (congrArg Core.activeId hcore).trans h.noActive
  noUnresolved := (congrArg Core.unresolvedId hcore).trans h.noUnresolved
  reading := hreach.reading_eq.trans h.reading

theorem spec_orderBudgetExceeded : Spec c timed (orderBudgetExceeded c) s (fun _ s' => Calm s s') := by
  rw [orderBudgetExceeded]
  cases c.rateLimits with
  | none => exact Spec.ret .refl
  | some limits =>
    have hrate : Spec c timed (liftWorld rateState) s (fun _ s' => Calm s s') := by
      rw [Spec, Along, liftWorld, wp_zoom]
      refine wp_readAttr .refl fun r e w' hw => ?_
      exact ⟨reach_of_heard hw rfl, calm_of_heard hw ⟨rfl, fun _ => rfl⟩⟩
    refine Spec.bind hrate fun rate s₁ _ h₁ => ?_
    cases rate with
    | none | some rate => exact Spec.ret h₁

/-- **The post proper is one turn of the machine.** -/
theorem turn_submitOrder (hready : Ready c s filters touch now)
    (hphase : timeInForce = .gtx ↔ s.rt.phase = .passive)
    (hpriced : s.rt.core.Prices c filters touch timeInForce price)
    (hsize : s.rt.core.sizeAt c filters price = .ok (some postQty)) (hle : postQty ≤ s.rt.remaining) :
    TurnSpec c (submitOrder c touch now timeInForce price postQty) s := by
  rw [submitOrder]
  refine TurnSpec.bind spec_orderBudgetExceeded fun exceeded s₁ hreach₁ hcalm₁ => ?_
  refine TurnSpec.branch (fun _ => .of_spec (Spec.ret (Q := fun _ _ => True) trivial)) fun _ => ?_
  refine TurnSpec.readState ?_
  refine TurnSpec.fallible fun orderId hid => ?_
  refine TurnSpec.bind (spec_recordSubmit hid) fun _ s₂ hreach₂ h₂ => ?_
  obtain ⟨hcalm₂, hpos, e₀, sub, hlogs, hsubId, hsubQty, hhead⟩ := h₂
  refine TurnSpec.bind (Spec.tweak (Q := fun _ s' => s'.rt.core = s₂.rt.core ∧ s'.w = s₂.w ∧
    s'.closeLeg = s₂.closeLeg) rfl ⟨rfl, rfl, rfl⟩) fun _ s₃ hreach₃ h₃ => ?_
  have hcore : s₃.rt.core = s.rt.core := by rw [h₃.1, hcalm₂.rt, hcalm₁.rt]
  have hready₃ : Ready c s₃ filters touch now := hready.later ((hreach₁.trans hreach₂).trans hreach₃) hcore
  have hphase₃ : s₃.rt.phase = s.rt.phase := congrArg Core.phase hcore
  have hleg : s₁.closeLeg = s₃.closeLeg := (Reach.closeLeg_eq (hreach₂.trans hreach₃)).symm
  -- the reply is heard in the state the submission left
  rw [TurnSpec, wp_bind, liftWorld, wp_zoom, newOrder, wp_bind]
  refine wp_perform (.inl .refl) fun step e w' hw hreply _ => ?_
  rw [wp_pure, ← hreply]
  have hrt : s₁.rt = s.rt := hcalm₁.rt
  have hsend : SendReady c s₃.abs e { owner := s₁.rt.index, closeLeg := s₁.closeLeg }
      (orderParams s₁.rt orderId timeInForce price postQty) := by
    refine ⟨hw.call, ?_, hleg, hready₃.gate, hready₃.running, hready₃.noActive,
      hready₃.noUnresolved, hphase.trans (by rw [← hphase₃]; rfl), hw.dated, ?_, ?_, rfl, hpos, ?_, ?_,
      ⟨filters, touch, hready₃.filters, hready₃.quote, ?_⟩, fun filters' hfilters' => ?_⟩
    · rw [hrt]; exact (congrArg Core.index hcore).symm
    · rw [hrt]; exact (congrArg (fun k => k.intent.symbol) hcore).symm
    · rw [hrt]; exact (congrArg (fun k => k.intent.side) hcore).symm
    · change postQty ≤ s₃.rt.core.intent.quantity - s₃.rt.core.filledTotal
      rw [hcore]; exact hle
    · cases htrace : s₂.w.trace with
      | nil => rw [htrace] at hhead; cases hhead
      | cons e' rest =>
        rw [htrace] at hhead
        cases hhead
        refine ⟨e₀, sub, rest, ?_, hlogs, hsubId, hsubQty⟩
        change s₃.w.trace = _
        rw [h₃.2.1, htrace]
    · change s₃.rt.core.Prices c filters touch timeInForce price
      rw [hcore]; exact hpriced
    · obtain rfl := Option.some.inj (hready₃.filters.symm.trans hfilters')
      change s₃.rt.core.sizeAt c filters price = _
      rw [hcore]; exact hsize
  refine wp_mono (wp_handleReply hsend rfl rfl hready₃.reading (abs_of_heard hw))
    (fun _ s' h => .inr ⟨e, _, _, .refl, ⟨_, _, hsend, rfl⟩, h.1, h.2⟩)
    (fun _ s' h => .inr ⟨e, _, _, .refl, ⟨_, _, hsend, rfl⟩, h⟩)

theorem spec_endSubMinimum (hrunning : s.rt.terminalStatus = none) (hleft : 0 < s.rt.remaining) :
    Spec c timed (endSubMinimum now) s (fun _ _ => True) :=
  Spec.bind (spec_endIntent hrunning (.early hleft nofun)) fun _ _ _ _ =>
    Spec.mono (spec_audit _) fun _ _ _ _ => trivial

section

variable (hready : Ready c s filters touch now)

include hready

theorem turn_postAt (hphase : timeInForce = .gtx ↔ s.rt.phase = .passive)
    (hpriced : s.rt.core.Prices c filters touch timeInForce price) (hremaining : 0 < s.rt.remaining) :
    TurnSpec c (postAt c filters touch now timeInForce price) s := by
  have hsmall : TurnSpec c (endSubMinimum now) s :=
    .of_spec (spec_endSubMinimum hready.running hremaining)
  have hsize : s.rt.core.sizeAt c filters price = sizeAt filters c.policy.maxSlices
    s.rt.intent.reduceOnly s.rt.remaining price := rfl
  unfold sizeAt at hsize
  refine TurnSpec.readRt ?_
  refine TurnSpec.branch (fun _ => hsmall) fun hmin => ?_
  refine TurnSpec.fallible fun postQty hqty => ?_
  have hle : postQty ≤ s.rt.remaining := (postQuantity_mem hqty hremaining).2
  rw [if_neg hmin, hqty] at hsize
  change _ = (if _ then _ else _) at hsize
  refine TurnSpec.branch (fun hslice => ?_) fun hslice =>
    turn_submitOrder hready hphase hpriced (hsize.trans (if_neg hslice)) hle
  rw [if_pos hslice] at hsize
  refine TurnSpec.branch (fun _ => hsmall) fun hrest => ?_
  exact turn_submitOrder hready hphase hpriced (hsize.trans (if_neg hrest)) le_rfl

theorem turn_postPriced (hremaining : 0 < s.rt.remaining) : TurnSpec c (postPriced c filters touch now) s := by
  have hidle : TurnSpec c (pure ()) s := .of_spec (Spec.ret (Q := fun _ _ => True) trivial)
  refine TurnSpec.readRt ?_
  cases hphase : s.rt.phase with
  | passive =>
    refine TurnSpec.fallible fun price hprice => ?_
    cases price with
    | none => exact hidle
    | some price => exact turn_postAt hready (by simp [hphase]) (.inl ⟨rfl, hprice⟩) hremaining
  | ioc =>
    refine TurnSpec.branch (fun _ => .of_spec (spec_endIntent hready.running (.early hremaining nofun)))
      fun _ => ?_
    refine TurnSpec.fallible fun price hprice => ?_
    cases price with
    | none => exact hidle
    | some price => exact turn_postAt hready (by simp [hphase]) (.inr ⟨rfl, hprice⟩) hremaining

theorem turn_post : TurnSpec c (post c filters touch now) s := by
  refine TurnSpec.readState ?_
  refine TurnSpec.branch (fun hfilled => ?_) fun hremaining => ?_
  · rw [hready.noActive]
    have hspec : Spec c false (do journalTerminal none "FILLED"; endIntent .filled now) s
        (fun _ _ => True) := by
      refine Spec.bind (spec_journalTerminal nofun) fun _ s₁ _ h₁ => ?_
      exact (spec_endIntent ((congrArg Core.terminalStatus h₁.core).trans hready.running)
        (.whole ((congrArg Core.remaining h₁.core).trans_le hfilled))).mono fun _ _ _ _ => trivial
    exact .of_spec hspec
  have hremaining : 0 < s.rt.remaining := not_le.mp hremaining
  refine TurnSpec.branch (fun _ => .of_spec (Spec.ret (Q := fun _ _ => True) trivial)) fun _ => ?_
  refine TurnSpec.branch (fun _ => .of_spec (spec_endRejected nofun (fun s' _ hsteady => ?_)
    hready.running)) fun _ => ?_
  · exact .early ((congrArg Core.remaining hsteady.core).symm ▸ hremaining) nofun
  refine TurnSpec.branch (fun _ => ?_) fun _ => turn_postPriced hready hremaining
  refine TurnSpec.bind (Spec.modify (Q := fun _ s' => s'.rt.core = { s.rt.core with phase := .ioc })
    (Step.escalate (a := s.abs) hready.noActive hready.noUnresolved) rfl)
    fun _ s₁ hreach h₁ => turn_postPriced (hready.later hreach h₁) ?_
  have hrem : s₁.rt.remaining = s.rt.remaining := congrArg (fun k => k.intent.quantity - k.filledTotal) h₁
  rw [hrem]; exact hremaining

end

theorem spec_resolveStep (hreading : s.w.reading = now) :
    Spec c timed (resolveStep c now) s (fun resolved s' => resolved = true → Resolved s s') := by
  refine Spec.readRt ?_
  cases hunresolved : s.rt.unresolvedId with
  | none => exact Spec.ret fun _ => ⟨hunresolved, rfl⟩
  | some orderId => exact spec_resolveUnknownSubmission hunresolved hreading

/-- **`_poll_or_post` is one turn of the machine**, on the book just fetched and at the reading just
taken. -/
theorem turn_pollOrPost (hrunning : s.rt.terminalStatus = none)
    (hquote : latestQuote s.w.trace s.rt.intent.symbol = some touch) (hreading : s.w.reading = now) :
    TurnSpec c (pollOrPost c touch now) s := by
  have hidle : ∀ s' : Local, TurnSpec c (pure ()) s' := fun _ =>
    .of_spec (Spec.ret (Q := fun _ _ => True) trivial)
  refine TurnSpec.readRt ?_
  cases hfilters : s.rt.filters with
  | none => exact .of_spec (Spec.raise (Q := fun _ _ => True))
  | some filters =>
    refine TurnSpec.bind spec_applyCloseGate fun held s₁ _ h₁ => ?_
    refine TurnSpec.branch (fun _ => hidle _) fun hheld => ?_
    obtain ⟨rfl, hgate⟩ := h₁.1 (Bool.eq_false_of_not_eq_true hheld)
    refine TurnSpec.bind (Spec.tweak (Q := fun _ s' => s'.rt.core = s₁.rt.core ∧ s'.w = s₁.w) rfl
      ⟨rfl, rfl⟩) fun _ s₂ hreach₂ h₂ => ?_
    refine TurnSpec.bind (spec_resolveStep (by rw [h₂.2]; exact hreading))
      fun resolved s₃ hreach₃ h₃ => TurnSpec.branch (fun hresolved => ?_) fun _ => hidle _
    obtain ⟨hunresolved₃, hstatus₃⟩ := h₃ hresolved
    have hrunning₃ : s₃.rt.terminalStatus = none :=
      hstatus₃.trans ((congrArg Core.terminalStatus h₂.1).trans hrunning)
    refine TurnSpec.bind (spec_pollStep hrunning₃ hunresolved₃)
      fun goOn s₄ hreach₄ h₄ => TurnSpec.branch (fun hgo => ?_) fun _ => hidle _
    obtain ⟨hrunning₄, hactive₄, hunresolved₄⟩ := h₄ hgo
    have hreach : Reach c false s₁.abs s₄.abs := (hreach₂.trans hreach₃).trans hreach₄
    refine turn_post ⟨?_, ?_, ?_, hrunning₄, hactive₄, hunresolved₄, hreach.reading_eq.trans hreading⟩
    · exact (hreach.keeps (P := fun x => x.core.filters = s₁.abs.core.filters)
        (fun hs hx => hs.filters_eq.trans hx) rfl).trans hfilters
    · have hintent : s₄.rt.intent = s₁.rt.intent :=
        hreach.keeps (P := fun x => x.core.intent = s₁.abs.core.intent)
          (fun hs hx => hs.intent_eq.trans hx) rfl
      rw [hintent]; exact (hreach.latestQuote_eq _).trans hquote
    · have hleg : s₄.closeLeg = s₁.closeLeg := hreach.closeLeg_eq
      rw [hleg]; exact hgate

end Posting

/-! ## The end of the window -/

section Finalize

variable {c : ExecConfig} {s : Local} {orderId : String} {now : ℚ}

theorem spec_clock : Spec c true (liftWorld clock) s (fun now s' => s'.rt = s.rt ∧ s'.w.reading = now) := by
  rw [Spec, Along, liftWorld, wp_zoom]
  refine wp_clock .refl fun e w' htrace hcall hjournal hreading => ⟨?_, rfl, hreading⟩
  have habs : ({ s with w := w' } : Local).abs = { s.abs.hear e with reading := e.time } := by
    simp only [Local.abs, Abs.hear, htrace, hjournal, hreading]
  rw [Moved, habs]; exact .single (.tick hcall rfl)

variable {realSleep : Bool}

theorem spec_exitSleep {seconds : ℚ} : Spec c true (exitSleep realSleep seconds) s (fun _ s' => Calm s s') := by
  refine Spec.branch (fun _ => ?_) fun _ => Spec.ret .refl
  exact wp_mono (wp_mute_command ⟨rfl, fun _ => rfl⟩) (fun _ _ h => h) (fun _ _ h => h.1)

section

variable (hunresolved : s.rt.unresolvedId = some orderId) (hreading : s.w.reading = now)
  (hrunning : s.rt.terminalStatus = none)

include hunresolved hreading hrunning

theorem spec_resolveAfterSleep :
    Spec c true (resolveAfterSleep c now) s (fun next s' => next ≠ none →
      s'.rt.unresolvedId = none ∧ s'.rt.terminalStatus = none) := by
  refine Spec.bind (spec_lookupUnknownSubmission hunresolved) fun found s₁ _ h₁ => ?_
  obtain ⟨hrt, hread, hmissed⟩ := h₁
  have hunresolved₁ : s₁.rt.unresolvedId = some orderId := by rw [hrt]; exact hunresolved
  refine Spec.readRt (Spec.branch (fun _ => ?_) fun hfound => ?_)
  · refine Spec.bind (spec_adoptUnknownSubmission hunresolved₁) fun _ s₂ _ h₂ => Spec.ret fun _ => ?_
    rw [hrt] at h₂; exact ⟨(Resolved.of_adopt h₂).1, (Resolved.of_adopt h₂).2.trans hrunning⟩
  · refine Spec.branch (fun _ => ?_) fun hlate => ?_
    · exact Spec.bind (spec_audit _) fun _ _ _ _ => Spec.ret fun h => absurd rfl h
    · have hmissed₁ : MissedAt s₁ orderId now :=
        hreading ▸ hmissed (Bool.eq_false_of_not_eq_true hfound)
      refine Spec.bind (spec_declareNotPlaced hunresolved₁ hmissed₁ (not_lt.mp hlate))
        fun _ s₂ _ h₂ => Spec.ret fun _ => ?_
      rw [hrt] at h₂
      exact ⟨(Resolved.of_writeOff h₂).1, (Resolved.of_writeOff h₂).2.trans hrunning⟩

theorem spec_resolveUnknownAtExit :
    Spec c true (resolveUnknownAtExit c realSleep now) s (fun next s' => next ≠ none →
      s'.rt.unresolvedId = none ∧ s'.rt.terminalStatus = none) := by
  refine Spec.bind (spec_lookupUnknownSubmission hunresolved) fun found s₁ _ h₁ => ?_
  obtain ⟨hrt, hread, hmissed⟩ := h₁
  have hunresolved₁ : s₁.rt.unresolvedId = some orderId := by rw [hrt]; exact hunresolved
  refine Spec.readRt (Spec.branch (fun _ => ?_) fun hfound => ?_)
  · refine Spec.bind (spec_adoptUnknownSubmission hunresolved₁) fun _ s₂ _ h₂ => Spec.ret fun _ => ?_
    rw [hrt] at h₂; exact ⟨(Resolved.of_adopt h₂).1, (Resolved.of_adopt h₂).2.trans hrunning⟩
  · refine Spec.branch (fun hlate => ?_) fun _ => ?_
    · have hmissed₁ : MissedAt s₁ orderId now :=
        hreading ▸ hmissed (Bool.eq_false_of_not_eq_true hfound)
      refine Spec.bind (spec_declareNotPlaced hunresolved₁ hmissed₁ hlate)
        fun _ s₂ _ h₂ => Spec.ret fun _ => ?_
      rw [hrt] at h₂
      exact ⟨(Resolved.of_writeOff h₂).1, (Resolved.of_writeOff h₂).2.trans hrunning⟩
    · refine Spec.bind spec_exitSleep fun _ s₂ _ h₂ => ?_
      refine Spec.bind spec_clock fun later s₃ _ h₃ => ?_
      have hrt₃ : s₃.rt = s.rt := by rw [h₃.1, h₂.rt, hrt]
      exact spec_resolveAfterSleep (by rw [hrt₃]; exact hunresolved) h₃.2
        (by rw [hrt₃]; exact hrunning)

end

theorem spec_finalizeUnresolved (hreading : s.w.reading = now) (hrunning : s.rt.terminalStatus = none) :
    Spec c true (finalizeUnresolved c realSleep now) s (fun next s' => next ≠ none →
      s'.rt.unresolvedId = none ∧ s'.rt.terminalStatus = none) := by
  refine Spec.readRt ?_
  cases hunresolved : s.rt.unresolvedId with
  | none => exact Spec.ret fun _ => ⟨hunresolved, hrunning⟩
  | some orderId => exact spec_resolveUnknownAtExit hunresolved hreading hrunning

theorem spec_finalizeActive (hrunning : s.rt.terminalStatus = none) :
    Spec c true (finalizeActive c now) s (fun _ s' => s'.rt.terminalStatus = none ∧
      s'.rt.activeId = none ∧ s'.rt.unresolvedId = s.rt.unresolvedId) := by
  refine Spec.readRt ?_
  cases hactive : s.rt.activeId with
  | none => exact Spec.ret ⟨hrunning, hactive, rfl⟩
  | some orderId =>
    refine Spec.branch (fun hpaper => ?_) fun hpaper => ?_
    · refine Spec.mono (spec_releaseActive hactive (.inl ⟨hpaper, by decide⟩)) fun _ s₁ _ h₁ => ?_
      exact ⟨(congrArg Core.terminalStatus h₁).trans hrunning, congrArg Core.activeId h₁,
        congrArg Core.unresolvedId h₁⟩
    · have hlive : s.rt.paperActive = false := Bool.eq_false_of_not_eq_true hpaper
      refine Spec.bind (spec_settleCancelled hactive hlive) fun status s₁ _ h₁ => ?_
      obtain ⟨⟨filled, reported, hcore⟩, ⟨e, payload, hlast, hreply⟩, hclosed⟩ := h₁
      refine Spec.bind (spec_audit _) fun _ s₂ hreach₂ h₂ => ?_
      have hcore₂ : s₂.rt.core = _ := (congrArg IntentRuntime.core h₂.rt).trans hcore
      have hsettles : s₂.abs.Settles orderId := by
        obtain ⟨r, hmem, x, hx, hle⟩ := hclosed
        refine .inl ⟨r, hreach₂.trace_suffix.subset hmem, x, hx, ?_⟩
        change x ≤ s₂.rt.reportedExecuted
        rw [h₂.rt]; exact hle
      refine Spec.mono (spec_releaseActive ((congrArg Core.activeId hcore₂).trans hactive)
        (.inr ⟨(congrArg Core.paperActive hcore₂).trans hlive, hsettles, e, payload,
          (h₂.answers orderId).trans hlast, hreply⟩)) fun _ s₃ _ h₃ => ?_
      exact ⟨(congrArg Core.terminalStatus h₃).trans
          ((congrArg Core.terminalStatus hcore₂).trans hrunning),
        congrArg Core.activeId h₃,
        (congrArg Core.unresolvedId h₃).trans (congrArg Core.unresolvedId hcore₂)⟩

/-- **`_finalize` of one runtime moves along the machine.** -/
theorem spec_finalizeOne : Spec c true (finalizeOne c realSleep) s (fun _ _ => True) := by
  refine Spec.readRt (Spec.branch (fun _ => Spec.ret trivial) fun hdone => ?_)
  have hrunning : s.rt.terminalStatus = none := by
    simpa [IntentRuntime.done] using hdone
  refine Spec.bind spec_clock fun start s₁ _ h₁ => ?_
  refine Spec.bind (spec_finalizeUnresolved h₁.2 (by rw [h₁.1]; exact hrunning))
    fun next s₂ _ h₂ => ?_
  cases next with
  | none => exact Spec.ret trivial
  | some now =>
    obtain ⟨-, hrunning₂⟩ := h₂ nofun
    refine Spec.bind (spec_finalizeActive hrunning₂) fun _ s₃ _ h₃ => ?_
    refine Spec.readRt (Spec.branch (fun hleft => ?_) fun hleft => ?_)
    · exact Spec.bind (spec_endIntent h₃.1 (.early hleft nofun)) fun _ _ _ _ =>
        Spec.mono (spec_audit _) fun _ _ _ _ => trivial
    · exact Spec.mono (spec_endIntent h₃.1 (.whole (not_lt.mp hleft))) fun _ _ _ _ => trivial

theorem spec_cleanupIntent : Spec c true (cleanupIntent c) s (fun _ _ => True) := by
  refine Spec.catching spec_finalizeOne fun exc s' _ => ?_
  exact Spec.branch (fun _ => Spec.mono (spec_audit _) fun _ _ _ _ => trivial) fun _ => Spec.raise

theorem spec_shutdownIntent {start : ℚ} : Spec c true (shutdownIntent c start) s (fun _ _ => True) := by
  refine Spec.bind (Spec.tweak (Q := fun _ _ => True) rfl trivial) fun _ s₁ _ _ => ?_
  refine Spec.readRt (Spec.branch (fun _ => Spec.ret trivial) fun _ => ?_)
  refine Spec.branch (fun _ => spec_finalizeOne) fun _ => ?_
  refine Spec.bind spec_clock fun now s₂ _ _ => ?_
  exact Spec.branch (fun _ => Spec.ret trivial) fun _ => spec_cleanupIntent

theorem spec_abortIntent : Spec c true (abortIntent c) s (fun _ _ => True) :=
  Spec.readRt (Spec.branch (fun _ => Spec.ret trivial) fun _ => spec_cleanupIntent)

theorem spec_blockIntent (hblocked : gateState s.closeLeg = .blocked) :
    Spec c true (do
      let now ← liftWorld clock
      let _ ← applyCloseGate now
      pure ()) s (fun _ s' => s'.rt.terminalStatus = some .residual ∧
        s'.rt.blockReason = some .blockedByCloseLeg) := by
  refine Spec.bind spec_clock fun now s₁ hreach₁ _ => ?_
  refine Spec.bind spec_applyCloseGate fun _ s₂ _ h₂ => Spec.ret (h₂.2 ?_)
  have hleg : s₁.closeLeg = s.closeLeg := hreach₁.closeLeg_eq
  rw [hleg]; exact hblocked

end Finalize

end CryptoPilot.Live
