/- # ExecutorLabels — every execution is labelled as its order was posted.

`_sync_venue_order` labels an execution by the phase its intent is in, not by the order.  The label
is right because an order is posted GTX exactly in the passive phase, and the phase turns only when
no order is active and none is of unknown fate. -/
import CryptoPilot.Live.ExecutorContracts
import CryptoPilot.Live.ExecutorJournal

namespace CryptoPilot.Live

open CryptoPilot.Lib

def JournalFill.isMaker (f : JournalFill) : Bool := decide (f.liquidity = "maker")

/-- The order was posted for the intent at `owner`, GTX exactly if `gtx`. -/
def PostedAs (trace : List Event) (owner : ℕ) (orderId : String) (gtx : Prop) : Prop :=
  ∃ p ∈ trace, ∃ tag params, p.call = .newOrder tag params ∧ tag.owner = owner ∧
    params.newClientOrderId = orderId ∧ (params.timeInForce = .gtx ↔ gtx)

/-- The order of an execution was posted, a live one under the label the execution carries; the
immediate taker's executions name none. -/
def PostedFor (trace : List Event) (f : JournalFill) : Prop :=
  (f.simulated = true ∧ f.clientOrderId = none) ∨
    ∃ owner orderId gtx, f.clientOrderId = some orderId ∧ PostedAs trace owner orderId gtx ∧
      (f.simulated = false → (gtx ↔ f.isMaker = true))

/-- **A labelled run.** -/
structure Labelled {n : ℕ} (r : AbsRun n) : Prop where
  ids : IdsKept r.sys
  held : ∀ i orderId, (r.cores i).Holds orderId →
    PostedAs r.trace (r.cores i).index orderId ((r.cores i).phase = .passive)
  booked : ∀ e ∈ r.trace, ∀ f : JournalFill, e.Logs (.fill f) → PostedFor r.trace f

/-! ## One move -/

section Moves

variable {c : ExecConfig} {timed : Bool} {a a' : Abs} {e : Event} {trace trace' : List Event}
  {orderId : String} {gtx : Prop} {owner : ℕ}

theorem PostedAs.mono (h : PostedAs trace owner orderId gtx) (hsub : trace ⊆ trace') :
    PostedAs trace' owner orderId gtx := by
  obtain ⟨p, hp, hpost⟩ := h; exact ⟨p, hsub hp, hpost⟩

theorem PostedFor.cons {f : JournalFill} (h : PostedFor trace f) : PostedFor (e :: trace) f :=
  h.imp_right fun ⟨owner, orderId, gtx, hid, hposted, hlabel⟩ =>
    ⟨owner, orderId, gtx, hid, hposted.mono (List.subset_cons_self e trace), hlabel⟩

theorem isMaker_iff {f : JournalFill} {phase : Phase}
    (h : f.liquidity = (if phase = .passive then Liquidity.maker else .taker).text) :
    f.isMaker = true ↔ phase = .passive := by
  rw [JournalFill.isMaker, h]
  cases phase <;> decide

theorem Step.heldAs (hs : Step c timed a a') (h : ∀ orderId, a.core.Holds orderId →
      PostedAs a.trace a.core.index orderId (a.core.phase = .passive)) :
    ∀ orderId, a'.core.Holds orderId →
      PostedAs a'.trace a'.core.index orderId (a'.core.phase = .passive) := by
  have hholds : ∀ orderId, a'.core.Holds orderId → a.core.Holds orderId := fun _ => hs.holds
  have hsub : a.trace ⊆ a'.trace := hs.trace_suffix.subset
  cases hs with
  | escalate noActive noUnresolved =>
    rintro orderId (hactive | hunresolved)
    · rw [show a.core.activeId = some orderId from hactive] at noActive; cases noActive
    · rw [show a.core.unresolvedId = some orderId from hunresolved] at noUnresolved
      cases noUnresolved
  | _ => exact fun orderId hid => (h orderId (hholds orderId hid)).mono hsub

/-- An execution that a move of the intent journals is of an order that it holds, a live one
labelled by its phase. -/
theorem Step.journals (hs : Step c timed a a') : a'.trace = a.trace ∨
    ∃ e : Event, a'.trace = e :: a.trace ∧ e.PostsNothing ∧ ∀ f : JournalFill, e.Logs (.fill f) →
      ∃ orderId, f.clientOrderId = some orderId ∧ a.core.Holds orderId ∧
        (f.simulated = false → (f.isMaker = true ↔ a.core.phase = .passive)) := by
  have hother : ∀ {e : Event} {record : Record}, e.Logs record → ∀ f, e.Logs (.fill f) → record = .fill f :=
    fun hlogs f hfill => Call.append.inj (hlogs.1.symm.trans hfill.1)
  cases hs with
  | heard quiet =>
    exact .inr ⟨_, rfl, Event.postsNothing_of_quiet quiet,
      fun f hfill => absurd hfill (not_logs_of_quiet quiet _)⟩
  | failedAppend call failed =>
    exact .inr ⟨_, rfl, Event.postsNothing_of_call call rfl, fun f hfill => absurd hfill.2 failed⟩
  | tick call =>
    refine .inr ⟨_, rfl, Event.postsNothing_of_call call rfl, fun f hfill => ?_⟩
    rw [hfill.1] at call; cases call
  | schema logs | submit logs | terminal cause logs =>
    exact .inr ⟨_, rfl, logs.postsNothing, fun f hfill => by cases hother logs f hfill⟩
  | @paperFill e f orderId q active paper pos bounded logs cumulative simulated seq id =>
    refine .inr ⟨e, rfl, logs.postsNothing, fun f' hfill => ?_⟩
    obtain rfl := Record.fill.inj (hother logs f' hfill)
    refine ⟨orderId, id, .inl active, fun hreal => ?_⟩
    rw [hreal] at simulated; cases simulated
  | @bookFill e r f orderId x active live mem report new bounded logs id qty cumulative real seq fresh label =>
    refine .inr ⟨e, rfl, logs.postsNothing, fun f' hfill => ?_⟩
    obtain rfl := Record.fill.inj (hother logs f' hfill)
    exact ⟨orderId, id, .inl active, fun _ => isMaker_iff label⟩
  | _ => exact .inl rfl

theorem Step.idsKept (hs : Step c timed a a') (h : IdsKept a.sys) : IdsKept a'.sys := by
  cases hs with
  | heard quiet => exact h.hear (Event.postsNothing_of_quiet quiet) (not_logs_of_quiet quiet)
  | failedAppend call failed =>
    exact h.hear (Event.postsNothing_of_call call rfl) fun _ hlogs => failed hlogs.2
  | tick call =>
    refine h.hear (Event.postsNothing_of_call call rfl) fun _ hlogs => ?_
    rw [hlogs.1] at call; cases call
  | schema logs => exact h.note logs (by rintro s ⟨⟩)
  | submit logs seq id => exact h.submit logs seq id
  | bookFill _ _ _ _ _ _ logs | paperFill _ _ _ _ logs | terminal cause logs =>
    exact h.note logs (by rintro s ⟨⟩)
  | _ => exact h

theorem Core.afterReply_phase (k : Core) (q now : ℚ) (reply : Reply) :
    (k.afterReply orderId q now reply).phase = k.phase := by
  unfold Core.afterReply
  split <;> rfl

theorem Send.heldAs (hs : Send c e a a') : ∀ orderId, a'.core.Holds orderId →
    PostedAs a'.trace a'.core.index orderId (a'.core.phase = .passive) := by
  obtain ⟨tag, params, hready, rfl⟩ := hs
  intro orderId hid
  have hphase : (a.afterSend e params).core.phase = a.core.phase := Core.afterReply_phase ..
  have hindex : (a.afterSend e params).core.index = a.core.index := Core.afterReply_index ..
  rw [hphase, hindex]
  rcases Core.afterReply_holds hid with rfl | hactive | hunresolved
  · exact ⟨e, List.mem_cons_self, tag, params, hready.call, hready.owner, rfl, hready.phase⟩
  · rw [hready.noActive] at hactive; cases hactive
  · rw [hready.noUnresolved] at hunresolved; cases hunresolved

theorem Send.idsKept (hs : Send c e a a') (h : IdsKept a.sys) : IdsKept a'.sys := by
  obtain ⟨tag, params, hready, rfl⟩ := hs
  obtain ⟨e₀, s, rest, htrace, hlogs, hid, -⟩ := hready.journaled
  exact h.post hready.call ⟨e₀, rest, htrace, s, hlogs, hid⟩

end Moves

/-! ## Whole runs -/

section Runs

variable {n : ℕ} {c : ExecConfig} {intents : Fin n → OrderIntent} {r r' : AbsRun n} {i : Fin n}

/-- An execution journaled around the intents is the immediate taker's. -/
theorem Ambient.journals (hmove : Ambient r r') : ∃ e : Event, r'.trace = e :: r.trace ∧
    e.PostsNothing ∧ (∀ f : JournalFill, e.Logs (.fill f) → f.simulated = true ∧ f.clientOrderId = none) ∧
    (IdsKept r.sys → IdsKept r'.sys) := by
  cases hmove with
  | @heard e quiet =>
    have hnot : ∀ record, ¬ e.Logs record := by
      intro record hlogs
      rcases quiet with hquiet | hbooks
      · exact not_logs_of_quiet hquiet record hlogs
      · rw [hlogs.1] at hbooks; cases hbooks
    have hnothing : e.PostsNothing := quiet.elim Event.postsNothing_of_quiet
      fun hbooks => Event.postsNothing_of_call hbooks rfl
    exact ⟨e, rfl, hnothing, fun f hfill => absurd hfill (hnot _), fun h => h.hear hnothing hnot⟩
  | failedAppend call failed =>
    have hnothing := Event.postsNothing_of_call call rfl
    exact ⟨_, rfl, hnothing, fun f hfill => absurd hfill.2 failed,
      fun h => h.hear hnothing fun _ hlogs => failed hlogs.2⟩
  | tick call =>
    have hnot : ∀ record, ¬ Event.Logs _ record := fun record hlogs => by cases call.symm.trans hlogs.1
    have hnothing := Event.postsNothing_of_call call rfl
    exact ⟨_, rfl, hnothing, fun f hfill => absurd hfill (hnot _), fun h => h.hear hnothing hnot⟩
  | schema logs =>
    refine ⟨_, rfl, logs.postsNothing, fun f hfill => ?_, fun h => h.note logs (by rintro s ⟨⟩)⟩
    cases Call.append.inj (logs.1.symm.trans hfill.1)
  | simulatedFill logs simulated cumulative seq id =>
    refine ⟨_, rfl, logs.postsNothing, fun f hfill => ?_, fun h => h.note logs (by rintro s ⟨⟩)⟩
    rw [← Record.fill.inj (Call.append.inj (logs.1.symm.trans hfill.1))]; exact ⟨simulated, id⟩

theorem Labelled.booked_cons {e : Event} (h : Labelled r)
    (he : ∀ f : JournalFill, e.Logs (.fill f) → PostedFor r.trace f) :
    ∀ e' ∈ e :: r.trace, ∀ f : JournalFill, e'.Logs (.fill f) → PostedFor (e :: r.trace) f := by
  intro e' he' f hlogs
  rcases List.mem_cons.mp he' with rfl | he'
  · exact (he f hlogs).cons
  · exact (h.booked e' he' f hlogs).cons

theorem Labelled.ambient (h : Labelled r) (hmove : Ambient r r') : Labelled r' := by
  have hcores : r'.cores = r.cores := by cases hmove <;> rfl
  obtain ⟨e, htrace, -, hfill, hids⟩ := hmove.journals
  refine ⟨hids h.ids, fun i orderId hid => ?_, ?_⟩
  · rw [hcores] at hid ⊢
    exact (h.held i orderId hid).mono (by rw [htrace]; exact List.subset_cons_self e r.trace)
  · rw [htrace]; exact h.booked_cons fun f hlogs => .inl (hfill f hlogs)

theorem Labelled.others {R : Abs → Abs → Prop} (h : Labelled r) (hmoves : r.Moves R i r')
    (hsub : r.trace ⊆ r'.trace) (hown : ∀ orderId, (r'.cores i).Holds orderId →
      PostedAs r'.trace (r'.cores i).index orderId ((r'.cores i).phase = .passive)) :
    ∀ j orderId, (r'.cores j).Holds orderId →
      PostedAs r'.trace (r'.cores j).index orderId ((r'.cores j).phase = .passive) := by
  intro j orderId hid
  by_cases hji : j = i
  · subst hji; exact hown orderId hid
  · rw [hmoves.others j hji] at hid ⊢; exact (h.held j orderId hid).mono hsub

/-- **A move of one intent keeps the labels.** -/
theorem Labelled.step (h : Labelled r) (hmoves : r.Moves (Step c true) i r') : Labelled r' := by
  refine ⟨hmoves.own.idsKept h.ids, ?_, ?_⟩
  · exact h.others hmoves hmoves.own.trace_suffix.subset (hmoves.own.heldAs (h.held i))
  · rcases hmoves.own.journals with heq | ⟨e, heq, -, hfill⟩
    · rw [show r'.trace = r.trace from heq]; exact h.booked
    · rw [show r'.trace = e :: r.trace from heq]
      refine h.booked_cons fun f hlogs => .inr ?_
      obtain ⟨orderId, hid, hholds, hmaker⟩ := hfill f hlogs
      exact ⟨_, orderId, _, hid, h.held i orderId hholds, fun hreal => (hmaker hreal).symm⟩

theorem Labelled.send {e : Event} (h : Labelled r) (hmoves : r.Moves (Send c e) i r') : Labelled r' := by
  have htrace : r'.trace = e :: r.trace := by
    obtain ⟨tag, params, -, heq⟩ := hmoves.own; exact congrArg Abs.trace heq
  refine ⟨hmoves.own.idsKept h.ids, ?_, ?_⟩
  · exact h.others hmoves (by rw [htrace]; exact List.subset_cons_self e r.trace) hmoves.own.heldAs
  · rw [htrace]
    refine h.booked_cons fun f hlogs => ?_
    obtain ⟨tag, params, hready, -⟩ := hmoves.own
    exact absurd hlogs (not_logs_of_newOrder hready.call _)

theorem Labelled.start {r : AbsRun n} (htrace : r.trace = [])
    (hfree : ∀ i orderId, ¬ (r.cores i).Holds orderId) : Labelled r := by
  refine ⟨⟨?_, ?_, ?_⟩, fun i orderId hholds => absurd hholds (hfree i orderId), fun e he => ?_⟩
  · rintro orderId ⟨e, he, -⟩
    rw [show r.sys.trace = [] from htrace] at he; cases he
  · rw [show r.sys.trace = [] from htrace]; exact .nil
  · intro newer p pre hsplit
    rw [show r.sys.trace = [] from htrace] at hsplit
    cases newer <;> cases hsplit
  · rw [htrace] at he; cases he

end Runs

/-- **The label of every journaled execution.**  Its order was posted in the run, GTX exactly if the
execution is a maker's. -/
def FillsLabelled (trace : List Event) : Prop :=
  ∀ e ∈ trace, ∀ f : JournalFill, e.Logs (.fill f) → f.simulated = false →
    ∃ orderId, f.clientOrderId = some orderId ∧ (∃ p ∈ trace, p.PostsOrder orderId) ∧
      ∀ p ∈ trace, ∀ tag params, p.call = .newOrder tag params → params.newClientOrderId = orderId →
        (f.isMaker = true ↔ params.timeInForce = .gtx)

theorem Labelled.fillsLabelled {n : ℕ} {r : AbsRun n} (h : Labelled r) : FillsLabelled r.trace := by
  intro e he f hlogs hreal
  rcases h.booked e he f hlogs with ⟨hsim, -⟩ | ⟨owner, orderId, gtx, hid,
    ⟨p, hp, tag, params, hcall, -, hposted, hgtx⟩, hlabel⟩
  · rw [hreal] at hsim; cases hsim
  refine ⟨orderId, hid, ⟨p, hp, tag, params, hcall, hposted⟩, fun q hq tag' params' hcall' hposted' => ?_⟩
  -- an id is posted once
  obtain rfl := h.ids.post_unique hp hq ⟨tag, params, hcall, hposted⟩ ⟨tag', params', hcall', hposted'⟩
  obtain ⟨rfl, rfl⟩ := Call.newOrder.inj (hcall.symm.trans hcall')
  exact (hgtx.trans (hlabel hreal)).symm

/-- **Every execution that `execute_intents` journals of an order is labelled as the order was
posted**, from any journal and whatever the venue answers, however the run ends. -/
theorem executeRun_fillsLabelled (c : ExecConfig) (intents : List OrderIntent) (journal : Journal)
    (script : List EnvStep) :
    FillsLabelled (executeRun c intents (World.fresh journal script)).2.w.trace := by
  have hrule : RunRule c intents.get Labelled Labelled :=
    RunRule.of_steps (fun hmove _ h => h.ambient hmove) (fun hmoves _ h => h.step hmoves)
      fun hmoves _ h => h.send hmoves
  have hstart : Labelled (initRun c intents (World.fresh journal script)).abs :=
    .start rfl fun i orderId hholds => by rcases hholds with hid | hid <;> cases hid
  exact (hrule.executeRun_keeps hstart).2.fillsLabelled

end CryptoPilot.Live
