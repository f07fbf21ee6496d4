/- # JournalMachine — what the live code can do to the order journal.

The executor, the orphan sweep and restart recovery all write ONE journal.  `SysMove` lists what any
of them can do to it and to the venue, with the guard the code has established; `Closure` is why an
order may be journaled terminal, and `relied` says which `-2013` answers a process takes for "never
placed". -/
import CryptoPilot.Live.OrderMachine
import CryptoPilot.Live.Recovery

namespace CryptoPilot.Live

open CryptoPilot.Lib Proc List

/-! ## The machine -/

structure Sys where
  journal : Journal
  trace : List Event

def World.sys (w : World) : Sys where
  journal := w.journal
  trace := w.trace

def Sys.hear (y : Sys) (e : Event) : Sys := { y with trace := e :: y.trace }

def Sys.log (y : Sys) (e : Event) (record : Record) : Sys where
  journal := y.journal.apply record
  trace := e :: y.trace

def Record.inert : Record → Bool
  | .schema | .attempt _ => true
  | _ => false

/-- The event journals the submission of `orderId`. -/
def Event.Submits (e : Event) (orderId : String) : Prop :=
  ∃ s, e.Logs (.submit s) ∧ s.clientOrderId = orderId

/-- The submission of `orderId` is in the journal. -/
def Submitted (trace : List Event) (orderId : String) : Prop := ∃ e ∈ trace, e.Submits orderId

theorem Submitted.of_suffix {trace trace' : List Event} {orderId : String}
    (h : Submitted trace orderId) (hsuffix : trace <:+ trace') : Submitted trace' orderId := by
  obtain ⟨e, he, hsubmits⟩ := h; exact ⟨e, hsuffix.subset he, hsubmits⟩

/-- Which misses of an order, heard after `pre`, a process takes for "never placed". -/
abbrev Reliance : Type := String → Event → List Event → Prop

def Sys.LastReported (y : Sys) (orderId : String) : Prop :=
  ∃ e payload, lastAnswer y.trace orderId = some e ∧ e.reply = .order payload

/-- **Why an order may be journaled terminal.** -/
inductive Closure (law : List Event → Prop) (relied : Reliance) (y : Sys) (t : JournalTerminal) : Prop where
  /-- the venue reported it closed, and all it executed is booked -/
  | closed {r : Event} {x : ℚ} (mem : r ∈ y.trace) (report : r.ReportsClosed t.clientOrderId x)
      (booked : law y.trace → x ≤ y.journal.observedQty t.clientOrderId)
      (last : y.LastReported t.clientOrderId)
  /-- all of it is booked -/
  | full {p : Event} {tag : OrderTag} {params : OrderParams} (mem : p ∈ y.trace)
      (call : p.call = .newOrder tag params) (id : params.newClientOrderId = t.clientOrderId)
      (booked : law y.trace → params.quantity ≤ y.journal.observedQty t.clientOrderId)
      (last : y.LastReported t.clientOrderId)
  /-- it was simulated -/
  | simulated {p : Event} {tag : OrderTag} {params : OrderParams} (mem : p ∈ y.trace)
      (call : p.call = .newOrder tag params) (id : params.newClientOrderId = t.clientOrderId)
      (reply : p.reply = .paper) (placed : t.status ≠ "NOT_PLACED" ∧ t.status ≠ orderNotFoundStatus)
  /-- its post was refused -/
  | refused {e : Event} {tag : OrderTag} {params : OrderParams} {exc : Exc}
      (last : lastAnswer y.trace t.clientOrderId = some e) (call : e.call = .newOrder tag params)
      (reply : e.reply = .error exc) (classed : classedRefused exc = true)
  /-- a miss is relied on -/
  | missed {e : Event} {newer pre : List Event} (split : y.trace = newer ++ e :: pre)
      (last : lastAnswer y.trace t.clientOrderId = some e) (misses : e.Misses t.clientOrderId)
      (submitted : Submitted pre t.clientOrderId) (relies : relied t.clientOrderId e pre)
  /-- the venue answered with the status NOT_FOUND, which it does not have -/
  | namedNotFound {e : Event} {payload : OrderPayload} (mem : e ∈ y.trace)
      (last : lastAnswer y.trace t.clientOrderId = some e) (reply : e.reply = .order payload)
      (status : payload.status = orderNotFoundStatus)

/-- The sweep and recovery book against the journal itself, whatever the venue does. -/
abbrev lawless : List Event → Prop := fun _ => True

theorem Closure.lawful {law : List Event → Prop} {relied : Reliance} {y : Sys} {t : JournalTerminal}
    (h : Closure lawless relied y t) : Closure law relied y t := by
  cases h with
  | closed mem report booked last => exact .closed mem report (fun _ => booked trivial) last
  | full mem call id booked last => exact .full mem call id (fun _ => booked trivial) last
  | simulated mem call id reply placed => exact .simulated mem call id reply placed
  | refused last call reply classed => exact .refused last call reply classed
  | missed split last misses submitted relies => exact .missed split last misses submitted relies
  | namedNotFound mem last reply status => exact .namedNotFound mem last reply status

/-- **What the live code can do to the journal and to the venue.** -/
inductive SysMove (law : List Event → Prop) (relied : Reliance) : Sys → Sys → Prop where
  | hear {y : Sys} {e : Event} (nothing : e.PostsNothing) (unlogged : ∀ record, ¬ e.Logs record) :
      SysMove law relied y (y.hear e)
  | note {y : Sys} {e : Event} {record : Record} (inert : record.inert = true) (logs : e.Logs record) :
      SysMove law relied y (y.log e record)
  | submit {y : Sys} {e : Event} {s : JournalSubmit} {sha256 : Digest} {runId symbol : String}
      {leg : ℕ} (logs : e.Logs (.submit s)) (seq : s.submitSeq = y.journal.nextSubmitSeq)
      (id : buildClientOrderId sha256 runId symbol leg 0 y.journal.nextSubmitSeq = .ok s.clientOrderId) :
      SysMove law relied y (y.log e (.submit s))
  | post {y : Sys} {e : Event} {tag : OrderTag} {params : OrderParams}
      (call : e.call = .newOrder tag params)
      (journaled : ∃ e₀ rest, y.trace = e₀ :: rest ∧ e₀.Submits params.newClientOrderId) :
      SysMove law relied y (y.hear e)
  | fill {y : Sys} {e r : Event} {f : JournalFill} {orderId : String} {x : ℚ} (logs : e.Logs (.fill f))
      (id : f.clientOrderId = some orderId) (real : f.simulated = false)
      (cumulative : f.cumulativeExecutedQty = some x) (fresh : y.journal.observedQty orderId < x)
      (mem : r ∈ y.trace) (report : r.Reports orderId x)
      (qty : law y.trace → f.quantity = x - y.journal.observedQty orderId) :
      SysMove law relied y (y.log e (.fill f))
  | simulatedFill {y : Sys} {e : Event} {f : JournalFill} (logs : e.Logs (.fill f))
      (simulated : f.simulated = true) (cumulative : f.cumulativeExecutedQty = none) :
      SysMove law relied y (y.log e (.fill f))
  | terminal {y : Sys} {e : Event} {t : JournalTerminal} (logs : e.Logs (.terminal t))
      (closure : Closure law relied y t) : SysMove law relied y (y.log e (.terminal t))

abbrev SysReach (law : List Event → Prop) (relied : Reliance) : Sys → Sys → Prop :=
  Relation.ReflTransGen (SysMove law relied)

section Reach

variable {law : List Event → Prop} {relied : Reliance} {y y' : Sys}

theorem SysReach.keeps {P : Sys → Prop} (hmove : ∀ {y y' : Sys}, SysMove law relied y y' → P y → P y')
    (h : SysReach law relied y y') (hy : P y) : P y' := by
  induction h with
  | refl => exact hy
  | tail _ hlast ih => exact hmove hlast ih

theorem SysMove.trace_cons (h : SysMove law relied y y') : ∃ e, y'.trace = e :: y.trace := by
  cases h <;> exact ⟨_, rfl⟩

theorem SysReach.trace_suffix (h : SysReach law relied y y') : y.trace <:+ y'.trace := by
  refine h.keeps (P := fun x => y.trace <:+ x.trace) (fun hm hx => ?_) suffix_rfl
  obtain ⟨e, he⟩ := hm.trace_cons
  rw [he]; exact hx.trans (suffix_cons _ _)

end Reach

/-! ## World programs along the machine -/

/-- `w'` is `w` after moves of the machine. -/
def Recovers (law : List Event → Prop) (relied : Reliance) (w w' : World) : Prop :=
  SysReach law relied w.sys w'.sys

instance (law : List Event → Prop) (relied : Reliance) : IsPreorder World (Recovers law relied) where
  refl := fun _ => Relation.ReflTransGen.refl
  trans := fun _ _ _ h h' => Relation.ReflTransGen.trans h h'

/-- The journal is untouched and nothing new was heard about any order. -/
structure Unmoved (w w' : World) : Prop where
  journal : w'.journal = w.journal
  answers : ∀ orderId, lastAnswer w'.trace orderId = lastAnswer w.trace orderId

theorem Unmoved.trans {w w' w'' : World} (h : Unmoved w w') (h' : Unmoved w' w'') : Unmoved w w'' :=
  ⟨h'.journal.trans h.journal, fun orderId => (h'.answers orderId).trans (h.answers orderId)⟩

section Programs

variable {law : List Event → Prop} {relied : Reliance} {w w' : World} {call : Call} {orderId : String}

theorem Recovers.suffix (h : Recovers law relied w w') : w.trace <:+ w'.trace := SysReach.trace_suffix h

variable {e : Event}

theorem not_logs_of_quiet (h : e.call.quiet = true) (record : Record) : ¬ e.Logs record := by
  intro hlogs
  rw [hlogs.1] at h; cases h

theorem recovers_of_heard (hw : w.Heard call e w') (hq : call.quiet = true) :
    Recovers law relied w w' := by
  have hsys : w'.sys = w.sys.hear e := by
    simp only [World.sys, Sys.hear, hw.trace, hw.journal]
  have hquiet : e.call.quiet = true := by rw [hw.call]; exact hq
  rw [Recovers, hsys]
  exact .single (.hear (Event.postsNothing_of_quiet hquiet) (not_logs_of_quiet hquiet))

theorem unmoved_of_heard (hw : w.Heard call e w') (hm : call.mute) : Unmoved w w' := by
  refine ⟨hw.journal, fun id => ?_⟩
  rw [hw.trace]; exact lastAnswer_cons (by rw [hw.call]; exact hm.2 id)

theorem along_command (hm : call.mute) : Along (Recovers law relied)
    (command call) w (fun _ w' => Unmoved w w') := by
  refine wp_command (refl_of (Recovers law relied) w) (fun e w' hw _ => ?_) (fun e w' exc hw _ => ?_)
  · exact ⟨recovers_of_heard hw hm.1, unmoved_of_heard hw hm⟩
  · exact recovers_of_heard hw hm.1

theorem along_audit (kind : AuditKind) :
    Along (Recovers law relied) (auditRecord kind) w (fun _ w' => Unmoved w w') :=
  along_command ⟨rfl, fun _ => rfl⟩

theorem along_clockOffsetMarginMs : Along (Recovers law relied) clockOffsetMarginMs w (fun _ w' =>
    Unmoved w w') := by
  refine wp_readAttr (refl_of (Recovers law relied) w) fun _ e w' hw => ?_
  exact ⟨recovers_of_heard hw rfl, unmoved_of_heard hw ⟨rfl, fun _ => rfl⟩⟩

theorem along_utcNow : Along (Recovers law relied) utcNow w (fun _ w' => Unmoved w w') := by
  refine wp_utcNow (refl_of (Recovers law relied) w) fun e w' hw => ?_
  exact ⟨recovers_of_heard hw rfl, unmoved_of_heard hw ⟨rfl, fun _ => rfl⟩⟩

theorem along_appendRecord {record : Record}
    (h : ∀ e : Event, e.Logs record → SysMove law relied w.sys (w.sys.log e record)) :
    Along (Recovers law relied) (appendRecord record) w (fun _ w' =>
      w'.journal = w.journal.apply record ∧
      ∀ id, lastAnswer w'.trace id = lastAnswer w.trace id) := by
  refine wp_appendRecord (refl_of (Recovers law relied) w) (fun e w' hw => ?_)
    (fun e w' exc hw hr => ?_)
  · have hsys : w'.sys = w.sys.log e record := by
      simp only [World.sys, Sys.log, hw.trace, hw.journal]
    refine ⟨?_, hw.journal, fun id => ?_⟩
    · rw [Recovers, hsys]; exact .single (h e ⟨hw.call, hw.reply⟩)
    · rw [hw.trace]; exact lastAnswer_cons (by rw [hw.call]; rfl)
  · have hsys : w'.sys = w.sys.hear e := by
      simp only [World.sys, Sys.hear, hw.trace, hw.journal]
    rw [Recovers, hsys]
    refine .single (.hear (Event.postsNothing_of_call hw.call rfl) fun record' hlogs => ?_)
    rw [hlogs.2] at hr; cases hr

theorem along_ensureV2Schema : Along (Recovers law relied) ensureV2Schema w (fun _ w' =>
    SameJournal w.journal w'.journal ∧ ∀ id, lastAnswer w'.trace id = lastAnswer w.trace id) := by
  refine Along.readState (Along.branch (fun _ => Along.ret ⟨.inl rfl, fun _ => rfl⟩) fun _ => ?_)
  exact (along_appendRecord fun e he => .note rfl he).mono fun _ w' _ h => ⟨.inr h.1, h.2⟩

theorem along_beginAttempt {context : AttemptContext} :
    Along (Recovers law relied) (beginAttempt context) w (fun _ _ => True) := by
  refine Along.readState (Along.bind along_ensureV2Schema fun _ w₁ _ _ => ?_)
  exact Along.bind (along_appendRecord fun e he => .note rfl he) fun _ _ _ _ => Along.ret trivial

variable {t : JournalTerminal}

theorem Closure.later (h : Closure lawless relied w.sys t)
    (hjournal : SameJournal w.journal w'.journal)
    (hanswers : ∀ id, lastAnswer w'.trace id = lastAnswer w.trace id)
    (hsuffix : w.trace <:+ w'.trace) : Closure lawless relied w'.sys t := by
  have hobserved : w'.journal.observedQty t.clientOrderId = w.journal.observedQty t.clientOrderId :=
    hjournal.observedQty_eq _
  have hlast : w.sys.LastReported t.clientOrderId → w'.sys.LastReported t.clientOrderId := by
    rintro ⟨e, payload, hlast, hreply⟩; exact ⟨e, payload, (hanswers _).trans hlast, hreply⟩
  cases h with
  | closed mem report booked last =>
    exact .closed (hsuffix.subset mem) report (fun h => (booked h).trans_eq hobserved.symm) (hlast last)
  | full mem call id booked last =>
    exact .full (hsuffix.subset mem) call id (fun h => (booked h).trans_eq hobserved.symm) (hlast last)
  | simulated mem call id reply placed => exact .simulated (hsuffix.subset mem) call id reply placed
  | refused last call reply classed => exact .refused ((hanswers _).trans last) call reply classed
  | @missed e newer pre split last misses submitted relies =>
    obtain ⟨later, hlater⟩ := hsuffix
    have hsplit : w'.trace = (later ++ newer) ++ e :: pre := by
      rw [append_assoc, ← split]; exact hlater.symm
    exact .missed hsplit ((hanswers _).trans last) misses submitted relies
  | namedNotFound mem last reply status =>
    exact .namedNotFound (hsuffix.subset mem) ((hanswers _).trans last) reply status

theorem along_recordTerminal {status : String}
    (h : ∀ t : JournalTerminal, t.clientOrderId = orderId → Closure lawless relied w.sys t) :
    Along (Recovers law relied) (recordTerminal orderId status) w (fun _ _ => True) := by
  refine Along.bind along_utcNow fun recordedAt w₁ hreach₁ h₁ => ?_
  refine Along.bind along_ensureV2Schema fun _ w₂ hreach₂ h₂ => ?_
  have hclosure : ∀ t : JournalTerminal, t.clientOrderId = orderId → Closure lawless relied w₂.sys t := by
    intro t hid
    exact ((h t hid).later (.inl h₁.journal) h₁.answers hreach₁.suffix).later h₂.1 h₂.2 hreach₂.suffix
  refine (along_appendRecord fun e he => .terminal he (hclosure _ rfl).lawful).mono ?_
  exact fun _ _ _ _ => trivial

theorem along_recordFill {draft : FillDraft} {r : Event} {x : ℚ} (hmem : r ∈ w.trace)
    (hreport : r.Reports orderId x) (hid : draft.clientOrderId = some orderId)
    (hcum : draft.cumulativeExecutedQty = some x) (hreal : draft.simulated = false)
    (hqty : draft.quantity = x - w.journal.observedQty orderId) :
    Along (Recovers law relied) (recordFill draft) w (fun _ w' =>
      x ≤ w'.journal.observedQty orderId ∧
      ∀ id, lastAnswer w'.trace id = lastAnswer w.trace id) := by
  refine Along.readState (Along.fallible fun f hf => ?_)
  obtain ⟨hf, -, hfresh⟩ := Journal.newFill_eq_ok hf
  refine Along.bind along_ensureV2Schema fun _ w₁ hreach₁ h₁ => ?_
  have hobserved : w₁.journal.observedQty orderId = w.journal.observedQty orderId := h₁.1.observedQty_eq _
  have hmove : ∀ e : Event, e.Logs (.fill f) →
      SysMove law relied w₁.sys (w₁.sys.log e (.fill f)) := by
    intro e he
    refine .fill he (by rw [hf]; exact hid) (by rw [hf]; exact hreal) (by rw [hf]; exact hcum) ?_
      (hreach₁.suffix.subset hmem) hreport fun _ => ?_
    · rw [World.sys, hobserved]; exact hfresh x orderId hcum hid
    · rw [hf]; exact hqty.trans (by rw [World.sys, hobserved])
  refine Along.bind (along_appendRecord hmove) fun _ w₂ _ h₂ => Along.ret ⟨?_, fun id => ?_⟩
  · rw [h₂.1]; exact Journal.le_observedQty_fill (by rw [hf]; exact hid) (by rw [hf]; exact hcum)
  · exact (h₂.2 id).trans (h₁.2 id)

/-- A query after `start` was the last thing heard of an order: it reported `payload`, or missed. -/
structure Answered (start : List Event) (w : World) (orderId : String) (found : Option OrderPayload) : Prop where
  answer : ∃ e symbol newer pre, w.trace = newer ++ e :: pre ∧ start <:+ pre ∧
    lastAnswer w.trace orderId = some e ∧ e.call = .queryOrder symbol orderId ∧
    (∀ payload, found = some payload → e.reply = .order payload) ∧ (found = none → e.Misses orderId)

variable {start : List Event} {found : Option OrderPayload} {payload : OrderPayload}

theorem Answered.later
    (h : Answered start w orderId found) (hsuffix : w.trace <:+ w'.trace)
    (hanswers : ∀ id, lastAnswer w'.trace id = lastAnswer w.trace id) : Answered start w' orderId found := by
  obtain ⟨e, symbol, newer, pre, hsplit, hstart, hlast, h⟩ := h.answer
  obtain ⟨later, hlater⟩ := hsuffix
  refine ⟨e, symbol, later ++ newer, pre, ?_, hstart, (hanswers _).trans hlast, h⟩
  rw [← hlater, hsplit, append_assoc]

theorem along_queryIfKnown {symbol : String} :
    Along (Recovers law relied) (queryIfKnown symbol orderId) w (fun found w' =>
      Answered w.trace w' orderId found ∧ w'.journal = w.journal) := by
  have hanswered : ∀ {e w'} {found : Option OrderPayload},
      w.Heard (.queryOrder symbol orderId) e w' →
      (∀ payload, found = some payload → e.reply = .order payload) →
      (found = none → e.Misses orderId) →
      Answered w.trace w' orderId found ∧ w'.journal = w.journal := by
    intro e w' found hw hfound hmiss
    refine ⟨⟨e, symbol, [], w.trace, hw.trace, suffix_rfl, ?_, hw.call, hfound, hmiss⟩, hw.journal⟩
    rw [hw.trace]; exact lastAnswer_cons_self (by rw [hw.call]; exact decide_eq_true rfl)
  rw [queryIfKnown, Along, wp_tryCatch, wp_map]
  refine wp_request (refl_of (Recovers law relied) w) (fun payload e w' hw hr => ?_)
    (fun e w' exc hw hr => ?_) (fun e w' hw => recovers_of_heard hw rfl)
  · refine ⟨recovers_of_heard hw rfl, hanswered hw (fun p hp => ?_) (by simp)⟩
    cases hp
    cases hrep : e.reply <;> simp_all [Reply.asOrder]
  · have hreach : Recovers law relied w w' := recovers_of_heard hw rfl
    split
    · next code http =>
      rw [wp_ite]
      refine ⟨fun hcode => ⟨hreach, hanswered hw (by simp) fun _ => ⟨symbol, http, hw.call, ?_⟩⟩, fun _ => hreach⟩
      rw [hr, hcode]
    · exact hreach

structure Confirmed (start : List Event) (w : World) (orderId : String)
    (confirmation : CancelConfirmation) : Prop where
  answered : Answered start w orderId confirmation.payload
  missed : confirmation.payload = none → confirmation.status = orderNotFoundStatus
  reported : ∀ payload, confirmation.payload = some payload →
    confirmation.status = payload.status ∧ payload.status ≠ "" ∧
    confirmation.closed = !isOpenStatus payload.status

theorem Answered.of_suffix {start start' : List Event}
    (h : Answered start w orderId found) (hsuffix : start' <:+ start) : Answered start' w orderId found := by
  obtain ⟨e, symbol, newer, pre, hsplit, hstart, h⟩ := h.answer
  exact ⟨e, symbol, newer, pre, hsplit, hsuffix.trans hstart, h⟩

theorem along_cancelAndConfirm {symbol : String} :
    Along (Recovers law relied) (cancelAndConfirm symbol orderId) w
      (fun confirmation w' => Confirmed w.trace w' orderId confirmation) := by
  have hcancel : Along (Recovers law relied)
      (Proc.tryCatch (cancelOrder symbol orderId) tolerateCancelError) w (fun _ _ => True) := by
    refine Along.catching ((along_command ⟨rfl, fun _ => rfl⟩).mono fun _ _ _ _ => trivial)
      fun exc w' _ => ?_
    unfold tolerateCancelError
    split
    · exact Along.branch (fun _ => Along.ret trivial) fun _ => Along.raise
    · exact Along.ret trivial
    · exact Along.raise
  refine Along.bind hcancel fun _ w₁ hreach₁ _ => ?_
  refine Along.bind along_queryIfKnown fun found w₂ _ h₂ => ?_
  have hanswered := h₂.1.of_suffix hreach₁.suffix
  cases found with
  | none => exact Along.ret ⟨hanswered, fun _ => rfl, nofun⟩
  | some payload =>
    by_cases hstatus : payload.status = ""
    · simp only [if_pos hstatus]; exact Along.raise
    · simp only [if_neg hstatus]
      refine Along.ret ⟨hanswered, nofun, fun p hp => ?_⟩
      cases hp; exact ⟨rfl, hstatus, rfl⟩

theorem closure_of_answered {x : ℚ} (h : Answered start w t.clientOrderId (some payload))
    (hx : payload.executedQty = .value x) (hstatus : payload.status ≠ "")
    (hclosed : isOpenStatus payload.status = false)
    (hbooked : x ≤ w.journal.observedQty t.clientOrderId) : Closure lawless relied w.sys t := by
  obtain ⟨e, symbol, newer, pre, hsplit, -, hlast, hcall, hfound, -⟩ := h.answer
  have hreply := hfound payload rfl
  have hmem : e ∈ w.trace := by rw [hsplit]; simp
  refine .closed hmem ⟨symbol, payload, hcall, hreply, ?_, hstatus, hclosed⟩ (fun _ => hbooked)
    ⟨e, payload, hlast, hreply⟩
  rw [hx]; rfl

theorem reports_of_answered {x : ℚ}
    (h : Answered start w orderId (some payload)) (hx : payload.executedQty = .value x) :
    ∃ r ∈ w.trace, r.Reports orderId x := by
  obtain ⟨e, symbol, newer, pre, hsplit, -, -, hcall, hfound, -⟩ := h.answer
  refine ⟨e, by rw [hsplit]; simp, symbol, payload, hcall, hfound payload rfl, ?_⟩
  rw [hx]; rfl

end Programs

/-! ## The sweep -/

section Sweep

variable {law : List Event → Prop} {relied : Reliance} {c : SweepConfig} {w : World}
  {orderId symbol : String}

variable {sweep : OrphanSweep} {confirmation : CancelConfirmation}

theorem along_closeOrphan
    (h : confirmation.closed = true → ∀ t : JournalTerminal, t.clientOrderId = orderId →
      Closure lawless relied w.sys t) :
    Along (Recovers law relied) (closeOrphan sweep orderId symbol confirmation) w (fun _ _ => True) := by
  refine Along.branch (fun hclosed => ?_) fun _ => Along.ret trivial
  exact Along.bind (along_recordTerminal (h hclosed)) fun _ _ _ _ => Along.ret trivial

theorem along_settleOrphan {start : List Event} {entry : OpenOrder} {queried : OrderPayload}
    (hconf : Confirmed start w entry.clientOrderId confirmation) (hpayload : confirmation.payload = some queried) :
    Along (Recovers law relied) (settleOrphan c sweep entry symbol confirmation queried) w
      (fun _ _ => True) := by
  obtain ⟨hstatus, hnonempty, hclosed⟩ := hconf.reported queried hpayload
  have hanswered : Answered start w entry.clientOrderId (some queried) := hpayload ▸ hconf.answered
  have hclose : ∀ {w' : World} {x : ℚ}, w.trace <:+ w'.trace →
      (∀ id, lastAnswer w'.trace id = lastAnswer w.trace id) → queried.executedQty = .value x →
      x ≤ w'.journal.observedQty entry.clientOrderId → confirmation.closed = true →
      ∀ t : JournalTerminal, t.clientOrderId = entry.clientOrderId → Closure lawless relied w'.sys t := by
    intro w' x hsuffix hanswers hx hbooked hc t hid
    refine closure_of_answered (hid ▸ hanswered.later hsuffix hanswers) hx hnonempty ?_
      (hid ▸ hbooked)
    rw [hclosed] at hc; simpa using hc
  refine Along.readState ?_
  cases hx : queried.executedQty with
  | missing | invalid => exact Along.raise
  | value x =>
    refine Along.branch (fun hdelta => ?_) fun _ => ?_
    · exact along_closeOrphan (hclose suffix_rfl (fun _ => rfl) hx (by linarith))
    · split
      · next side price _ _ =>
        refine Along.branch (fun _ => Along.raise) fun _ =>
          Along.branch (fun _ => Along.raise) fun _ => ?_
        obtain ⟨r, hmem, hreport⟩ := reports_of_answered hanswered hx
        refine Along.bind (along_recordFill hmem hreport rfl rfl rfl rfl) fun fill w₁ hreach₁ h₁ => ?_
        refine Along.bind (along_audit _) fun _ w₂ hreach₂ h₂ => ?_
        refine along_closeOrphan (hclose (hreach₁.suffix.trans hreach₂.suffix)
          (fun id => (h₂.answers id).trans (h₁.2 id)) hx ?_)
        rw [h₂.journal]; exact h₁.1
      · exact Along.raise

theorem along_sweepOrphan {submits : Journal} {entry : OpenOrder} :
    Along (Recovers law relied) (sweepOrphan c submits sweep entry) w (fun _ _ => True) := by
  rw [sweepOrphan]
  cases entry.symbol with
  | none => exact Along.raise
  | some symbol =>
    refine Along.bind along_cancelAndConfirm fun confirmation w₁ _ hconf => ?_
    refine Along.branch (fun _ => ?_) fun _ => ?_
    · exact Along.bind (along_audit _) fun _ _ _ _ => Along.ret trivial
    · cases hpayload : confirmation.payload with
      | none => exact Along.raise
      | some queried =>
        refine Along.bind along_clockOffsetMarginMs fun margin w₂ hreach₂ h₂ => ?_
        refine Along.fallible fun _ _ => ?_
        refine Along.bind (along_audit _) fun _ w₃ hreach₃ h₃ => ?_
        have hanswered := hconf.answered.later (hreach₂.suffix.trans hreach₃.suffix)
          (h₂.trans h₃).answers
        exact along_settleOrphan ⟨hanswered, hconf.missed, hconf.reported⟩ hpayload

theorem along_sweepOrphans {submits : Journal} (entries : List OpenOrder) (sweep : OrphanSweep) :
    Along (Recovers law relied) (sweepOrphans c submits entries sweep) w (fun _ _ => True) := by
  induction entries generalizing w sweep with
  | nil => exact Along.ret trivial
  | cons entry rest ih =>
    exact Along.bind along_sweepOrphan fun next w' _ _ => ih next

/-- **The orphan sweep moves along the machine**, and relies on no miss. -/
theorem along_cancelOrphanOrders : Along (Recovers law relied) (cancelOrphanOrders c) w (fun _ _ => True) := by
  refine Along.readState ?_
  have hlisted : Along (Recovers law relied) openOrders w (fun _ _ => True) := by
    refine wp_request (refl_of (Recovers law relied) w)
      (fun _ e w' hw _ => ⟨recovers_of_heard hw rfl, trivial⟩)
      (fun e w' exc hw _ => recovers_of_heard hw rfl) (fun e w' hw => recovers_of_heard hw rfl)
  refine Along.bind hlisted fun entries w₁ _ _ => ?_
  refine Along.bind (Along.forEach (I := fun _ => True)
    (fun _ _ _ _ => (along_audit _).mono fun _ _ _ _ => trivial) trivial) fun _ w₂ _ _ => ?_
  exact along_sweepOrphans _ _

end Sweep

/-! ## Recovery and settlement -/

/-- Recovery relies on every miss it hears; `base` is the trace it started from. -/
def reliesAlways (base : List Event) : Reliance := fun _ _ pre => base <:+ pre

section Recover

variable {law : List Event → Prop} {relied : Reliance} {base : List Event} {c : RecoverConfig}
  {w : World} {orderId : String}

theorem venueDecimal_eq_ok {d : VenueDecimal} {x : ℚ} (h : venueDecimal d = .ok x) : d = .value x := by
  cases d with
  | value q => exact congrArg VenueDecimal.value (Except.ok.inj h)
  | missing | invalid => cases h

variable {order : UnresolvedOrder}

/-- `_book_recovered_delta` books all that the last answer reports, or returns with it booked
already. -/
theorem along_bookRecoveredDelta {start : List Event}
    {payload : OrderPayload} {tolerance : ℤ} {submit : Option JournalSubmit}
    (h : Answered start w order.clientOrderId (some payload)) :
    Along (Recovers law relied) (bookRecoveredDelta c order payload tolerance submit) w (fun _ w' =>
      ∃ x, payload.executedQty = .value x ∧ x ≤ w'.journal.observedQty order.clientOrderId ∧
        ∀ id, lastAnswer w'.trace id = lastAnswer w.trace id) := by
  refine Along.fallible fun _ _ => Along.fallible fun x hx => Along.readState ?_
  have hx : payload.executedQty = .value x := venueDecimal_eq_ok hx
  refine Along.branch (fun hdelta => Along.ret ⟨x, hx, by linarith, fun _ => rfl⟩) fun _ => ?_
  cases payload.side with
  | none => exact Along.raise
  | some side =>
    refine Along.branch (fun _ => Along.raise) fun _ => Along.fallible fun price _ => ?_
    refine Along.branch (fun _ => Along.raise) fun _ => Along.fallible fun filledAt _ => ?_
    obtain ⟨r, hmem, hreport⟩ := reports_of_answered h hx
    refine Along.bind (along_recordFill hmem hreport rfl rfl rfl rfl) fun fill w₁ _ h₁ => ?_
    refine Along.bind (along_audit _) fun _ w₂ _ h₂ => Along.ret ⟨x, hx, ?_, fun id => ?_⟩
    · rw [h₂.journal]; exact h₁.1
    · exact (h₂.answers id).trans (h₁.2 id)

theorem along_resolveOrder {status : String}
    (h : ∀ t : JournalTerminal, t.clientOrderId = orderId → Closure lawless relied w.sys t) :
    Along (Recovers law relied) (resolveOrder orderId status) w (fun _ _ => True) := by
  exact Along.bind (along_recordTerminal h) fun _ _ _ _ => (along_audit _).mono fun _ _ _ _ => trivial

theorem closure_of_missed {start : List Event} {t : JournalTerminal}
    (h : Answered start w t.clientOrderId none) (hbase : base <:+ start)
    (hsubmitted : Submitted start t.clientOrderId) : Closure lawless (reliesAlways base) w.sys t := by
  obtain ⟨e, symbol, newer, pre, hsplit, hstart, hlast, hcall, -, hmiss⟩ := h.answer
  exact .missed hsplit hlast (hmiss rfl) (hsubmitted.of_suffix hstart) (hbase.trans hstart)

theorem along_recoverSubmit {report : RecoveryReport} {submit : JournalSubmit}
    (hbase : base <:+ w.trace) (hsubmitted : Submitted w.trace submit.clientOrderId) :
    Along (Recovers law (reliesAlways base)) (recoverSubmit c report submit) w (fun next _ =>
      ∀ order ∈ next.unresolved, order ∈ report.unresolved ∨
        order.clientOrderId = submit.clientOrderId) := by
  refine Along.bind along_queryIfKnown fun found w₁ _ h₁ => ?_
  obtain ⟨hanswered, -⟩ := h₁
  cases found with
  | none =>
    refine Along.bind (along_resolveOrder fun t hid => ?_) fun _ _ _ _ =>
      Along.ret fun order horder => .inl horder
    exact closure_of_missed (hid ▸ hanswered) hbase (hid ▸ hsubmitted)
  | some payload =>
    refine Along.bind along_clockOffsetMarginMs fun margin w₂ hreach₂ h₂ => ?_
    have hanswered₂ := hanswered.later hreach₂.suffix h₂.answers
    refine Along.fallible fun _ _ => ?_
    refine Along.branch (fun _ => Along.raise) fun hstatus => ?_
    refine Along.branch (fun _ => Along.ret fun order horder => ?_) fun hclosed => ?_
    · rcases mem_append.mp horder with horder | horder
      · exact .inl horder
      · rw [mem_singleton.mp horder]; exact .inr rfl
    refine Along.bind (along_bookRecoveredDelta hanswered₂) fun fill w₃ hreach₃ h₃ => ?_
    obtain ⟨x, hx, hbooked, hanswers⟩ := h₃
    refine Along.bind (along_resolveOrder fun t hid => ?_) fun _ _ _ _ =>
      Along.ret fun order horder => .inl horder
    exact closure_of_answered (hid ▸ hanswered₂.later hreach₃.suffix hanswers) hx hstatus
      (Bool.eq_false_of_not_eq_true hclosed) (hid ▸ hbooked)

theorem along_recoverSubmits (submits : List JournalSubmit) :
    ∀ {w : World} {report : RecoveryReport}, base <:+ w.trace →
      (∀ s ∈ submits, Submitted w.trace s.clientOrderId) →
      (∀ order ∈ report.unresolved, Submitted w.trace order.clientOrderId) →
      Along (Recovers law (reliesAlways base)) (recoverSubmits c submits report) w (fun next w' =>
        ∀ order ∈ next.unresolved, Submitted w'.trace order.clientOrderId) := by
  induction submits with
  | nil => intro w report _ _ hreport; exact Along.ret hreport
  | cons submit rest ih =>
    intro w report hbase hsubmitted hreport
    have hhead := hsubmitted submit mem_cons_self
    refine Along.bind (along_recoverSubmit hbase hhead) fun next w' hreach hnext => ?_
    refine ih (hbase.trans hreach.suffix) (fun s hs => ?_) (fun order horder => ?_)
    · exact (hsubmitted s (mem_cons_of_mem submit hs)).of_suffix hreach.suffix
    · rcases hnext order horder with hold | hid
      · exact (hreport order hold).of_suffix hreach.suffix
      · rw [hid]; exact hhead.of_suffix hreach.suffix

theorem along_recoverUnresolvedOrders (hbase : base <:+ w.trace)
    (hsubmitted : ∀ s ∈ w.journal.submits, Submitted w.trace s.clientOrderId) :
    Along (Recovers law (reliesAlways base)) (recoverUnresolvedOrders c) w (fun report w' =>
      ∀ order ∈ report.unresolved, Submitted w'.trace order.clientOrderId) := by
  refine Along.branch (fun _ => Along.ret (by simp)) fun _ => Along.readState ?_
  refine along_recoverSubmits _ hbase (fun s hs => hsubmitted s ?_) (by simp)
  exact mem_of_mem_filter ((perm_insertionSort _ _).subset hs)

theorem along_settleOrder {submits : Journal} {settlement : UnresolvedSettlement} (hbase : base <:+ w.trace)
    (hsubmitted : Submitted w.trace order.clientOrderId) :
    Along (Recovers law (reliesAlways base)) (settleOrder c submits settlement order) w
      (fun _ _ => True) := by
  refine Along.bind along_cancelAndConfirm fun confirmation w₁ _ hconf => ?_
  refine Along.branch (fun hgone => ?_) fun hknown => ?_
  · refine Along.bind (along_resolveOrder fun t hid => ?_) fun _ _ _ _ => Along.ret trivial
    have hanswered := hconf.answered
    cases hpayload : confirmation.payload with
    | none =>
      rw [hpayload] at hanswered; exact closure_of_missed (hid ▸ hanswered) hbase (hid ▸ hsubmitted)
    | some payload =>
      rw [hpayload] at hanswered
      obtain ⟨e, symbol, newer, pre, hsplit, -, hlast, -, hfound, -⟩ := hanswered.answer
      refine .namedNotFound (e := e) ?_ (hid ▸ hlast) (hfound payload rfl)
        ((hconf.reported payload hpayload).1.symm.trans hgone)
      show e ∈ w₁.trace
      rw [hsplit]; exact mem_append_right _ mem_cons_self
  · cases hpayload : confirmation.payload with
    | none => exact Along.raise
    | some payload =>
      obtain ⟨hstatus, hnonempty, hclosed⟩ := hconf.reported payload hpayload
      have hanswered := hconf.answered
      rw [hpayload] at hanswered
      refine Along.bind along_clockOffsetMarginMs fun margin w₂ hreach₂ h₂ => ?_
      have hanswered₂ := hanswered.later hreach₂.suffix h₂.answers
      refine Along.bind (along_bookRecoveredDelta hanswered₂) fun fill w₃ hreach₃ h₃ => ?_
      obtain ⟨x, hx, hbooked, hanswers⟩ := h₃
      refine Along.branch (fun hc => ?_) fun _ => Along.ret trivial
      refine Along.bind (along_resolveOrder fun t hid => ?_) fun _ _ _ _ => Along.ret trivial
      refine closure_of_answered (hid ▸ hanswered₂.later hreach₃.suffix hanswers) hx hnonempty ?_
        (hid ▸ hbooked)
      rw [hclosed] at hc; simpa using hc

theorem along_settleOrders {submits : Journal} (orders : List UnresolvedOrder) :
    ∀ {w : World} {settlement : UnresolvedSettlement}, base <:+ w.trace →
      (∀ order ∈ orders, Submitted w.trace order.clientOrderId) →
      Along (Recovers law (reliesAlways base)) (settleOrders c submits orders settlement) w
        (fun _ _ => True) := by
  induction orders with
  | nil => intro w settlement _ _; exact Along.ret trivial
  | cons order rest ih =>
    intro w settlement hbase hsubmitted
    refine Along.bind (along_settleOrder hbase (hsubmitted order mem_cons_self))
      fun next w' hreach _ => ih (hbase.trans hreach.suffix) fun order' horder' => ?_
    exact (hsubmitted order' (mem_cons_of_mem order horder')).of_suffix hreach.suffix

/-- **Recovery moves along the machine**, and relies on every miss it hears. -/
theorem along_recoverAndSettle (hbase : base <:+ w.trace)
    (hsubmitted : ∀ s ∈ w.journal.submits, Submitted w.trace s.clientOrderId) :
    Along (Recovers law (reliesAlways base)) (recoverAndSettle c) w (fun _ _ => True) := by
  refine Along.bind (along_recoverUnresolvedOrders hbase hsubmitted) fun report w₁ hreach₁ h₁ => ?_
  refine Along.branch (fun _ => Along.ret trivial) fun _ => Along.readState ?_
  exact along_settleOrders _ (hbase.trans hreach₁.suffix) h₁

end Recover

end CryptoPilot.Live
