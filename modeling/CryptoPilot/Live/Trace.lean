/- # Trace — what a trace shows about an order, and the laws of the venue.

A trace has the newest event first.  `Reports`, `ReportsClosed` and `Misses` are the answers of the
venue about one order, `Logs` is a durable append of the journal, and `lastAnswer` the last word on
an order. -/
import CryptoPilot.Live.OrderCancel

namespace CryptoPilot.Live

open CryptoPilot.Lib List

/-! ## Answers -/

/-- A query of the order answered with an executed quantity of `x`. -/
def Event.Reports (e : Event) (orderId : String) (x : ℚ) : Prop :=
  ∃ symbol payload, e.call = .queryOrder symbol orderId ∧ e.reply = .order payload ∧
    readExecuted payload.executedQty = .ok x

/-- A query of the order answered with a closed status and an executed quantity of `x`. -/
def Event.ReportsClosed (e : Event) (orderId : String) (x : ℚ) : Prop :=
  ∃ symbol payload, e.call = .queryOrder symbol orderId ∧ e.reply = .order payload ∧
    readExecuted payload.executedQty = .ok x ∧ payload.status ≠ "" ∧
    isOpenStatus payload.status = false

/-- A query of the order answered with `-2013`. -/
def Event.Misses (e : Event) (orderId : String) : Prop :=
  ∃ symbol httpStatus, e.call = .queryOrder symbol orderId ∧
    e.reply = .error (.venueError (some orderDoesNotExistCode) httpStatus)

/-- The event posts the order `orderId`. -/
def Event.PostsOrder (e : Event) (orderId : String) : Prop :=
  ∃ tag params, e.call = .newOrder tag params ∧ params.newClientOrderId = orderId

def Event.posted (e : Event) : Option String :=
  match e.call with
  | .newOrder _ params => some params.newClientOrderId
  | _ => none

def Event.missed (e : Event) : Option String :=
  match e.call, e.reply with
  | .queryOrder _ orderId, .error (.venueError (some code) _) =>
    if code = orderDoesNotExistCode then some orderId else none
  | _, _ => none

def Event.Logs (e : Event) (record : Record) : Prop :=
  e.call = .append record ∧ e.reply.raised = none

def Call.posts : Call → Bool
  | .newOrder _ _ => true
  | _ => false

def Event.PostsNothing (e : Event) : Prop := e.call.posts = false

def Call.isAbout (orderId : String) : Call → Bool
  | .queryOrder _ id => decide (id = orderId)
  | .newOrder _ params => decide (params.newClientOrderId = orderId)
  | _ => false

/-- The calls that leave the journal, the clock, the book and the orders as they are. -/
def Call.quiet : Call → Bool
  | .clock | .append _ | .bookTickers | .newOrder _ _ => false
  | _ => true

def Call.mute (call : Call) : Prop := call.quiet = true ∧ ∀ orderId, call.isAbout orderId = false

def lastAnswer (trace : List Event) (orderId : String) : Option Event :=
  trace.find? fun e => e.call.isAbout orderId

section Answers

variable {trace : List Event} {e : Event} {orderId : String} {x : ℚ}

theorem Event.ReportsClosed.reports (h : e.ReportsClosed orderId x) : e.Reports orderId x := by
  obtain ⟨symbol, payload, hcall, hreply, hread, -⟩ := h
  exact ⟨symbol, payload, hcall, hreply, hread⟩

theorem Event.postsNothing_of_call {call : Call} (h : e.call = call)
    (hcall : call.posts = false) : e.PostsNothing := by
  rw [Event.PostsNothing, h]; exact hcall

theorem Event.postsNothing_of_quiet (h : e.call.quiet = true) : e.PostsNothing := by
  unfold Event.PostsNothing
  cases hcall : e.call <;> rw [hcall] at h <;> first | rfl | cases h

theorem Event.Logs.postsNothing {record : Record} (h : e.Logs record) : e.PostsNothing :=
  Event.postsNothing_of_call h.1 rfl

theorem Event.PostsNothing.not_postsOrder (h : e.PostsNothing) : ¬ e.PostsOrder orderId := by
  rintro ⟨tag, params, hcall, -⟩
  rw [Event.PostsNothing, hcall] at h; cases h

theorem lastAnswer_cons (h : e.call.isAbout orderId = false) :
    lastAnswer (e :: trace) orderId = lastAnswer trace orderId := by
  simp [lastAnswer, h]

theorem lastAnswer_cons_self (h : e.call.isAbout orderId = true) : lastAnswer (e :: trace) orderId = some e := by
  simp [lastAnswer, h]

theorem Event.Misses.postsNothing (h : e.Misses orderId) : e.PostsNothing := by
  obtain ⟨symbol, status, hcall, -⟩ := h; exact Event.postsNothing_of_call hcall rfl

theorem Event.posted_eq_some : e.posted = some orderId ↔ e.PostsOrder orderId := by
  unfold Event.posted Event.PostsOrder
  constructor
  · intro h
    split at h
    · next tag params hcall => exact ⟨tag, params, hcall, Option.some.inj h⟩
    · cases h
  · rintro ⟨tag, params, hcall, rfl⟩
    rw [hcall]

theorem Event.missed_eq_some : e.missed = some orderId ↔ e.Misses orderId := by
  unfold Event.missed Event.Misses
  constructor
  · intro h
    split at h
    · next symbol id code status hcall hreply =>
      split at h
      · next hcode =>
        obtain rfl := Option.some.inj h; exact ⟨symbol, status, hcall, by rw [hreply, hcode]⟩
      · cases h
    · cases h
  · rintro ⟨symbol, status, hcall, hreply⟩
    rw [hcall, hreply]; exact if_pos rfl

theorem split_of_lastAnswer {p : Event} {newer pre : List Event}
    (hlast : lastAnswer (newer ++ p :: pre) orderId = some e) (hposts : p.PostsOrder orderId)
    (hne : ¬ e.PostsOrder orderId) : ∃ later earlier, newer = later ++ e :: earlier := by
  induction newer with
  | nil =>
    have habout : p.call.isAbout orderId = true := by
      obtain ⟨tag, params, hcall, hid⟩ := hposts
      rw [hcall]; exact decide_eq_true hid
    rw [nil_append, lastAnswer_cons_self habout] at hlast
    exact absurd (Option.some.inj hlast ▸ hposts) hne
  | cons e₁ newer ih =>
    cases habout : e₁.call.isAbout orderId with
    | true =>
      rw [cons_append, lastAnswer_cons_self habout] at hlast
      exact ⟨[], newer, by rw [Option.some.inj hlast]; rfl⟩
    | false =>
      rw [cons_append, lastAnswer_cons habout] at hlast
      obtain ⟨later, earlier, rfl⟩ := ih hlast; exact ⟨e₁ :: later, earlier, rfl⟩

theorem mem_pre_of_lastAnswer {p : Event} (hlast : lastAnswer trace orderId = some e)
    (hpost : p ∈ trace) (hposts : p.PostsOrder orderId) (hne : ¬ e.PostsOrder orderId) :
    ∃ newer pre, trace = newer ++ e :: pre ∧ p ∈ pre := by
  obtain ⟨newer, pre, rfl⟩ := append_of_mem hpost
  obtain ⟨later, earlier, rfl⟩ := split_of_lastAnswer hlast hposts hne
  exact ⟨later, earlier ++ p :: pre, by simp, by simp⟩

end Answers

/-! ## The laws of the venue -/

/-- **The laws of the venue.** -/
structure VenueLaw (trace : List Event) : Prop where
  /-- executed quantities never shrink -/
  monotone : trace.Pairwise fun newer older =>
    ∀ orderId, older.venue.executed orderId ≤ newer.venue.executed orderId
  /-- an order executes at most its own quantity -/
  bounded : ∀ p ∈ trace, ∀ tag params, p.call = .newOrder tag params →
    ∀ e ∈ trace, e.venue.executed params.newClientOrderId ≤ params.quantity
  /-- a query reports what is executed -/
  truthful : ∀ e ∈ trace, ∀ orderId x, e.Reports orderId x → e.venue.executed orderId = x
  /-- a closed order executes no more -/
  final : ∀ later e pre, trace = later ++ e :: pre → ∀ orderId x, e.ReportsClosed orderId x →
    ∀ e' ∈ later, e'.venue.executed orderId = x

section Laws

variable {later trace : List Event} {e e' : Event} {orderId : String}

theorem VenueLaw.executed_le_later (h : VenueLaw (later ++ trace)) (he' : e' ∈ later) (he : e ∈ trace) :
    e.venue.executed orderId ≤ e'.venue.executed orderId :=
  (pairwise_append.mp h.monotone).2.2 e' he' e he orderId

theorem VenueLaw.tail (h : VenueLaw (e :: trace)) : VenueLaw trace where
  monotone := h.monotone.tail
  bounded := fun p hp tag params hcall e' he' =>
    h.bounded p (mem_cons_of_mem e hp) tag params hcall e' (mem_cons_of_mem e he')
  truthful := fun e' he' => h.truthful e' (mem_cons_of_mem e he')
  final := fun later e' pre heq orderId x hclosed e'' he'' =>
    h.final (e :: later) e' pre (by rw [heq]; rfl) orderId x hclosed e'' (mem_cons_of_mem e he'')

end Laws

/-! ## Checking the laws on a finished trace

Where only a few orders ever execute, the laws are a computation. -/

def eachSplit (check : List Event → Event → List Event → Bool) :
    List Event → List Event → Bool
  | _, [] => true
  | later, e :: pre => check later e pre && eachSplit check (later ++ [e]) pre

def Event.report (e : Event) : Option (String × ℚ) :=
  match e.call, e.reply with
  | .queryOrder _ orderId, .order payload =>
    match readExecuted payload.executedQty with
    | .ok x => some (orderId, x)
    | .error _ => none
  | _, _ => none

def Event.answeredClosed (e : Event) : Bool :=
  match e.reply with
  | .order payload => payload.status ≠ "" && !isOpenStatus payload.status
  | _ => false

/-- Only the orders of `orderIds` ever execute. -/
def onlyExecutes (orderIds : List String) (trace : List Event) : Bool :=
  trace.all fun e => e.venue.quantities.entries.all fun entry => decide (entry.1 ∈ orderIds)

def eachPost (check : Event → OrderParams → Bool) (trace : List Event) : Bool :=
  trace.all fun p =>
    match p.call with
    | .newOrder _ params => check p params
    | _ => true

/-- The laws of the venue, where only the orders of `orderIds` execute. -/
def VenueLaw.check (orderIds : List String) (trace : List Event) : Bool :=
  onlyExecutes orderIds trace &&
  decide (trace.Pairwise fun newer older =>
    ∀ orderId ∈ orderIds, older.venue.executed orderId ≤ newer.venue.executed orderId) &&
  eachPost (fun _ params => decide (0 ≤ params.quantity) &&
    (decide (params.newClientOrderId ∉ orderIds) ||
      trace.all fun e =>
      decide (e.venue.executed params.newClientOrderId ≤ params.quantity))) trace &&
  (trace.all fun e =>
    match e.report with
    | some (id, x) => decide (e.venue.executed id = x)
    | none => true) &&
  eachSplit (fun later e _ =>
    match e.report with
    | some (id, x) => !e.answeredClosed || later.all fun e' => decide (e'.venue.executed id = x)
    | none => true) [] trace

section Check

variable {trace : List Event} {orderIds : List String} {id : String} {e : Event}

theorem eachSplit_iff {check : List Event → Event → List Event → Bool} :
    ∀ {later trace : List Event}, eachSplit check later trace = true ↔
      ∀ newer e pre, trace = newer ++ e :: pre → check (later ++ newer) e pre = true := by
  intro later trace
  induction trace generalizing later with
  | nil => simp [eachSplit]
  | cons e₀ trace ih =>
    rw [eachSplit, Bool.and_eq_true, ih]
    constructor
    · rintro ⟨hhead, hrest⟩ newer e pre hsplit
      cases newer with
      | nil =>
        obtain ⟨rfl, rfl⟩ := List.cons.inj hsplit
        rw [append_nil]; exact hhead
      | cons e₁ newer =>
        obtain ⟨rfl, rfl⟩ := List.cons.inj hsplit
        have hcheck := hrest newer e pre rfl; rwa [append_assoc] at hcheck
    · intro h
      refine ⟨?_, fun newer e pre hsplit => ?_⟩
      · have hcheck := h [] e₀ trace rfl; rwa [append_nil] at hcheck
      · rw [append_assoc]; exact h (e₀ :: newer) e pre (by rw [hsplit]; rfl)

theorem Event.Reports.report_eq {x : ℚ} (h : e.Reports id x) : e.report = some (id, x) := by
  obtain ⟨symbol, payload, hcall, hreply, hread⟩ := h
  rw [Event.report, hcall, hreply]; simp only [hread]

theorem Event.ReportsClosed.answeredClosed {x : ℚ} (h : e.ReportsClosed id x) : e.answeredClosed = true := by
  obtain ⟨symbol, payload, -, hreply, -, hstatus, hclosed⟩ := h
  simp [Event.answeredClosed, hreply, hstatus, hclosed]

theorem onlyExecutes_spec (h : onlyExecutes orderIds trace = true) (he : e ∈ trace)
    (hid : id ∉ orderIds) :
    e.venue.executed id = 0 := by
  have hkeys := all_eq_true.mp (all_eq_true.mp h e he)
  have hnone : e.venue.quantities.lookup id = none := by
    refine AList.lookup_eq_none.mpr fun hmem => hid ?_
    obtain ⟨entry, hentry, hkey⟩ := mem_map.mp (AList.mem_keys.mp hmem)
    rw [← hkey]; exact of_decide_eq_true (hkeys entry hentry)
  rw [Venue.executed, hnone]; rfl

theorem eachPost_spec {check : Event → OrderParams → Bool} (h : eachPost check trace = true) {p : Event}
    (hp : p ∈ trace) {tag : OrderTag} {params : OrderParams} (hcall : p.call = .newOrder tag params) :
    check p params = true := by
  have hcheck := all_eq_true.mp h p hp; rwa [hcall] at hcheck

/-- **The check is sound.** -/
theorem VenueLaw.of_check (orderIds : List String) (h : VenueLaw.check orderIds trace = true) :
    VenueLaw trace := by
  simp only [VenueLaw.check, Bool.and_eq_true] at h
  obtain ⟨⟨⟨⟨honly, hmonotone⟩, hposts⟩, hreports⟩, hfinal⟩ := h
  refine ⟨?monotone, fun p hp tag params hcall e he => ?bounded, fun e he id x hr => ?truthful,
    fun later e pre hsplit id x hr e' he' => ?final⟩
  case monotone =>
    refine (of_decide_eq_true hmonotone).imp_of_mem fun hnewer holder hle id => ?_
    by_cases hid : id ∈ orderIds
    · exact hle id hid
    · rw [onlyExecutes_spec honly hnewer hid, onlyExecutes_spec honly holder hid]
  case bounded =>
    have hcheck := eachPost_spec hposts hp hcall
    simp only [Bool.and_eq_true, Bool.or_eq_true, decide_eq_true_eq, all_eq_true] at hcheck
    obtain ⟨hpos, hother | hbound⟩ := hcheck
    · rw [onlyExecutes_spec honly he hother]; exact hpos
    · exact hbound e he
  case truthful =>
    have hcheck := all_eq_true.mp hreports e he
    rw [hr.report_eq] at hcheck; exact of_decide_eq_true hcheck
  case final =>
    have hcheck := eachSplit_iff.mp hfinal later e pre hsplit
    rw [hr.reports.report_eq, hr.answeredClosed] at hcheck
    simp only [nil_append, Bool.not_true, Bool.false_or, all_eq_true, decide_eq_true_eq] at hcheck
    exact hcheck e' he'

end Check

end CryptoPilot.Live
