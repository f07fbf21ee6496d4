/- # ExecutorSafety — when no intent executes more than its quantity.

`OutcomeLaw` is what the executor may take from its answers: the laws of the venue (`VenueLaw`), and
that a miss at or after the horizon from the sending and an error classed NOT_PLACED mean that the
order never executed.  The executor counts the horizon from the start of the tick that sent the
order (`unresolved_at = now`), so it can act on a miss that comes too early; what it does is safe in
every run in which it does not (`ActsLate`). -/
import CryptoPilot.Live.ExecutorContracts

namespace CryptoPilot.Live

open CryptoPilot.Lib Proc List

/-! ## The venue -/

/-- **What the executor may take from its answers** beyond the venue's own laws. -/
structure OutcomeLaw (c : ExecConfig) (trace : List Event) : Prop extends VenueLaw trace where
  /-- a miss at or after the horizon, from the sending: the order was never placed -/
  lateMiss : ∀ later e pre, trace = later ++ e :: pre → ∀ orderId, e.Misses orderId →
    ∀ p ∈ pre, p.PostsOrder orderId → unknownOutcomeHorizonS c ≤ e.time - p.time →
    ∀ e' ∈ trace, e'.venue.executed orderId = 0
  /-- an error classed NOT_PLACED: nothing was executed -/
  notPlaced : ∀ p ∈ trace, ∀ tag params exc, p.call = .newOrder tag params →
    p.reply = .error exc → classedNotPlaced exc = true →
    ∀ e ∈ trace, e.venue.executed params.newClientOrderId = 0

/-- The misses that the executor acts on, the horizon old on its own clock readings, come at or
after the horizon from the sending. -/
def ActsLate (c : ExecConfig) (trace : List Event) : Prop :=
  ∀ later e pre, trace = later ++ e :: pre → ∀ orderId, e.Misses orderId → ∀ p ∈ pre, p.PostsOrder orderId →
    unknownOutcomeHorizonS c ≤ e.reading - p.reading → unknownOutcomeHorizonS c ≤ e.time - p.time

/-- The answers are lawful and the executor acts on late misses only. -/
structure Reliable (c : ExecConfig) (trace : List Event) : Prop extends OutcomeLaw c trace where
  late : ActsLate c trace

/-- In every reliable future the order has executed at most `cap`, and after this trace exactly
`cap`. -/
def Finished (c : ExecConfig) (trace : List Event) (orderId : String) (cap : ℚ) : Prop :=
  ∀ later, Reliable c (later ++ trace) →
    (∀ e ∈ later ++ trace, e.venue.executed orderId ≤ cap) ∧
    ∀ e ∈ later, e.venue.executed orderId = cap

section Venue

variable {c : ExecConfig} {trace : List Event} {e : Event} {orderId : String} {cap x : ℚ}

theorem Finished.cons (h : Finished c trace orderId cap) : Finished c (e :: trace) orderId cap := by
  intro later hlaw
  have happ : later ++ e :: trace = (later ++ [e]) ++ trace := by simp
  rw [happ] at hlaw ⊢
  obtain ⟨hle, heq⟩ := h _ hlaw; exact ⟨hle, fun e' he' => heq e' (mem_append_left _ he')⟩

theorem Finished.of_closed (hmem : e ∈ trace) (h : e.ReportsClosed orderId x) : Finished c trace orderId x := by
  intro later hlaw
  obtain ⟨newer, pre, rfl⟩ := append_of_mem hmem
  have happ : later ++ (newer ++ e :: pre) = (later ++ newer) ++ e :: pre := by simp
  rw [happ] at hlaw ⊢
  have hat : e.venue.executed orderId = x := hlaw.truthful e (by simp) orderId x h.reports
  have hafter : ∀ e' ∈ later ++ newer, e'.venue.executed orderId = x := hlaw.final _ e pre rfl orderId x h
  refine ⟨fun e' he' => ?_, fun e' he' => hafter e' (mem_append_left _ he')⟩
  rcases mem_append.mp he' with he' | he'
  · exact (hafter e' he').le
  · rcases mem_cons.mp he' with rfl | he'
    · exact hat.le
    · have hpairs := (pairwise_append.mp hlaw.monotone).2.1
      exact hat ▸ rel_of_pairwise_cons hpairs he' orderId

variable {p : Event} {params : OrderParams}

theorem Finished.of_full {tag : OrderTag} (hpost : p ∈ trace)
    (hcall : p.call = .newOrder tag params) (hmem : e ∈ trace)
    (h : e.Reports params.newClientOrderId x) (hfull : params.quantity ≤ x) :
    Finished c trace params.newClientOrderId x := by
  intro later hlaw
  have hbound : ∀ e' ∈ later ++ trace, e'.venue.executed params.newClientOrderId ≤ x :=
    fun e' he' => (hlaw.bounded p (mem_append_right _ hpost) tag params hcall e' he').trans hfull
  refine ⟨hbound, fun e' he' => le_antisymm (hbound e' (mem_append_left _ he')) ?_⟩
  have hat : e.venue.executed params.newClientOrderId = x := hlaw.truthful e (mem_append_right _ hmem) _ x h
  rw [← hat]; exact hlaw.executed_le_later he' hmem

theorem Finished.of_never
    (h : ∀ later, Reliable c (later ++ trace) → ∀ e ∈ later ++ trace, e.venue.executed orderId = 0) :
    Finished c trace orderId 0 := by
  intro later hlaw
  exact ⟨fun e he => (h later hlaw e he).le, fun e he => h later hlaw e (mem_append_left _ he)⟩

theorem Finished.of_notPlaced {tag : OrderTag} {exc : Exc} (hpost : p ∈ trace)
    (hcall : p.call = .newOrder tag params) (hreply : p.reply = .error exc)
    (hclass : classedNotPlaced exc = true) : Finished c trace params.newClientOrderId 0 :=
  .of_never fun _ hlaw =>
    hlaw.notPlaced p (mem_append_right _ hpost) tag params exc hcall hreply hclass

theorem Finished.of_lateMiss (hlast : lastAnswer trace orderId = some e) (hmiss : e.Misses orderId)
    (hpost : p ∈ trace) (hposts : p.PostsOrder orderId)
    (hlate : unknownOutcomeHorizonS c ≤ e.reading - p.reading) : Finished c trace orderId 0 := by
  obtain ⟨newer, pre, rfl, hpre⟩ := mem_pre_of_lastAnswer hlast hpost hposts hmiss.postsNothing.not_postsOrder
  refine .of_never fun later hlaw => ?_
  have hsplit : later ++ (newer ++ e :: pre) = (later ++ newer) ++ e :: pre := by simp
  exact hlaw.lateMiss _ e pre hsplit orderId hmiss p hpre hposts
    (hlaw.late _ e pre hsplit orderId hmiss p hpre hposts hlate)

end Venue

/-! ## The orders of an intent -/

/-- The order reached the venue, or may have: it was neither simulated nor suppressed. -/
def Reply.sent : Reply → Bool
  | .paper | .shadow => false
  | _ => true

/-- The order an event sent for the intent at `owner`. -/
def Event.orderOf (owner : ℕ) (e : Event) : Option OrderParams :=
  match e.call with
  | .newOrder tag params => if tag.owner = owner ∧ e.reply.sent = true then some params else none
  | _ => none

/-- The orders sent for the intent at `owner`, the newest first. -/
def ordersOf (owner : ℕ) (trace : List Event) : List OrderParams :=
  trace.filterMap (Event.orderOf owner)

/-- All these orders are finished, within `total`. -/
def Settled (c : ExecConfig) (trace : List Event) : List OrderParams → ℚ → Prop
  | [], total => 0 ≤ total
  | p :: older, total =>
    ∃ cap, Finished c trace p.newClientOrderId cap ∧ Settled c trace older (total - cap)

section Orders

variable {c : ExecConfig} {trace : List Event} {e : Event} {owner : ℕ} {orders : List OrderParams}
  {total total' : ℚ}

theorem ordersOf_cons_none (h : e.orderOf owner = none) : ordersOf owner (e :: trace) = ordersOf owner trace :=
  filterMap_cons_none h

theorem ordersOf_cons_some {params : OrderParams} (h : e.orderOf owner = some params) :
    ordersOf owner (e :: trace) = params :: ordersOf owner trace :=
  filterMap_cons_some h

theorem Event.PostsNothing.orderOf (h : e.PostsNothing) : e.orderOf owner = none := by
  unfold Event.orderOf
  cases hcall : e.call with
  | newOrder tag params => rw [Event.PostsNothing, hcall] at h; cases h
  | _ => rfl

section

variable (h : Settled c trace orders total)

include h

theorem Settled.mono (hle : total ≤ total') : Settled c trace orders total' := by
  induction orders generalizing total total' with
  | nil => exact le_trans h hle
  | cons p older ih =>
    obtain ⟨cap, hcap, hrest⟩ := h; exact ⟨cap, hcap, ih hrest (by linarith)⟩

theorem Settled.cons : Settled c (e :: trace) orders total := by
  induction orders generalizing total with
  | nil => exact h
  | cons p older ih =>
    obtain ⟨cap, hcap, hrest⟩ := h; exact ⟨cap, hcap.cons, ih hrest⟩

theorem Settled.executed_le (hlaw : Reliable c trace) (he : e ∈ trace) :
    (orders.map fun p => e.venue.executed p.newClientOrderId).sum ≤ total := by
  induction orders generalizing total with
  | nil => exact h
  | cons p older ih =>
    obtain ⟨cap, hcap, hrest⟩ := h
    have hp : e.venue.executed p.newClientOrderId ≤ cap := (hcap [] hlaw).1 e he
    have hold := ih hrest; simp only [map_cons, sum_cons]; linarith

theorem Settled.finished {p : OrderParams} (hp : p ∈ orders) : ∃ cap, Finished c trace p.newClientOrderId cap := by
  induction orders generalizing total with
  | nil => cases hp
  | cons q older ih =>
    obtain ⟨cap, hcap, hrest⟩ := h
    rcases mem_cons.mp hp with rfl | hp
    · exact ⟨cap, hcap⟩
    · exact ih hrest hp

end

end Orders

/-! ## The book of an intent -/

/-- The order `params` was posted by `p`, for the intent at `owner`. -/
def Posted (trace : List Event) (owner : ℕ) (p : Event) (params : OrderParams) : Prop :=
  p ∈ trace ∧ ∃ tag, p.call = .newOrder tag params ∧ tag.owner = owner

/-- **The book of an intent**: its older orders are settled within what is booked, and the newest
fits into the rest. `Hang` says which posts may be left hanging. -/
inductive Book (c : ExecConfig) (Hang : Event → Prop) (k : Core) (t : List Event) : Prop where
  /-- no order is out -/
  | idle (noActive : k.activeId = none) (noUnresolved : k.unresolvedId = none)
      (notPaper : k.paperActive = false) (fresh : k.reportedExecuted = 0)
      (settled : Settled c t (ordersOf k.index t) k.filledTotal)
      (fits : k.filledTotal ≤ k.intent.quantity) : Book c Hang k t
  /-- the newest order is active -/
  | active {p : Event} {params : OrderParams} {older : List OrderParams}
      (active : k.activeId = some params.newClientOrderId)
      (noUnresolved : k.unresolvedId = none) (notPaper : k.paperActive = false)
      (orders : ordersOf k.index t = params :: older)
      (posted : Posted t k.index p params)
      (qty : k.activePostQty = params.quantity) (qty_pos : 0 < params.quantity)
      (reported : k.reportedExecuted = 0 ∨
        ∃ r ∈ t, r.Reports params.newClientOrderId k.reportedExecuted)
      (reported_le : k.reportedExecuted ≤ k.activePostQty)
      (settled : Settled c t older (k.filledTotal - k.reportedExecuted))
      (fits : k.filledTotal - k.reportedExecuted + k.activePostQty
        ≤ k.intent.quantity) : Book c Hang k t
  /-- the active order is simulated: it was never sent -/
  | paper {orderId : String} (active : k.activeId = some orderId)
      (noUnresolved : k.unresolvedId = none) (paper : k.paperActive = true)
      (reported_nonneg : 0 ≤ k.reportedExecuted)
      (reported_le : k.reportedExecuted ≤ k.activePostQty)
      (settled : Settled c t (ordersOf k.index t)
        (k.filledTotal - k.reportedExecuted))
      (fits : k.filledTotal - k.reportedExecuted + k.activePostQty
        ≤ k.intent.quantity) : Book c Hang k t
  /-- the fate of the newest order is unknown -/
  | unresolved {p : Event} {params : OrderParams} {older : List OrderParams}
      (noActive : k.activeId = none)
      (unresolved : k.unresolvedId = some params.newClientOrderId)
      (notPaper : k.paperActive = false) (fresh : k.reportedExecuted = 0)
      (orders : ordersOf k.index t = params :: older)
      (posted : Posted t k.index p params)
      (dated : p.reading = k.unresolvedAt)
      (qty : k.unresolvedPostQty = params.quantity) (qty_pos : 0 < params.quantity)
      (settled : Settled c t older k.filledTotal)
      (fits : k.filledTotal + params.quantity ≤ k.intent.quantity) : Book c Hang k t
  /-- the newest order was posted, and its reply is not accounted for -/
  | hanging {p : Event} {params : OrderParams} {older : List OrderParams} {exc : Exc}
      (noActive : k.activeId = none) (noUnresolved : k.unresolvedId = none)
      (notPaper : k.paperActive = false) (fresh : k.reportedExecuted = 0)
      (orders : ordersOf k.index t = params :: older)
      (posted : Posted t k.index p params) (reply : p.reply = .error exc)
      (known : exc ≠ .orderStatusUnknown) (qty_pos : 0 < params.quantity)
      (settled : Settled c t older k.filledTotal)
      (fits : k.filledTotal + params.quantity ≤ k.intent.quantity)
      (allowed : Hang p ∨ k.terminalStatus ≠ none) : Book c Hang k t

section BookRules

variable {c : ExecConfig} {Hang Hang' : Event → Prop} {k : Core} {t : List Event} {a a' : Abs}
  {e : Event} {timed : Bool}

theorem Book.annotate (h : Book c Hang k t) (phase : Phase) (q : ℚ) (status : Option OutcomeStatus)
    (reason : Option BlockReason) (hstatus : ∀ p, Hang p ∨ k.terminalStatus ≠ none → Hang' p ∨ status ≠ none) :
    Book c Hang' { k with
      phase := phase, passiveQuote := q, terminalStatus := status, blockReason := reason } t := by
  cases h with
  | idle h₁ h₂ h₃ h₄ h₅ h₆ => exact .idle h₁ h₂ h₃ h₄ h₅ h₆
  | active h₁ h₂ h₃ h₄ h₅ h₆ h₇ h₈ h₉ h₁₀ h₁₁ =>
    exact .active h₁ h₂ h₃ h₄ h₅ h₆ h₇ h₈ h₉ h₁₀ h₁₁
  | paper h₁ h₂ h₃ h₄ h₅ h₆ h₇ => exact .paper h₁ h₂ h₃ h₄ h₅ h₆ h₇
  | unresolved h₁ h₂ h₃ h₄ h₅ h₆ h₇ h₈ h₉ h₁₀ h₁₁ =>
    exact .unresolved h₁ h₂ h₃ h₄ h₅ h₆ h₇ h₈ h₉ h₁₀ h₁₁
  | hanging h₁ h₂ h₃ h₄ h₅ h₆ h₇ h₈ h₉ h₁₀ h₁₁ h₁₂ =>
    exact .hanging h₁ h₂ h₃ h₄ h₅ h₆ h₇ h₈ h₉ h₁₀ h₁₁ (hstatus _ h₁₂)

theorem Book.mono (h : Book c Hang k t) (hHang : ∀ e, Hang e → Hang' e) : Book c Hang' k t :=
  h.annotate k.phase k.passiveQuote k.terminalStatus k.blockReason fun e => Or.imp_left (hHang e)

variable {params : OrderParams}

theorem Posted.cons {trace : List Event} {owner : ℕ} {p : Event}
    (h : Posted trace owner p params) : Posted (e :: trace) owner p params :=
  ⟨mem_cons_of_mem e h.1, h.2⟩

theorem Book.hear (h : Book c Hang k t) (he : e.orderOf k.index = none) : Book c Hang k (e :: t) := by
  have horders : ordersOf k.index (e :: t) = ordersOf k.index t := ordersOf_cons_none he
  cases h with
  | idle h₁ h₂ h₃ h₄ h₅ h₆ => exact .idle h₁ h₂ h₃ h₄ (horders ▸ h₅.cons) h₆
  | active h₁ h₂ h₃ h₄ h₅ h₆ h₇ h₈ h₉ h₁₀ h₁₁ =>
    refine .active h₁ h₂ h₃ (horders.trans h₄) h₅.cons h₆ h₇ ?_ h₉ h₁₀.cons h₁₁
    exact h₈.imp_right fun ⟨r, hr, hrep⟩ => ⟨r, mem_cons_of_mem e hr, hrep⟩
  | paper h₁ h₂ h₃ h₄ h₅ h₆ h₇ => exact .paper h₁ h₂ h₃ h₄ h₅ (horders ▸ h₆.cons) h₇
  | unresolved h₁ h₂ h₃ h₄ h₅ h₆ h₇ h₈ h₉ h₁₀ h₁₁ =>
    exact .unresolved h₁ h₂ h₃ h₄ (horders.trans h₅) h₆.cons h₇ h₈ h₉ h₁₀.cons h₁₁
  | hanging h₁ h₂ h₃ h₄ h₅ h₆ h₇ h₈ h₉ h₁₀ h₁₁ h₁₂ =>
    exact .hanging h₁ h₂ h₃ h₄ (horders.trans h₅) h₆.cons h₇ h₈ h₉ h₁₀.cons h₁₁ h₁₂

variable {orderId : String}

theorem Book.bookReport {r : Event} {x : ℚ} (h : Book c Hang k t)
    (hactive : k.activeId = some orderId) (hlive : k.paperActive = false)
    (hmem : r ∈ t) (hreport : r.Reports orderId x) (hle : x ≤ k.activePostQty) :
    Book c Hang (k.book (x - k.reportedExecuted) x) t := by
  have hrest : k.filledTotal + (x - k.reportedExecuted) - x
      = k.filledTotal - k.reportedExecuted := by ring
  cases h with
  | active h₁ h₂ h₃ h₄ h₅ h₆ h₇ h₈ h₉ h₁₀ h₁₁ =>
    obtain rfl := Option.some.inj (hactive.symm.trans h₁)
    refine .active h₁ h₂ h₃ h₄ h₅ h₆ h₇ (.inr ⟨r, hmem, hreport⟩) hle ?_ ?_
    · show Settled c t _ (k.filledTotal + (x - k.reportedExecuted) - x)
      rw [hrest]; exact h₁₀
    · show k.filledTotal + (x - k.reportedExecuted) - x + k.activePostQty ≤ _
      rw [hrest]; exact h₁₁
  | paper _ _ hpaper => rw [hlive] at hpaper; cases hpaper
  | idle hnone | unresolved hnone | hanging hnone => rw [hactive] at hnone; cases hnone

theorem Book.bookPaper {q : ℚ} (h : Book c Hang k t) (hpaper : k.paperActive = true)
    (hpos : 0 < q) (hle : k.reportedExecuted + q ≤ k.activePostQty) :
    Book c Hang (k.book q (k.reportedExecuted + q)) t := by
  have hrest : k.filledTotal + q - (k.reportedExecuted + q)
      = k.filledTotal - k.reportedExecuted := by ring
  cases h with
  | paper h₁ h₂ h₃ h₄ h₅ h₆ h₇ =>
    refine .paper h₁ h₂ h₃ (add_nonneg h₄ hpos.le) hle ?_ ?_
    · show Settled c t _ (k.filledTotal + q - (k.reportedExecuted + q))
      rw [hrest]; exact h₆
    · show k.filledTotal + q - (k.reportedExecuted + q) + k.activePostQty ≤ _
      rw [hrest]; exact h₇
  | idle _ _ hlive | active _ _ hlive | unresolved _ _ hlive | hanging _ _ hlive =>
    rw [hlive] at hpaper; cases hpaper

theorem finished_of_settles {p : Event} (hposted : Posted a.trace a.core.index p params)
    (hqty : a.core.activePostQty = params.quantity) (hpos : 0 < params.quantity)
    (hreported : a.core.reportedExecuted = 0 ∨
      ∃ r ∈ a.trace, r.Reports params.newClientOrderId a.core.reportedExecuted)
    (hfits : a.core.filledTotal - a.core.reportedExecuted + a.core.activePostQty
      ≤ a.core.intent.quantity)
    (hsettles : a.Settles params.newClientOrderId) :
    ∃ cap ≤ a.core.reportedExecuted, Finished c a.trace params.newClientOrderId cap := by
  rcases hsettles with ⟨e, hmem, x, hclosed, hle⟩ | hrest
  · exact ⟨x, hle, .of_closed hmem hclosed⟩
  · -- the whole post is booked, directly or because the whole intent is filled
    have hfull : params.quantity ≤ a.core.reportedExecuted := by
      rcases hrest with hfull | hfilled <;> linarith
    rcases hreported with hzero | ⟨r, hr, hreport⟩
    · rw [hzero] at hfull; exact absurd hpos (not_lt.mpr hfull)
    · obtain ⟨hmem, tag, hcall, -⟩ := hposted
      exact ⟨_, le_rfl, .of_full hmem hcall hr hreport hfull⟩

theorem Book.release (h : Book c Hang a.core a.trace) (hactive : a.core.activeId = some orderId)
    (hwhy : a.core.paperActive = true ∨ a.Settles orderId) : Book c Hang a.core.release a.trace := by
  cases h with
  | active h₁ h₂ h₃ h₄ h₅ h₆ h₇ h₈ h₉ h₁₀ h₁₁ =>
    obtain rfl := Option.some.inj (hactive.symm.trans h₁)
    have hsettles := hwhy.resolve_left (by rw [h₃]; nofun)
    obtain ⟨cap, hcap, hfinished⟩ := finished_of_settles h₅ h₆ h₇ h₈ h₁₁ hsettles
    refine .idle rfl h₂ rfl rfl ?_ ?_
    · show Settled c a.trace (ordersOf a.core.index a.trace) a.core.filledTotal
      rw [h₄]; exact ⟨cap, hfinished, h₁₀.mono (by linarith)⟩
    · show a.core.filledTotal ≤ a.core.intent.quantity; linarith
  | paper h₁ h₂ h₃ h₄ h₅ h₆ h₇ =>
    refine .idle rfl h₂ rfl rfl (h₆.mono ?_) ?_
    · show a.core.filledTotal - a.core.reportedExecuted ≤ a.core.filledTotal; linarith
    · show a.core.filledTotal ≤ a.core.intent.quantity; linarith
  | idle hnone | unresolved hnone | hanging hnone => rw [hactive] at hnone; cases hnone

theorem Book.adopt (h : Book c Hang k t) (hunresolved : k.unresolvedId = some orderId) : Book c Hang k.adopt t := by
  cases h with
  | unresolved h₁ h₂ h₃ h₄ h₅ h₆ h₇ h₈ h₉ h₁₀ h₁₁ =>
    refine .active h₂ rfl h₃ h₅ h₆ h₈ h₉ (.inl rfl) ?_ ?_ ?_
    · show (0 : ℚ) ≤ k.unresolvedPostQty
      rw [h₈]; exact h₉.le
    · show Settled c t _ (k.filledTotal - 0)
      rw [sub_zero]; exact h₁₀
    · show k.filledTotal - 0 + k.unresolvedPostQty ≤ k.intent.quantity
      rw [sub_zero, h₈]; exact h₁₁
  | idle _ hnone | active _ hnone | paper _ hnone | hanging _ hnone =>
    rw [hunresolved] at hnone; cases hnone

theorem Book.writeOff (h : Book c Hang a.core a.trace) (hunresolved : a.core.unresolvedId = some orderId)
    (hlast : lastAnswer a.trace orderId = some e) (hlate : a.MissedLate c orderId e) :
    Book c Hang { a.core with unresolvedId := none } a.trace := by
  cases h with
  | unresolved h₁ h₂ h₃ h₄ h₅ h₆ h₇ h₈ h₉ h₁₀ h₁₁ =>
    obtain rfl := Option.some.inj (hunresolved.symm.trans h₂)
    obtain ⟨hmem, tag, hcall, -⟩ := h₆
    have hfinished := Finished.of_lateMiss hlast hlate.1 hmem ⟨tag, _, hcall, rfl⟩
      (by rw [h₇]; exact hlate.2)
    refine .idle h₁ rfl h₃ h₄ ?_ ?_
    · rw [h₅]; exact ⟨0, hfinished, h₁₀.mono (by linarith)⟩
    · linarith
  | idle _ hnone | active _ hnone | paper _ hnone | hanging _ hnone =>
    rw [hunresolved] at hnone; cases hnone

/-- **Every move short of posting keeps the book.** -/
theorem Step.book (hs : Step c timed a a') (h : Book c Hang a.core a.trace) : Book c Hang a'.core a'.trace := by
  cases hs with
  | heard quiet => exact h.hear (Event.postsNothing_of_quiet quiet).orderOf
  | failedAppend call | tick call => exact h.hear (Event.postsNothing_of_call call rfl).orderOf
  | schema logs | submit logs | terminal cause logs => exact h.hear logs.postsNothing.orderOf
  | @bookFill e r f orderId x active live mem report new bounded logs =>
    have hheard : Book c Hang a.core (e :: a.trace) := h.hear logs.postsNothing.orderOf
    exact hheard.bookReport active live (mem_cons_of_mem e mem) report bounded
  | @paperFill e f orderId q active paper pos whole logs =>
    have hheard : Book c Hang a.core (e :: a.trace) := h.hear logs.postsNothing.orderOf
    exact hheard.bookPaper paper pos whole.le
  | release active why => exact h.release active why
  | adopt unresolved => exact h.adopt unresolved
  | writeOff unresolved last late => exact h.writeOff unresolved last late
  | repeg inBand | escalate => exact h.annotate _ _ _ _ fun _ hended => hended
  | finish running | block blocked => exact h.annotate _ _ _ _ fun _ _ => .inr nofun

theorem Reach.book (hr : Reach c timed a a') (h : Book c Hang a.core a.trace) : Book c Hang a'.core a'.trace :=
  hr.keeps (P := fun x => Book c Hang x.core x.trace) Step.book h

theorem SendReady.idle {tag : OrderTag} (hready : SendReady c a e tag params)
    (h : Book c (fun _ => False) a.core a.trace) :
    a.core.paperActive = false ∧ a.core.reportedExecuted = 0 ∧
      Settled c a.trace (ordersOf a.core.index a.trace) a.core.filledTotal := by
  cases h with
  | idle _ _ h₃ h₄ h₅ => exact ⟨h₃, h₄, h₅⟩
  | active h₁ | paper h₁ => rw [hready.noActive] at h₁; cases h₁
  | unresolved _ h₂ => rw [hready.noUnresolved] at h₂; cases h₂
  | hanging _ _ _ _ _ _ _ _ _ _ _ h₁₂ =>
    rcases h₁₂ with h₁₂ | h₁₂
    · exact h₁₂.elim
    · exact absurd hready.running h₁₂

/-- **Posting one order**: it becomes the newest order of the book, in the state its reply puts it
in. -/
theorem Send.book (hs : Send c e a a') (h : Book c (fun _ => False) a.core a.trace) :
    Book c (fun p => p = e) a'.core a'.trace := by
  obtain ⟨tag, params, hready, rfl⟩ := hs
  obtain ⟨hpaper, hfresh, hsettled⟩ := hready.idle h
  have hposted : Posted (e :: a.trace) a.core.index e params := ⟨mem_cons_self, tag, hready.call, hready.owner⟩
  have hsent : e.reply.sent = true →
      ordersOf a.core.index (e :: a.trace) = params :: ordersOf a.core.index a.trace := by
    intro hreply
    refine ordersOf_cons_some ?_
    simp only [Event.orderOf, hready.call, hready.owner, hreply, and_self, if_true]
  have hkept : e.reply.sent = false →
      ordersOf a.core.index (e :: a.trace) = ordersOf a.core.index a.trace := by
    intro hreply
    refine ordersOf_cons_none ?_
    simp only [Event.orderOf, hready.call, hreply, Bool.false_eq_true, and_false, if_false]
  have hfits : a.core.filledTotal + params.quantity ≤ a.core.intent.quantity := by
    have hle := hready.qty_le; linarith
  have hactivate : ∀ k : Core, e.reply.sent = true →
      k = a.core.activate params.newClientOrderId params.quantity false →
      Book c (fun p => p = e) k (e :: a.trace) := by
    rintro k hreply rfl
    refine .active rfl hready.noUnresolved hpaper (hsent hreply) hposted rfl hready.qty_pos (.inl rfl)
      hready.qty_pos.le ?_ ?_
    · show Settled c (e :: a.trace) _ (a.core.filledTotal - 0)
      rw [sub_zero]; exact hsettled.cons
    · show a.core.filledTotal - 0 + params.quantity ≤ a.core.intent.quantity
      rw [sub_zero]; exact hfits
  show Book c _ (a.core.afterReply params.newClientOrderId params.quantity a.reading e.reply)
    (e :: a.trace)
  cases hreply : e.reply with
  | error exc =>
    have horders := hsent (by rw [hreply]; rfl)
    by_cases hunknown : exc = .orderStatusUnknown
    · subst hunknown
      exact .unresolved hready.noActive rfl hpaper hfresh horders hposted hready.dated rfl
        hready.qty_pos hsettled.cons hfits
    · have hcore : a.core.afterReply params.newClientOrderId params.quantity a.reading (.error exc)
          = a.core := by
        cases exc <;> first | rfl | exact absurd rfl hunknown
      rw [hcore]
      exact .hanging hready.noActive hready.noUnresolved hpaper hfresh horders hposted hreply
        hunknown hready.qty_pos hsettled.cons hfits (.inl rfl)
  | paper =>
    have horders := hkept (by rw [hreply]; rfl)
    refine .paper rfl hready.noUnresolved rfl le_rfl hready.qty_pos.le ?_ ?_
    · show Settled c (e :: a.trace) (ordersOf a.core.index (e :: a.trace)) (a.core.filledTotal - 0)
      rw [sub_zero, horders]; exact hsettled.cons
    · show a.core.filledTotal - 0 + params.quantity ≤ a.core.intent.quantity
      rw [sub_zero]; exact hfits
  | shadow =>
    have horders := hkept (by rw [hreply]; rfl)
    refine .idle hready.noActive hready.noUnresolved hpaper hfresh ?_ ?_
    · show Settled c (e :: a.trace) (ordersOf a.core.index (e :: a.trace)) a.core.filledTotal
      rw [horders]; exact hsettled.cons
    · show a.core.filledTotal ≤ a.core.intent.quantity; linarith [hready.qty_pos]
  | _ => exact hactivate _ (by rw [hreply]; rfl) rfl

theorem Book.landed (h : Book c (fun p => p = e) a.core a.trace) (hlanded : Landed e a) :
    Book c (fun _ => False) a.core a.trace := by
  cases h with
  | idle h₁ h₂ h₃ h₄ h₅ h₆ => exact .idle h₁ h₂ h₃ h₄ h₅ h₆
  | active h₁ h₂ h₃ h₄ h₅ h₆ h₇ h₈ h₉ h₁₀ h₁₁ =>
    exact .active h₁ h₂ h₃ h₄ h₅ h₆ h₇ h₈ h₉ h₁₀ h₁₁
  | paper h₁ h₂ h₃ h₄ h₅ h₆ h₇ => exact .paper h₁ h₂ h₃ h₄ h₅ h₆ h₇
  | unresolved h₁ h₂ h₃ h₄ h₅ h₆ h₇ h₈ h₉ h₁₀ h₁₁ =>
    exact .unresolved h₁ h₂ h₃ h₄ h₅ h₆ h₇ h₈ h₉ h₁₀ h₁₁
  | @hanging p params older exc h₁ h₂ h₃ h₄ h₅ h₆ h₇ h₈ h₉ h₁₀ h₁₁ h₁₂ =>
    by_cases hended : a.core.terminalStatus = none
    · -- the post is classed NOT_PLACED: the order is finished at 0
      obtain rfl := h₁₂.resolve_right fun h => h hended
      have hclassed := hlanded.resolve_left fun h => h hended
      have hclass := (hclassed exc h₇).resolve_left h₈
      obtain ⟨hmem, tag, hcall, -⟩ := h₆
      have hfinished := Finished.of_notPlaced (c := c) hmem hcall h₇ hclass
      refine .idle h₁ h₂ h₃ h₄ ?_ (by linarith)
      rw [h₅]; exact ⟨0, hfinished, h₁₀.mono (by linarith)⟩
    · exact .hanging h₁ h₂ h₃ h₄ h₅ h₆ h₇ h₈ h₉ h₁₀ h₁₁ (.inr hended)

end BookRules

/-! ## The books of a run -/

/-- `t'` extends `t` by events that send nothing for the intent at `owner`. -/
def Foreign (owner : ℕ) (t t' : List Event) : Prop :=
  ∃ later, t' = later ++ t ∧ ∀ e ∈ later, e.orderOf owner = none

section Foreign

variable {c : ExecConfig} {timed : Bool} {owner : ℕ} {t t' t'' : List Event} {e : Event} {a a' : Abs}
  {Hang : Event → Prop}

theorem Foreign.refl : Foreign owner t t := ⟨[], rfl, by simp⟩

theorem Foreign.trans (h : Foreign owner t t') (h' : Foreign owner t' t'') : Foreign owner t t'' := by
  obtain ⟨l, rfl, hl⟩ := h
  obtain ⟨l', rfl, hl'⟩ := h'
  refine ⟨l' ++ l, (append_assoc ..).symm, fun e he => ?_⟩
  rcases mem_append.mp he with he | he
  · exact hl' e he
  · exact hl e he

theorem Foreign.single (h : e.orderOf owner = none) : Foreign owner t (e :: t) :=
  ⟨[e], rfl, fun e' he' => by rw [mem_singleton.mp he']; exact h⟩

theorem Step.foreign (h : Step c timed a a') : Foreign owner a.trace a'.trace := by
  rcases h.trace_cases with heq | ⟨e, he, heq⟩ <;> rw [heq]
  · exact .refl
  · exact .single he.orderOf

theorem Reach.foreign (h : Reach c timed a a') : Foreign owner a.trace a'.trace :=
  h.keeps (P := fun x => Foreign owner a.trace x.trace) (fun hs hx => hx.trans hs.foreign) .refl

theorem Send.foreign (h : Send c e a a') (hne : a.core.index ≠ owner) : Foreign owner a.trace a'.trace := by
  obtain ⟨tag, params, hready, rfl⟩ := h
  refine .single ?_
  have howner : tag.owner ≠ owner := by rw [hready.owner]; exact hne
  simp only [Event.orderOf, hready.call, howner, false_and, if_false]

theorem BrokenTurn.foreign (h : BrokenTurn c a a') (hne : a.core.index ≠ owner) :
    Foreign owner a.trace a'.trace := by
  rcases h with h | ⟨e, a₁, a₂, h₁, hsend, h₂⟩
  · exact Reach.foreign h
  · have hne₁ : a₁.core.index ≠ owner := by rw [(Reach.anchored h₁).index]; exact hne
    exact ((Reach.foreign h₁).trans (hsend.foreign hne₁)).trans (Reach.foreign h₂)

theorem Book.foreign {k : Core} (h : Book c Hang k t) (htrace : Foreign k.index t t') : Book c Hang k t' := by
  obtain ⟨later, rfl, hlater⟩ := htrace
  induction later with
  | nil => exact h
  | cons e later ih =>
    have hrest := ih fun e' he' => hlater e' (mem_cons_of_mem e he')
    exact hrest.hear (hlater e mem_cons_self)

end Foreign

def Books {n : ℕ} (c : ExecConfig) (Hang : Event → Prop) (r : AbsRun n) : Prop :=
  ∀ i, Book c Hang (r.cores i) r.trace

section Rule

variable {n : ℕ} {c : ExecConfig} {intents : Fin n → OrderIntent} {Hang Hang' : Event → Prop}
  {r r' : AbsRun n} {i : Fin n}

theorem Books.moves {R : Abs → Abs → Prop} (h : Books c Hang r) (hHang : ∀ e, Hang e → Hang' e)
    (hwired : Wired c intents r) (hmoves : r.Moves R i r')
    (hforeign : ∀ owner, (r.cores i).index ≠ owner → Foreign owner r.trace r'.trace)
    (hown : Book c Hang' (r'.cores i) r'.trace) : Books c Hang' r' := by
  intro j
  by_cases hj : j = i
  · rw [hj]; exact hown
  · have hother : (r.cores i).index ≠ (r.cores j).index := by
      rw [hwired.index i, hwired.index j]; exact fun heq => hj (Fin.ext heq.symm)
    rw [hmoves.others j hj]; exact ((h j).mono hHang).foreign (hforeign _ hother)

theorem safety_rule (c : ExecConfig) (intents : Fin n → OrderIntent) :
    RunRule c intents (Books c fun _ => False) (Books c fun _ => True) where
  weaken := fun _ h i => (h i).mono fun _ hfalse => hfalse.elim
  ambient := by
    intro r r' hmove _ h i
    obtain ⟨e, he, htrace⟩ := hmove.trace_cons
    have hcores : r'.cores = r.cores := by cases hmove <;> rfl
    rw [hcores, htrace]; exact (h i).hear he.orderOf
  ambientWeak := by
    intro r r' hmove _ h i
    obtain ⟨e, he, htrace⟩ := hmove.trace_cons
    have hcores : r'.cores = r.cores := by cases hmove <;> rfl
    rw [hcores, htrace]; exact (h i).hear he.orderOf
  turn := by
    intro r r' i hmoves hwired h
    refine h.moves (fun _ hfalse => hfalse) hwired hmoves
      (fun _ hne => (Turn.toBroken hmoves.own).foreign hne) ?_
    rcases hmoves.own with hreach | ⟨e, a₁, a₂, hreach₁, hsend, hreach₂, hlanded⟩
    · exact Reach.book hreach (h i)
    · exact Book.landed (Reach.book hreach₂ (hsend.book (Reach.book hreach₁ (h i)))) hlanded
  broken := by
    intro r r' i hmoves hwired h
    refine h.moves (fun _ hfalse => hfalse.elim) hwired hmoves
      (fun _ hne => hmoves.own.foreign hne) ?_
    rcases hmoves.own with hreach | ⟨e, a₁, a₂, hreach₁, hsend, hreach₂⟩
    · exact (Reach.book hreach (h i)).mono fun _ hfalse => hfalse.elim
    · exact (Reach.book hreach₂ (hsend.book (Reach.book hreach₁ (h i)))).mono fun _ _ => trivial
  settle := by
    intro r r' i hmoves hwired h
    exact h.moves (fun _ hpost => hpost) hwired hmoves (fun _ _ => hmoves.own.foreign)
      (hmoves.own.book (h i))

end Rule

/-! ## Safety -/

section Conclusions

variable {c : ExecConfig} {Hang : Event → Prop} {k : Core} {t : List Event} {e : Event}

section

variable (h : Book c Hang k t)

include h

theorem Book.executed_le (hlaw : Reliable c t) (he : e ∈ t) :
    ((ordersOf k.index t).map fun p => e.venue.executed p.newClientOrderId).sum
      ≤ k.intent.quantity := by
  have hnewest : ∀ {p : Event} {params : OrderParams}, Posted t k.index p params →
      e.venue.executed params.newClientOrderId ≤ params.quantity := by
    rintro p params ⟨hmem, tag, hcall, -⟩; exact hlaw.bounded p hmem tag params hcall e he
  cases h with
  | idle _ _ _ _ settled fits => exact (settled.executed_le hlaw he).trans fits
  | active _ _ _ orders posted qty _ _ _ settled fits =>
    have hold := settled.executed_le hlaw he
    have hnew := hnewest posted
    rw [orders, map_cons, sum_cons]; linarith
  | paper _ _ _ nonneg le settled fits =>
    have hold := settled.executed_le hlaw he; linarith
  | unresolved _ _ _ _ orders posted _ _ _ settled fits
  | hanging _ _ _ _ orders posted _ _ _ settled fits =>
    have hold := settled.executed_le hlaw he
    have hnew := hnewest posted
    rw [orders, map_cons, sum_cons]; linarith

theorem Book.one_order : k.activeId = none ∨ k.unresolvedId = none := by
  cases h with
  | idle noActive | unresolved noActive | hanging noActive => exact .inl noActive
  | active _ noUnresolved | paper _ noUnresolved => exact .inr noUnresolved

theorem Book.newest {orderId : String}
    (hout : (k.activeId = some orderId ∧ k.paperActive = false) ∨ k.unresolvedId = some orderId) :
    ∃ params, (ordersOf k.index t).head? = some params ∧ params.newClientOrderId = orderId := by
  cases h with
  | idle noActive noUnresolved | hanging noActive noUnresolved =>
    simp [noActive, noUnresolved] at hout
  | active active noUnresolved _ orders =>
    simp only [active, noUnresolved, Option.some.injEq, reduceCtorEq, or_false] at hout
    exact ⟨_, by rw [orders]; rfl, hout.1⟩
  | paper active noUnresolved paper => simp [noUnresolved, paper] at hout
  | unresolved noActive unresolved _ _ orders =>
    simp only [noActive, unresolved, Option.some.injEq, reduceCtorEq, false_and, false_or] at hout
    exact ⟨_, by rw [orders]; rfl, hout⟩

theorem Book.older_finished {params : OrderParams}
    (hp : params ∈ (ordersOf k.index t).tail) : ∃ cap, Finished c t params.newClientOrderId cap := by
  cases h with
  | idle _ _ _ _ settled | paper _ _ _ _ _ settled => exact settled.finished (mem_of_mem_tail hp)
  | active _ _ _ orders _ _ _ _ _ settled => rw [orders] at hp; exact settled.finished hp
  | unresolved _ _ _ _ orders _ _ _ _ settled | hanging _ _ _ _ orders _ _ _ _ settled =>
    rw [orders] at hp; exact settled.finished hp

end

end Conclusions

/-- **Executor safety**, at every point of `execute_intents`: an intent has at most one order out,
the newest, and under lawful answers its orders execute at most its quantity, if the executor acts
on late misses only. -/
theorem executeIntents_safe (c : ExecConfig) (intents : List OrderIntent) (journal : Journal)
    (script : List EnvStep) (i : Fin intents.length) :
    let run := (executeRun c intents (World.fresh journal script)).2
    ((run.rts i).activeId = none ∨ (run.rts i).unresolvedId = none) ∧
    (∀ orderId, ((run.rts i).activeId = some orderId ∧ (run.rts i).paperActive = false) ∨
        (run.rts i).unresolvedId = some orderId →
      ∃ params, (ordersOf i run.w.trace).head? = some params ∧ params.newClientOrderId = orderId) ∧
    (∀ params ∈ (ordersOf i run.w.trace).tail,
      ∃ cap, Finished c run.w.trace params.newClientOrderId cap) ∧
    (OutcomeLaw c run.w.trace → ActsLate c run.w.trace → ∀ e ∈ run.w.trace,
      ((ordersOf i run.w.trace).map fun p => e.venue.executed p.newClientOrderId).sum
        ≤ (intents.get i).quantity) := by
  intro run
  have hstart : Books c (fun _ => False) (initRun c intents (World.fresh journal script)).abs := by
    intro j; exact .idle rfl rfl rfl rfl le_rfl (intents.get j).quantity_nonneg
  have hrun := (safety_rule c intents.get).executeRun_keeps hstart
  have hbook : Book c (fun _ => True) (run.rts i).core run.w.trace := hrun.2 i
  have hindex : (run.rts i).core.index = i := hrun.1.index i
  have hintent : (run.rts i).core.intent = intents.get i := hrun.1.intent i
  refine ⟨hbook.one_order, fun orderId hout => hindex ▸ hbook.newest hout,
    fun params hp => hbook.older_finished (hindex ▸ hp), fun hlaw hlate e he => ?_⟩
  have htotal := hbook.executed_le ⟨hlaw, hlate⟩ he
  rw [hindex, hintent] at htotal; exact htotal

/-! ## Checking a finished trace -/

def OutcomeLaw.check (horizon : ℚ) (orderIds : List String) (trace : List Event) : Bool :=
  let never := fun orderId => trace.all fun e => decide (e.venue.executed orderId = 0)
  VenueLaw.check orderIds trace &&
  eachPost (fun p params => !(p.reply.raised.any classedNotPlaced) || never params.newClientOrderId) trace &&
  eachSplit (fun _ e older =>
    match e.missed with
    | some orderId => never orderId ||
        older.all fun p => p.posted != some orderId || decide (e.time - p.time < horizon)
    | none => true) [] trace

def ActsLate.check (horizon : ℚ) (trace : List Event) : Bool :=
  eachSplit (fun _ e older =>
    match e.missed with
    | some orderId => older.all fun p => p.posted != some orderId ||
        decide (e.reading - p.reading < horizon) || decide (horizon ≤ e.time - p.time)
    | none => true) [] trace

section Check

variable {c : ExecConfig} {trace : List Event}

theorem OutcomeLaw.of_check (orderIds : List String)
    (h : OutcomeLaw.check (unknownOutcomeHorizonS c) orderIds trace = true) : OutcomeLaw c trace := by
  simp only [OutcomeLaw.check, Bool.and_eq_true] at h
  obtain ⟨⟨hvenue, hposts⟩, hmisses⟩ := h
  refine ⟨.of_check orderIds hvenue, fun later e older hsplit orderId hmiss p hp hposted hlate => ?lateMiss,
    fun p hp tag params exc hcall hreply hclass => ?notPlaced⟩
  case lateMiss =>
    have hcheck := eachSplit_iff.mp hmisses later e older hsplit
    simp only [Event.missed_eq_some.mpr hmiss, Bool.or_eq_true, decide_eq_true_eq, all_eq_true] at hcheck
    refine hcheck.resolve_right fun hearly => ?_
    have hp := hearly p hp
    simp only [Event.posted_eq_some.mpr hposted, bne_self_eq_false, Bool.false_eq_true, false_or] at hp
    exact absurd hlate (not_le.mpr hp)
  case notPlaced =>
    have hcheck := eachPost_spec hposts hp hcall; simpa [hreply, Reply.raised, hclass] using hcheck

theorem ActsLate.of_check (h : ActsLate.check (unknownOutcomeHorizonS c) trace = true) : ActsLate c trace := by
  intro later e older hsplit orderId hmiss p hp hposts hreading
  have hcheck := eachSplit_iff.mp h later e older hsplit
  simp only [Event.missed_eq_some.mpr hmiss, all_eq_true] at hcheck
  have hp := hcheck p hp
  simp only [Event.posted_eq_some.mpr hposts, bne_self_eq_false, Bool.false_or, Bool.or_eq_true,
    decide_eq_true_eq] at hp
  exact hp.resolve_left (not_lt.mpr hreading)

end Check

def firstId : String := "mh20260101-AAAAAAAAAA-0-0-0"

def secondId : String := "mh20260101-AAAAAAAAAA-0-0-1"

/-- The close leg is posted at `sent` in the tick that started at 1, and the answer is lost; it is
missed at 30 and at 36, and a second order is posted, after which the venue has executed
`quantities`. -/
def missedScript (sent : ℚ) (quantities : Dict ℚ) : List EnvStep :=
  let books : Reply := .books (onBtc { bid := some (999 / 10), ask := some (1001 / 10) })
  let miss : Reply := .error (.venueError (some orderDoesNotExistCode) 400)
  [{ time := 0 }, { time := 1 }, { reply := books, time := 1 }, { time := 1 }, { time := 1 }, { time := 1 },
    { reply := .error .orderStatusUnknown, time := sent }, { time := sent }, { time := 30 }, { time := 30 },
    { reply := books, time := 30 }, { reply := miss, time := 30 }, { time := 36 }, { time := 36 },
    { reply := books, time := 36 }, { reply := miss, time := 36 }, { time := 36 }, { time := 36 }, { time := 36 },
    { time := 36 }, { time := 36 }, { time := 36 }, { time := 36 }, { time := 39, venue := ⟨quantities⟩ }]

/-- The order was sent 20 seconds into its tick, and is executed after all. -/
def earlyMissRun : Run 1 :=
  (executeRun (flipConfig (onBtc flipFilters) false) [sellTwo]
    (World.fresh Journal.empty (missedScript 21 (((∅ : Dict ℚ).insert firstId 2).insert secondId 2)))).2

/-- **The executor acts on a miss 15 seconds after the order was sent**: on lawful answers four are
executed of an intent of two. -/
theorem earlyMissRun_overfills :
    OutcomeLaw (flipConfig (onBtc flipFilters) false) earlyMissRun.w.trace ∧
    (ordersOf 0 earlyMissRun.w.trace).map OrderParams.newClientOrderId = [secondId, firstId] ∧
    ∃ e ∈ earlyMissRun.w.trace,
      ((ordersOf 0 earlyMissRun.w.trace).map fun p => e.venue.executed p.newClientOrderId).sum = 4 :=
  ⟨OutcomeLaw.of_check [firstId, secondId] (by decide +kernel), by decide +kernel, by decide +kernel⟩

/-- The order was sent at the start of its tick, and was never placed. -/
def lateMissRun : Run 1 :=
  (executeRun (flipConfig (onBtc flipFilters) false) [sellTwo]
    (World.fresh Journal.empty (missedScript 1 ((∅ : Dict ℚ).insert secondId 2)))).2

theorem executeIntents_safe_missed :
    (ordersOf 0 lateMissRun.w.trace).map OrderParams.newClientOrderId = [secondId, firstId] ∧
    ∀ e ∈ lateMissRun.w.trace,
      ((ordersOf 0 lateMissRun.w.trace).map fun p => e.venue.executed p.newClientOrderId).sum ≤ 2 := by
  refine ⟨by decide +kernel, ?_⟩
  have hlaw : OutcomeLaw (flipConfig (onBtc flipFilters) false) lateMissRun.w.trace :=
    OutcomeLaw.of_check [firstId, secondId] (by decide +kernel)
  have hlate : ActsLate (flipConfig (onBtc flipFilters) false) lateMissRun.w.trace :=
    ActsLate.of_check (by decide +kernel)
  exact (executeIntents_safe (flipConfig (onBtc flipFilters) false) [sellTwo] Journal.empty
    (missedScript 1 ((∅ : Dict ℚ).insert secondId 2)) 0).2.2.2 hlaw hlate

end CryptoPilot.Live
