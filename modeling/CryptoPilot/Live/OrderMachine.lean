/- # OrderMachine — the abstract machine of one intent's orders.

What the executor can DO to an order is short: hear an answer, journal a record, book an execution,
release a closed order, adopt or write off an unknown one, move the quote level, turn to IOC orders,
end the intent, or be blocked. `Step` is that list, with the guard the code has established at each;
`Send` is the one way an order is posted. -/
import CryptoPilot.Live.Executor
import CryptoPilot.Live.Trace

namespace CryptoPilot.Live

open CryptoPilot.Lib

/-! ## What a trace shows -/

def latestQuote : List Event → String → Option (ℚ × ℚ)
  | [], _ => none
  | e :: trace, symbol =>
    match e.call, e.reply with
    | .bookTickers, .books entries => quoteOf entries symbol
    | _, _ => latestQuote trace symbol

/-! ## Error classes of a post -/

/-- The errors that `_handle_post_error` journals NOT_PLACED (a margin error of an increase too). -/
def classedNotPlaced : Exc → Bool
  | .venueError code httpStatus =>
    decide (httpStatus = tooManyRequests) ||
      resolveErrorAction code ∈ [.retryBackoffLong, .marginWait, .benignReprice]
  | _ => false

/-- The errors that the executor journals terminal: those, the scoped rejections and "obsolete". -/
def classedRefused : Exc → Bool
  | .venueError code httpStatus =>
    decide (httpStatus = tooManyRequests) ||
      resolveErrorAction code ∈ [.retryBackoffLong, .marginWait, .benignReprice, .intentReject,
        .riskIncreaseFreeze]
  | .orderObsolete => true
  | _ => false

/-! ## The abstract state -/

structure Core where
  index : ℕ
  intent : OrderIntent
  filters : Option SymbolFilters
  phase : Phase
  activeId : Option String
  activePostQty : ℚ
  reportedExecuted : ℚ
  paperActive : Bool
  filledTotal : ℚ
  unresolvedId : Option String
  unresolvedPostQty : ℚ
  unresolvedAt : ℚ
  terminalStatus : Option OutcomeStatus
  blockReason : Option BlockReason
  passiveQuote : ℚ

def IntentRuntime.core (rt : IntentRuntime) : Core where
  index := rt.index
  intent := rt.intent
  filters := rt.filters
  phase := rt.phase
  activeId := rt.activeId
  activePostQty := rt.activePostQty
  reportedExecuted := rt.reportedExecuted
  paperActive := rt.paperActive
  filledTotal := rt.filledTotal
  unresolvedId := rt.unresolvedId
  unresolvedPostQty := rt.unresolvedPostQty
  unresolvedAt := rt.unresolvedAt
  terminalStatus := rt.terminalStatus
  blockReason := rt.blockReason
  passiveQuote := rt.passiveQuote

namespace Core

def remaining (k : Core) : ℚ := k.intent.quantity - k.filledTotal

/-- No order of the intent is out. -/
def Free (k : Core) : Prop := k.activeId = none ∧ k.unresolvedId = none

/-- The pricing rules find `price` at `touch`, for an order of this kind. -/
def Prices (c : ExecConfig) (k : Core) (filters : SymbolFilters) (touch : ℚ × ℚ)
    (timeInForce : TimeInForce) (price : ℚ) : Prop :=
  (timeInForce = .gtx ∧
      passivePrice c.policy k.intent filters k.passiveQuote touch.1 touch.2 = .ok (some price)) ∨
    (timeInForce = .ioc ∧
      backstopPrice c.policy k.intent filters touch.1 touch.2 = .ok (some price))

def book (k : Core) (quantity cumulative : ℚ) : Core :=
  { k with filledTotal := k.filledTotal + quantity, reportedExecuted := cumulative }

def release (k : Core) : Core :=
  { k with activeId := none, activePostQty := 0, reportedExecuted := 0, paperActive := false }

def adopt (k : Core) : Core :=
  { k with activeId := k.unresolvedId, activePostQty := k.unresolvedPostQty, reportedExecuted := 0,
           unresolvedId := none }

/-- The order `orderId` becomes active. -/
def activate (k : Core) (orderId : String) (postQty : ℚ) (paper : Bool) : Core :=
  { k with activeId := some orderId, activePostQty := postQty, reportedExecuted := 0,
           paperActive := if paper then true else k.paperActive }

/-- The order `orderId` was sent at `now` and its fate is unknown. -/
def suspend (k : Core) (orderId : String) (postQty now : ℚ) : Core :=
  { k with unresolvedId := some orderId, unresolvedPostQty := postQty, unresolvedAt := now }

def afterReply (k : Core) (orderId : String) (postQty now : ℚ) : Reply → Core
  | .error .orderStatusUnknown => k.suspend orderId postQty now
  | .error _ => k
  | .shadow => { k with terminalStatus := some .shadow }
  | .paper => k.activate orderId postQty true
  | _ => k.activate orderId postQty false

end Core

/-- The size of the next order at a price; nothing when the rest can never be posted. -/
def sizeAt (filters : SymbolFilters) (maxSlices : ℤ) (reduceOnly : Bool) (remaining price : ℚ) :
    Except Exc (Option ℚ) :=
  if remaining < filters.minQty then .ok none
  else do
    let postQty ← postQuantity remaining price filters.stepSize maxSlices
    if postQty < filters.minQty ∨ postQty * price < filters.minNotional then
      if remaining * price < filters.minNotional ∧ reduceOnly = false then pure none
      else pure (some remaining)
    else pure (some postQty)

/-- The size of the next order of the intent. -/
def Core.sizeAt (c : ExecConfig) (k : Core) (filters : SymbolFilters) (price : ℚ) :
    Except Exc (Option ℚ) :=
  Live.sizeAt filters c.policy.maxSlices k.intent.reduceOnly k.remaining price

structure Abs where
  core : Core
  closeLeg : Option (Option OutcomeStatus)
  journal : Journal
  trace : List Event
  reading : ℚ

def Local.abs (s : Local) : Abs where
  core := s.rt.core
  closeLeg := s.closeLeg
  journal := s.w.journal
  trace := s.w.trace
  reading := s.w.reading

/-- The active order can execute no more as far as the executor knows: closed with nothing unbooked,
or the post or intent booked whole. -/
def Abs.Settles (a : Abs) (orderId : String) : Prop :=
  (∃ e ∈ a.trace, ∃ x, e.ReportsClosed orderId x ∧ x ≤ a.core.reportedExecuted) ∨
    a.core.activePostQty ≤ a.core.reportedExecuted ∨ a.core.intent.quantity ≤ a.core.filledTotal

/-- The unknown submission was missed by a query at or after the horizon. -/
def Abs.MissedLate (c : ExecConfig) (a : Abs) (orderId : String) (e : Event) : Prop :=
  e.Misses orderId ∧ unknownOutcomeHorizonS c ≤ e.reading - a.core.unresolvedAt

inductive TerminalCause (c : ExecConfig) (a : Abs) : JournalTerminal → Prop where
  /-- the active order settled, and the last word on it is the venue's report -/
  | settled {t : JournalTerminal} {e : Event} {payload : OrderPayload}
      (active : a.core.activeId = some t.clientOrderId) (live : a.core.paperActive = false)
      (settles : a.Settles t.clientOrderId)
      (last : lastAnswer a.trace t.clientOrderId = some e) (report : e.reply = .order payload) :
      TerminalCause c a t
  /-- the active order is a simulated one -/
  | simulated {t : JournalTerminal} (active : a.core.activeId = some t.clientOrderId)
      (paper : a.core.paperActive = true)
      (placed : t.status ≠ "NOT_PLACED" ∧ t.status ≠ orderNotFoundStatus) : TerminalCause c a t
  /-- the last word on an unknown submission is a miss at or after the horizon -/
  | missed {t : JournalTerminal} {e : Event} (unresolved : a.core.unresolvedId = some t.clientOrderId)
      (status : t.status = "NOT_PLACED")
      (last : lastAnswer a.trace t.clientOrderId = some e)
      (late : a.MissedLate c t.clientOrderId e) : TerminalCause c a t
  /-- the post was refused -/
  | refused {t : JournalTerminal} {e : Event} {tag : OrderTag} {params : OrderParams} {exc : Exc}
      (last : lastAnswer a.trace t.clientOrderId = some e) (post : e.call = .newOrder tag params)
      (owner : tag.owner = a.core.index)
      (reply : e.reply = .error exc) (classed : classedRefused exc = true) : TerminalCause c a t

/-! ## Ends of an intent -/

/-- The venue or the client turned a post of the intent down. -/
def Abs.Refused (a : Abs) : Prop :=
  ∃ e ∈ a.trace, ∃ tag params exc, e.call = .newOrder tag params ∧ tag.owner = a.core.index ∧
    e.reply = .error exc ∧ exc ≠ .orderStatusUnknown

/-- **The ways an intent ends.** -/
inductive Ending (a : Abs) : OutcomeStatus → Prop where
  | whole (filled : a.core.remaining ≤ 0) : Ending a .filled
  /-- something is left, and may be too small to be posted -/
  | early {status : OutcomeStatus} (left : 0 < a.core.remaining) (short : status ≠ .filled) :
      Ending a status
  | refused {status : OutcomeStatus} (refused : a.Refused) (short : status ≠ .filled) :
      Ending a status

/-! ## Moves -/

def Abs.hear (a : Abs) (e : Event) : Abs := { a with trace := e :: a.trace }

def Abs.log (a : Abs) (e : Event) (record : Record) : Abs :=
  { a with trace := e :: a.trace, journal := a.journal.apply record }

def Abs.withCore (a : Abs) (k : Core) : Abs := { a with core := k }

/-- The close leg is lost, and the intent with it. -/
def Abs.block (a : Abs) : Abs :=
  a.withCore { a.core with terminalStatus := some .residual,
                           blockReason := some .blockedByCloseLeg }

/-- **What the executor can do to one intent, short of posting.**  `timed` allows it to read the
clock. -/
inductive Step (c : ExecConfig) (timed : Bool) : Abs → Abs → Prop where
  | heard {a : Abs} {e : Event} (quiet : e.call.quiet = true) (dated : e.reading = a.reading) :
      Step c timed a (a.hear e)
  | failedAppend {a : Abs} {e : Event} {record : Record} (call : e.call = .append record)
      (failed : e.reply.raised ≠ none) : Step c timed a (a.hear e)
  | tick {a : Abs} {e : Event} (call : e.call = .clock) (allowed : timed = true) :
      Step c timed a { a.hear e with reading := e.time }
  | schema {a : Abs} {e : Event} (logs : e.Logs .schema) : Step c timed a (a.log e .schema)
  | submit {a : Abs} {e : Event} {s : JournalSubmit} {q recordedAt : ℚ} (logs : e.Logs (.submit s))
      (seq : s.submitSeq = a.journal.nextSubmitSeq)
      (id : buildClientOrderId c.sha256 a.core.intent.clientOrderPrefix a.core.intent.symbol
        a.core.intent.legIndex 0 a.journal.nextSubmitSeq = .ok s.clientOrderId)
      (qty : s.quantity = some q) (pos : 0 < q) (recorded : s.recordedAt = some recordedAt) :
      Step c timed a (a.log e (.submit s))
  | bookFill {a : Abs} {e r : Event} {f : JournalFill} {orderId : String} {x : ℚ}
      (active : a.core.activeId = some orderId) (live : a.core.paperActive = false)
      (mem : r ∈ a.trace) (report : r.Reports orderId x) (new : a.core.reportedExecuted < x)
      (bounded : x ≤ a.core.activePostQty) (logs : e.Logs (.fill f))
      (id : f.clientOrderId = some orderId) (qty : f.quantity = x - a.core.reportedExecuted)
      (cumulative : f.cumulativeExecutedQty = some x) (real : f.simulated = false)
      (seq : f.fillSeq = a.journal.nextFillSeq) (fresh : a.journal.observedQty orderId < x)
      (label : f.liquidity = (if a.core.phase = .passive then Liquidity.maker else .taker).text) :
      Step c timed a ((a.log e (.fill f)).withCore (a.core.book (x - a.core.reportedExecuted) x))
  | paperFill {a : Abs} {e : Event} {f : JournalFill} {orderId : String} {q : ℚ}
      (active : a.core.activeId = some orderId) (paper : a.core.paperActive = true) (pos : 0 < q)
      (whole : a.core.reportedExecuted + q = a.core.activePostQty) (logs : e.Logs (.fill f))
      (cumulative : f.cumulativeExecutedQty = none) (simulated : f.simulated = true)
      (seq : f.fillSeq = a.journal.nextFillSeq) (id : f.clientOrderId = some orderId) :
      Step c timed a ((a.log e (.fill f)).withCore
        (a.core.book q (a.core.reportedExecuted + q)))
  | terminal {a : Abs} {e : Event} {t : JournalTerminal} (cause : TerminalCause c a t)
      (logs : e.Logs (.terminal t)) : Step c timed a (a.log e (.terminal t))
  | release {a : Abs} {orderId : String} (active : a.core.activeId = some orderId)
      (why : a.core.paperActive = true ∨ a.Settles orderId) :
      Step c timed a (a.withCore a.core.release)
  | adopt {a : Abs} {orderId : String} (unresolved : a.core.unresolvedId = some orderId) :
      Step c timed a (a.withCore a.core.adopt)
  | writeOff {a : Abs} {orderId : String} {e : Event}
      (unresolved : a.core.unresolvedId = some orderId)
      (last : lastAnswer a.trace orderId = some e) (late : a.MissedLate c orderId e) :
      Step c timed a (a.withCore { a.core with unresolvedId := none })
  | repeg {a : Abs} {q : ℚ} (inBand : QuoteInBand c.policy a.core.intent q) :
      Step c timed a (a.withCore { a.core with passiveQuote := q })
  | escalate {a : Abs} (noActive : a.core.activeId = none) (noUnresolved : a.core.unresolvedId = none) :
      Step c timed a (a.withCore { a.core with phase := .ioc })
  | finish {a : Abs} {status : OutcomeStatus} (running : a.core.terminalStatus = none)
      (ending : Ending a status) :
      Step c timed a (a.withCore { a.core with terminalStatus := some status })
  | block {a : Abs} (blocked : gateState a.closeLeg = .blocked) : Step c timed a a.block

abbrev Reach (c : ExecConfig) (timed : Bool) : Abs → Abs → Prop :=
  Relation.ReflTransGen (Step c timed)

/-- **The conditions under which an order is posted**: the gate is open, no other order of the
intent is out, the submission was just journaled under this id, the quantity is a positive part of
what remains, and the price is of the pricing rules on the book just fetched. -/
structure SendReady (c : ExecConfig) (a : Abs) (e : Event) (tag : OrderTag) (params : OrderParams) : Prop where
  call : e.call = .newOrder tag params
  owner : tag.owner = a.core.index
  closeLeg : tag.closeLeg = a.closeLeg
  gate : gateState a.closeLeg = .opened
  running : a.core.terminalStatus = none
  noActive : a.core.activeId = none
  noUnresolved : a.core.unresolvedId = none
  phase : params.timeInForce = .gtx ↔ a.core.phase = .passive
  dated : e.reading = a.reading
  symbol : params.symbol = a.core.intent.symbol
  side : params.side = a.core.intent.side
  type : params.type = "LIMIT"
  qty_pos : 0 < params.quantity
  qty_le : params.quantity ≤ a.core.intent.quantity - a.core.filledTotal
  journaled : ∃ e₀ s rest, a.trace = e₀ :: rest ∧ e₀.Logs (.submit s) ∧
    s.clientOrderId = params.newClientOrderId ∧ s.quantity = some params.quantity
  priced : ∃ filters touch, a.core.filters = some filters ∧
    latestQuote a.trace a.core.intent.symbol = some touch ∧
    a.core.Prices c filters touch params.timeInForce params.price
  sized : ∀ filters, a.core.filters = some filters →
    a.core.sizeAt c filters params.price = .ok (some params.quantity)

def Abs.afterSend (a : Abs) (e : Event) (params : OrderParams) : Abs :=
  (a.hear e).withCore
    (a.core.afterReply params.newClientOrderId params.quantity a.reading e.reply)

/-- **Posting one order.** -/
def Send (c : ExecConfig) (e : Event) (a a' : Abs) : Prop :=
  ∃ tag params, SendReady c a e tag params ∧ a' = a.afterSend e params

/-- The reply of a post is accounted for: the order is active, of unknown fate or never placed, or
the intent is over. -/
def Landed (e : Event) (a : Abs) : Prop :=
  a.core.terminalStatus ≠ none ∨
    ∀ exc, e.reply = .error exc → exc = .orderStatusUnknown ∨ classedNotPlaced exc = true

/-- One turn of an intent that returns: at most one post, its reply accounted for. -/
def Turn (c : ExecConfig) (a a' : Abs) : Prop :=
  Reach c false a a' ∨
    ∃ e a₁ a₂, Reach c false a a₁ ∧ Send c e a₁ a₂ ∧ Reach c false a₂ a' ∧ Landed e a'

def BrokenTurn (c : ExecConfig) (a a' : Abs) : Prop :=
  Reach c false a a' ∨ ∃ e a₁ a₂, Reach c false a a₁ ∧ Send c e a₁ a₂ ∧ Reach c false a₂ a'

end CryptoPilot.Live
