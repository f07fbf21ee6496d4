/- # Venue — the outside of the live process: the venue, the clock, the journal file.

Everything the live code does to the outside is a `Call`; everything it hears back is a `Reply`.  A
`World` holds the journal, the trace of what was said and heard, and the SCRIPT of what the outside
will answer.  A statement about every script is one about every sequence of venue answers; and since
a run whose script ends is a process that died at that call, also about every point of every run. -/
import Mathlib.Order.Basic
import Mathlib.Data.List.Basic
import CryptoPilot.Live.Pricing
import CryptoPilot.Live.ClientOrderId
import CryptoPilot.Live.OrderJournal

namespace CryptoPilot.Live

open CryptoPilot.Lib

/-! ## What the venue says -/

/-- A decimal field of a venue payload: absent, present but no finite decimal, or a number. -/
inductive VenueDecimal where
  | missing
  | invalid
  | value (q : ℚ)
  deriving DecidableEq

/-- The fields of an order query that the live code reads. -/
structure OrderPayload where
  status : String
  executedQty : VenueDecimal
  avgPrice : VenueDecimal := .missing
  side : Option String := none
  updateTime : Option ℤ := none
  time : Option ℤ := none
  deriving DecidableEq

structure OpenOrder where
  clientOrderId : String
  symbol : Option String
  side : Option String := none
  avgPrice : VenueDecimal := .missing
  deriving DecidableEq

/-- A `bookTicker` entry: a price is `none` when missing or no finite decimal; `quantitiesOk` is
false when a quantity is no finite decimal. -/
structure BookEntry where
  bid : Option ℚ
  ask : Option ℚ
  quantitiesOk : Bool := true
  deriving DecidableEq

/-- `parse_book_quote`: a two-sided, uncrossed touch or nothing. -/
def parseBookQuote (entry : BookEntry) : Option (ℚ × ℚ) :=
  match entry.bid, entry.ask with
  | some bid, some ask =>
    if bid ≤ 0 ∨ ask ≤ 0 ∨ ¬ bid < ask then none
    else if entry.quantitiesOk then some (bid, ask) else none
  | _, _ => none

theorem parseBookQuote_eq_some {entry : BookEntry} {bid ask : ℚ}
    (h : parseBookQuote entry = some (bid, ask)) : 0 < bid ∧ 0 < ask ∧ bid < ask := by
  unfold parseBookQuote at h
  split at h
  · next b a hb ha =>
    split_ifs at h with hbad hqty
    obtain ⟨rfl, rfl⟩ := Prod.mk.inj (Option.some.inj h)
    rw [not_or, not_or, not_not] at hbad; exact ⟨not_le.mp hbad.1, not_le.mp hbad.2.1, hbad.2.2⟩
  · cases h

def quoteOf (entries : Dict BookEntry) (symbol : String) : Option (ℚ × ℚ) :=
  (entries.lookup symbol).bind parseBookQuote

/-- `Decimal(str(payload.get("executedQty", "0")))`: the executed quantity as the executor reads it.
-/
def readExecuted : VenueDecimal → Except Exc ℚ
  | .missing => .ok 0
  | .invalid => .error .other
  | .value q => .ok q

/-- `RateLimitState`, as the venue reports it. -/
structure RateLimitState where
  usedWeight1m : Option ℤ
  orderCount1m : Option ℤ
  orderCount10s : Option ℤ
  deriving DecidableEq

structure RateLimits where
  requestWeight1m : ℤ
  orders1m : ℤ
  orders10s : ℤ
  deriving DecidableEq

/-- `OUTCOME_STATUSES`: the closed outcome set of one intent. -/
inductive OutcomeStatus where
  | filled
  | residual
  | residualSubMinimum
  | rejected
  | shadow
  | obsolete
  deriving DecidableEq, Repr

/-! ## What the live code says -/

inductive AuditKind where
  | quoteInvalid
  | orderCancelled
  | orderCancelUnconfirmed
  | fill
  | flipOpenWaiting
  | flipOpenBlocked
  | intentOutcome
  | executionInterrupted
  | tickSkippedReadFailure
  | abortCleanupFailed
  | orderUnknownAdopted
  | orderUnknownNotPlaced
  | orderUnknownLeftUnresolved
  | orderStatusUnknown
  | intentRejected
  | intentSubMinimum
  | intentObsolete
  | intentMarginWait
  | orderRateLimited
  | riskIncreaseFrozen
  | orderPosted
  | paperFilled
  | paperTapeDegraded
  | orderResidual
  | foreignOpenOrder
  | orphanCancelled
  | orphanCancelUnconfirmed
  | orphanSettled
  | orderRecovered
  | orderRecoveryResolved
  deriving DecidableEq, Repr

/-- The parameters of `new_order`. -/
structure OrderParams where
  symbol : String
  side : Side
  type : String
  timeInForce : TimeInForce
  quantity : ℚ
  price : ℚ
  newClientOrderId : String
  reduceOnly : Bool
  deriving DecidableEq

/-- Who posts an order: the position of its intent, and the state of its close leg (if any) at the
post. -/
structure OrderTag where
  owner : ℕ
  closeLeg : Option (Option OutcomeStatus)
  deriving DecidableEq

inductive Call where
  | clock
  | utcNow
  | sleep (seconds : ℚ)
  | audit (kind : AuditKind)
  | append (record : Record)
  | bookTickers
  | queryOrder (symbol clientOrderId : String)
  | cancelOrder (symbol clientOrderId : String)
  | newOrder (tag : OrderTag) (params : OrderParams)
  | openOrders
  | shutdownRequested
  | rateState
  | clockOffsetMarginMs
  | tapeIsLive (symbol : String) (nowMs : ℤ)
  | tapeTradedThrough (symbol : String) (side : Side) (price : ℚ) (sinceMs : ℤ)

inductive Reply where
  /-- the call raises -/
  | error (exc : Exc)
  /-- the call returns nothing of interest; for `new_order`, the venue accepted the order -/
  | done
  | order (payload : OrderPayload)
  /-- `PaperResponse`: the order was not sent and is simulated -/
  | paper
  /-- `ShadowResponse`: the order was not sent -/
  | shadow
  | books (entries : Dict BookEntry)
  | openOrders (entries : List OpenOrder)
  | flag (b : Bool)
  | millis (ms : Option ℤ)
  | rate (state : Option RateLimitState)

/-! ## The world -/

/-- The venue's truth at an instant: what each client order id has executed. -/
structure Venue where
  quantities : Dict ℚ := ∅

/-- What an order has executed; an order the venue does not know has executed nothing. -/
def Venue.executed (v : Venue) (orderId : String) : ℚ := (v.quantities.lookup orderId).getD 0

/-- One answer of the script, with its instant and the venue's truth. -/
structure EnvStep where
  reply : Reply := .done
  time : ℚ := 0
  venue : Venue := {}

/-- One call and its answer.  `reading` is the live code's last `clock()` reading at the call. -/
structure Event where
  call : Call
  reply : Reply
  time : ℚ
  reading : ℚ
  venue : Venue

/-- The journal, what was said and heard (newest first), the last clock reading and the script. -/
structure World where
  journal : Journal
  trace : List Event
  reading : ℚ
  script : List EnvStep

/-- A process that starts with `journal` and will hear `script`. -/
def World.fresh (journal : Journal) (script : List EnvStep) : World where
  journal := journal
  trace := []
  reading := 0
  script := script

abbrev WorldM : Type → Type := Proc Exc World

/-- The event of a call that was answered by `step`. -/
def World.event (w : World) (call : Call) (step : EnvStep) : Event where
  call := call
  reply := step.reply
  time := step.time
  reading := w.reading
  venue := step.venue

def perform (call : Call) : WorldM EnvStep := fun w =>
  match w.script with
  | [] => (.error .killed, w)
  | step :: rest => (.ok step, { w with trace := w.event call step :: w.trace, script := rest })

def Reply.raised : Reply → Option Exc
  | .error exc => some exc
  | _ => none

def command (call : Call) : WorldM Unit := do
  let step ← perform call
  match step.reply.raised with
  | some exc => Proc.throw exc
  | none => pure ()

/-- A call whose result is read off the reply; an answer of another shape raises. -/
def request {α : Type} (read : Reply → Option α) (call : Call) : WorldM α := do
  let step ← perform call
  match step.reply.raised, read step.reply with
  | some exc, _ => Proc.throw exc
  | none, some a => pure a
  | none, none => Proc.throw .other

/-- An attribute that cannot raise; an absent one reads as the default. -/
def readAttr {α : Type} (read : Reply → α) (call : Call) : WorldM α := do
  let step ← perform call
  pure (read step.reply)

/-- `clock()`. -/
def clock : WorldM ℚ := do
  let step ← perform .clock
  Proc.modify fun w => { w with reading := step.time }
  pure step.time

/-- `_utc_now()`. -/
def utcNow : WorldM ℚ := do
  let step ← perform .utcNow
  pure step.time

/-- `sleep_fn`. -/
def sleep (seconds : ℚ) : WorldM Unit := command (.sleep seconds)

/-- `audit.record`. -/
def auditRecord (kind : AuditKind) : WorldM Unit := command (.audit kind)

def Reply.asOrder : Reply → Option OrderPayload
  | .order payload => some payload
  | _ => none

def Reply.asBooks : Reply → Option (Dict BookEntry)
  | .books entries => some entries
  | _ => none

def Reply.asOpenOrders : Reply → Option (List OpenOrder)
  | .openOrders entries => some entries
  | _ => none

def Reply.asFlag : Reply → Bool
  | .flag b => b
  | _ => false

def Reply.asMillis : Reply → Option (Option ℤ)
  | .millis ms => some ms
  | _ => none

def Reply.asRate : Reply → Option RateLimitState
  | .rate state => state
  | _ => none

def queryOrder (symbol orderId : String) : WorldM OrderPayload :=
  request Reply.asOrder (.queryOrder symbol orderId)

/-- `client.cancel_order`; its response is never read (I-CANCEL-CONFIRMED). -/
def cancelOrder (symbol orderId : String) : WorldM Unit := command (.cancelOrder symbol orderId)

def bookTickers : WorldM (Dict BookEntry) := request Reply.asBooks .bookTickers

def openOrders : WorldM (List OpenOrder) := request Reply.asOpenOrders .openOrders

/-- `client.new_order`: the venue's (or the mode's) reply. -/
def newOrder (tag : OrderTag) (params : OrderParams) : WorldM Reply := do
  let step ← perform (.newOrder tag params)
  pure step.reply

/-- `shutdown.requested`. -/
def shutdownRequested : WorldM Bool := readAttr Reply.asFlag .shutdownRequested

def rateState : WorldM (Option RateLimitState) := readAttr Reply.asRate .rateState

/-- `client.clock_offset_margin_ms` as its readers use it: a positive integer or 0. -/
def clockOffsetMarginMs : WorldM ℤ :=
  readAttr (fun r => max 0 ((r.asMillis.getD none).getD 0)) .clockOffsetMarginMs

/-- `paper_tape.is_live`. -/
def tapeIsLive (symbol : String) (nowMs : ℤ) : WorldM Bool :=
  request (fun r => some r.asFlag) (.tapeIsLive symbol nowMs)

/-- `paper_tape.traded_through`. -/
def tapeTradedThrough (symbol : String) (side : Side) (price : ℚ) (sinceMs : ℤ) : WorldM (Option ℤ) :=
  request Reply.asMillis (.tapeTradedThrough symbol side price sinceMs)

/-! ## The journal as a file of the world -/

/-- `_append`: an append either raises and leaves the journal alone, or is durable. -/
def appendRecord (record : Record) : WorldM Unit := do
  command (.append record)
  Proc.modify fun w => { w with journal := w.journal.apply record }

def ensureV2Schema : WorldM Unit := do
  let w ← Proc.get
  if w.journal.hasSchema then pure () else appendRecord .schema

def beginAttempt (context : AttemptContext) : WorldM JournalAttempt := do
  let w ← Proc.get
  let attempt := w.journal.newAttempt context
  ensureV2Schema
  appendRecord (.attempt attempt)
  pure attempt

def recordSubmit (clientOrderId symbol : String) (submitSeq attemptSeq : ℤ) (side : Side)
    (quantity : ℚ) (reduceOnly : Bool) (legIndex : ℤ) : WorldM JournalSubmit := do
  let w ← Proc.get
  let submit ← Proc.ofExcept (w.journal.newSubmit clientOrderId symbol submitSeq attemptSeq
    side.text quantity reduceOnly legIndex)
  let recordedAt ← utcNow
  ensureV2Schema
  appendRecord (.submit (submit recordedAt))
  pure (submit recordedAt)

def recordFill (draft : FillDraft) : WorldM JournalFill := do
  let w ← Proc.get
  let fill ← Proc.ofExcept (w.journal.newFill draft)
  ensureV2Schema
  appendRecord (.fill fill)
  pure fill

def recordTerminal (clientOrderId status : String) : WorldM Unit := do
  let recordedAt ← utcNow
  ensureV2Schema
  appendRecord (.terminal { clientOrderId := clientOrderId, status := status,
                            recordedAt := recordedAt })

/-! ## What a call does to the world -/

/-- `w'` is `w` after a call that was answered by the event `e`. -/
structure World.Heard (w : World) (call : Call) (e : Event) (w' : World) : Prop where
  trace : w'.trace = e :: w.trace
  call : e.call = call
  dated : e.reading = w.reading
  journal : w'.journal = w.journal
  reading : w'.reading = w.reading

/-- `w'` is `w` after a durable append. -/
structure World.Appended (w : World) (record : Record) (e : Event) (w' : World) : Prop where
  trace : w'.trace = e :: w.trace
  call : e.call = .append record
  reply : e.reply.raised = none
  dated : e.reading = w.reading
  journal : w'.journal = w.journal.apply record
  reading : w'.reading = w.reading

section Rules

open Proc

variable {α : Type} {call : Call} {w : World} {E : Exc → World → Prop}

theorem wp_perform {Q : EnvStep → World → Prop} (killed : E .killed w)
    (answered : ∀ step e w', w.Heard call e w' → e.reply = step.reply → e.time = step.time →
      Q step w') : wp (perform call) Q E w := by
  unfold wp perform
  cases hscript : w.script with
  | nil => exact killed
  | cons step rest => exact answered step _ _ ⟨rfl, rfl, rfl, rfl, rfl⟩ rfl rfl

variable {Q : Unit → World → Prop}

section

variable (killed : E .killed w)

include killed

theorem wp_command (ok : ∀ e w', w.Heard call e w' → e.reply.raised = none → Q () w')
    (raised : ∀ e w' exc, w.Heard call e w' → e.reply.raised = some exc → E exc w') :
    wp (command call) Q E w := by
  rw [command, wp_bind]
  refine wp_perform killed fun step e w' hw hreply _ => ?_
  cases hr : step.reply.raised with
  | none => exact ok e w' hw (by rw [hreply, hr])
  | some exc => exact raised e w' exc hw (by rw [hreply, hr])

theorem wp_request {read : Reply → Option α} {Q : α → World → Prop}
    (ok : ∀ a e w', w.Heard call e w' → read e.reply = some a → Q a w')
    (raised : ∀ e w' exc, w.Heard call e w' → e.reply = .error exc → E exc w')
    (malformed : ∀ e w', w.Heard call e w' → E .other w') : wp (request read call) Q E w := by
  rw [request, wp_bind]
  refine wp_perform killed fun step e w' hw hreply _ => ?_
  cases hr : step.reply.raised with
  | some exc =>
    refine raised e w' exc hw ?_
    cases hrep : step.reply <;> simp_all [Reply.raised]
  | none =>
    cases ha : read step.reply with
    | some a => exact ok a e w' hw (by rw [hreply, ha])
    | none => exact malformed e w' hw

theorem wp_readAttr {read : Reply → α} {Q : α → World → Prop}
    (ok : ∀ a e w', w.Heard call e w' → Q a w') : wp (readAttr read call) Q E w := by
  rw [readAttr, wp_bind]; exact wp_perform killed fun step e w' hw _ _ => ok _ e w' hw

theorem wp_clock {Q : ℚ → World → Prop}
    (ok : ∀ e w', w'.trace = e :: w.trace → e.call = .clock → w'.journal = w.journal → 
      w'.reading = e.time → Q e.time w') :
    wp clock Q E w := by
  rw [clock, wp_bind]
  refine wp_perform killed fun step e w' hw _ htime => ?_
  rw [← htime]; exact ok e _ hw.trace hw.call hw.journal rfl

theorem wp_utcNow {Q : ℚ → World → Prop} (ok : ∀ e w', w.Heard .utcNow e w' → Q e.time w') :
    wp utcNow Q E w := by
  rw [utcNow, wp_bind]
  refine wp_perform killed fun step e w' hw _ htime => ?_
  rw [← htime]; exact ok e w' hw

theorem wp_appendRecord {record : Record} (ok : ∀ e w', w.Appended record e w' → Q () w')
    (raised : ∀ e w' exc, w.Heard (.append record) e w' → e.reply.raised = some exc → E exc w') :
    wp (appendRecord record) Q E w := by
  rw [appendRecord, wp_bind]
  refine wp_command killed (fun e w' hw hr => ?_) raised
  exact ok e _ ⟨hw.trace, hw.call, hr, hw.dated, by simp only [hw.journal], hw.reading⟩

end

end Rules

end CryptoPilot.Live
