/- # OrderJournal — the write-ahead journal of submissions, fills and terminal states.

A record is one line of the journal file; `Journal` is what `_apply_record` folds the lines into,
and also what every append keeps in memory, so a reload and the live object are the same fold
(`Journal.load`).  The bytes of the file are `Live.JournalFile`. -/
import Mathlib.Algebra.Order.Ring.Rat
import Mathlib.Data.List.Sort
import CryptoPilot.Lib.Dict
import CryptoPilot.Lib.Effect
import CryptoPilot.Live.Errors

namespace CryptoPilot.Live

open CryptoPilot.Lib

/-! ## Records -/

inductive FillKind where
  | execution
  | orphanSettlement
  | recovered
  | venueForceClose
  | operatorResync
  deriving DecidableEq, Repr

/-- The arguments of `begin_attempt`: the context of one execution attempt. -/
structure AttemptContext where
  decisionTime : ℚ
  runId : String
  mode : String
  preTradeEquity : ℚ
  sizingAnchor : String
  decisionMarks : List (String × ℚ)
  startedAt : ℚ
  deriving DecidableEq

/-- `JournalAttempt`: an attempt with its sequence number. -/
structure JournalAttempt extends AttemptContext where
  attemptSeq : ℤ
  deriving DecidableEq

/-- `JournalSubmit`: a submission recorded before the send. -/
structure JournalSubmit where
  clientOrderId : String
  symbol : String
  submitSeq : ℤ
  attemptSeq : Option ℤ
  side : Option String
  quantity : Option ℚ
  reduceOnly : Option Bool
  legIndex : Option ℤ
  recordedAt : Option ℚ
  deriving DecidableEq

/-- The arguments of `record_fill`. -/
structure FillDraft where
  kind : FillKind
  attemptSeq : Option ℤ
  symbol : String
  side : String
  quantity : ℚ
  price : ℚ
  feeBps : ℚ
  liquidity : String
  reason : String
  filledAt : ℚ
  clientOrderId : Option String
  legIndex : ℤ
  cumulativeExecutedQty : Option ℚ
  simulated : Bool
  deriving DecidableEq

/-- `JournalFill`: one durable fill delta with its sequence number. -/
structure JournalFill extends FillDraft where
  fillSeq : ℤ
  deriving DecidableEq

/-- `JournalTerminal`: no further fill of the id is possible. -/
structure JournalTerminal where
  clientOrderId : String
  status : String
  recordedAt : ℚ
  deriving DecidableEq

inductive Record where
  | schema
  | submit (s : JournalSubmit)
  | observed (clientOrderId : String) (executedQty : ℚ)
  | attempt (a : JournalAttempt)
  | fill (f : JournalFill)
  | terminal (t : JournalTerminal)
  deriving DecidableEq

/-! ## The fold -/

/-- The in-memory state of `OrderJournal`. -/
structure Journal where
  nextSubmitSeq : ℕ
  nextFillSeq : ℕ
  nextAttemptSeq : ℕ
  observedLegacy : Dict ℚ
  attempts : List JournalAttempt
  submits : List JournalSubmit
  fills : List JournalFill
  terminals : Dict JournalTerminal
  hasSchema : Bool

namespace Journal

def empty : Journal where
  nextSubmitSeq := 0
  nextFillSeq := 0
  nextAttemptSeq := 0
  observedLegacy := ∅
  attempts := []
  submits := []
  fills := []
  terminals := ∅
  hasSchema := false

/-- `_apply_record` on a well-formed record: the counters only rise. -/
def apply (j : Journal) : Record → Journal
  | .schema => { j with hasSchema := true }
  | .submit s =>
    { j with nextSubmitSeq := max j.nextSubmitSeq (s.submitSeq + 1).toNat,
             submits := j.submits ++ [s] }
  | .observed orderId qty =>
    if j.observedLegacy.get orderId 0 < qty then
      { j with observedLegacy := j.observedLegacy.insert orderId qty }
    else j
  | .attempt a =>
    { j with nextAttemptSeq := max j.nextAttemptSeq (a.attemptSeq + 1).toNat,
             attempts := j.attempts ++ [a] }
  | .fill f =>
    { j with nextFillSeq := max j.nextFillSeq (f.fillSeq + 1).toNat, fills := j.fills ++ [f] }
  | .terminal t => { j with terminals := j.terminals.insert t.clientOrderId t }

/-- `_ensure_loaded` over the records of a file. -/
def load (records : List Record) : Journal := records.foldl apply empty

theorem load_append (records : List Record) (record : Record) :
    load (records ++ [record]) = (load records).apply record := List.foldl_concat ..

def cumulativeOf (orderId : String) (f : JournalFill) : Option ℚ :=
  if f.clientOrderId = some orderId then f.cumulativeExecutedQty else none

def observedQty (j : Journal) (orderId : String) : ℚ :=
  (j.fills.filterMap (cumulativeOf orderId)).foldl max (j.observedLegacy.get orderId 0)

/-- `terminal(client_order_id)`. -/
def terminal (j : Journal) (orderId : String) : Option JournalTerminal := j.terminals.lookup orderId

def lastFillSeq (j : Journal) : ℤ := (j.nextFillSeq : ℤ) - 1

def fillsAfter (j : Journal) (fillSeq : ℤ) : List JournalFill :=
  j.fills.filter (fun f => decide (fillSeq < f.fillSeq))

/-- The submission an id was recorded with, the last one of the dict `{id: submit}`. -/
def submitOf (j : Journal) (orderId : String) : Option JournalSubmit :=
  j.submits.reverse.find? (fun s => decide (s.clientOrderId = orderId))

/-- `s.recorded_at >= floor`; the sentinel precedes every instant. -/
def recordedSince (floor : ℚ) (s : JournalSubmit) : Bool :=
  match s.recordedAt with
  | none => false
  | some t => decide (floor ≤ t)

/-- `unresolved_submits`: schema-v2 submissions since `floor` without a terminal record, by
`submit_seq`. -/
def unresolvedSubmits (j : Journal) (floor : ℚ) : List JournalSubmit :=
  (j.submits.filter (fun s => s.attemptSeq.isSome && recordedSince floor s &&
    (j.terminal s.clientOrderId).isNone)).insertionSort (fun a b => a.submitSeq ≤ b.submitSeq)

/-! ## The checks of the recording operations -/

/-- `record_submit` up to its append: the record to write, given the instant it reads. -/
def newSubmit (j : Journal) (clientOrderId symbol : String) (submitSeq attemptSeq : ℤ)
    (side : String) (quantity : ℚ) (reduceOnly : Bool) (legIndex : ℤ) : Except Exc (ℚ → JournalSubmit) :=
  if submitSeq ≠ j.nextSubmitSeq then .error .valueError
  else if side ≠ "BUY" ∧ side ≠ "SELL" then .error .valueError
  else if quantity ≤ 0 then .error .valueError
  else if legIndex < 0 then .error .valueError
  else .ok fun recordedAt =>
    { clientOrderId := clientOrderId, symbol := symbol, submitSeq := submitSeq,
      attemptSeq := some attemptSeq, side := some side, quantity := some quantity,
      reduceOnly := some reduceOnly, legIndex := some legIndex, recordedAt := some recordedAt }

/-- `record_fill` up to its append: the fill with its sequence number. -/
def newFill (j : Journal) (d : FillDraft) : Except Exc JournalFill :=
  if d.side ≠ "BUY" ∧ d.side ≠ "SELL" then .error .valueError
  else if d.liquidity ≠ "maker" ∧ d.liquidity ≠ "taker" then .error .valueError
  else if d.quantity ≤ 0 then .error .valueError
  else if d.price ≤ 0 then .error .valueError
  else if d.feeBps < 0 then .error .valueError
  else
    match d.cumulativeExecutedQty, d.clientOrderId with
    | some cumulative, some orderId =>
      if cumulative ≤ j.observedQty orderId then .error .valueError
      else .ok { toFillDraft := d, fillSeq := j.nextFillSeq }
    | _, _ => .ok { toFillDraft := d, fillSeq := j.nextFillSeq }

/-- `begin_attempt` up to its append. -/
def newAttempt (j : Journal) (context : AttemptContext) : JournalAttempt where
  toAttemptContext := context
  attemptSeq := j.nextAttemptSeq

/-! ## What the fold does to each field -/

section Apply

variable (j : Journal) (s : JournalSubmit) (f : JournalFill) (t : JournalTerminal)

@[simp] theorem apply_schema_fills : (j.apply .schema).fills = j.fills := rfl

@[simp] theorem apply_submit_fills : (j.apply (.submit s)).fills = j.fills := rfl

@[simp] theorem apply_fill_fills : (j.apply (.fill f)).fills = j.fills ++ [f] := rfl

@[simp] theorem apply_terminal_fills : (j.apply (.terminal t)).fills = j.fills := rfl

@[simp] theorem apply_schema_submits : (j.apply .schema).submits = j.submits := rfl

@[simp] theorem apply_submit_submits : (j.apply (.submit s)).submits = j.submits ++ [s] := rfl

@[simp] theorem apply_fill_submits : (j.apply (.fill f)).submits = j.submits := rfl

@[simp] theorem apply_terminal_submits : (j.apply (.terminal t)).submits = j.submits := rfl

/-- **The submit counter never falls.** -/
theorem nextSubmitSeq_le_apply (r : Record) : j.nextSubmitSeq ≤ (j.apply r).nextSubmitSeq := by
  cases r with
  | submit s => exact le_max_left _ _
  | observed orderId qty =>
    simp only [apply]
    split <;> exact le_rfl
  | _ => exact le_rfl

end Apply

theorem observedQty_fill (j : Journal) (f : JournalFill) (orderId : String) :
    (j.apply (.fill f)).observedQty orderId =
      match cumulativeOf orderId f with
      | some x => max (j.observedQty orderId) x
      | none => j.observedQty orderId := by
  simp only [observedQty, apply, List.filterMap_append]
  cases hc : cumulativeOf orderId f with
  | none => simp [hc]
  | some x => simp [hc, List.foldl_append]

variable {j : Journal}

theorem le_observedQty_fill {f : JournalFill} {orderId : String} {x : ℚ}
    (hid : f.clientOrderId = some orderId) (hcum : f.cumulativeExecutedQty = some x) :
    x ≤ (j.apply (.fill f)).observedQty orderId := by
  rw [observedQty_fill, cumulativeOf, if_pos hid, hcum]; exact le_max_right _ _

theorem newSubmit_eq_ok {clientOrderId symbol side : String} {submitSeq attemptSeq legIndex : ℤ}
    {quantity : ℚ} {reduceOnly : Bool} {submit : ℚ → JournalSubmit}
    (h : j.newSubmit clientOrderId symbol submitSeq attemptSeq side quantity reduceOnly legIndex =
      .ok submit) :
    0 < quantity ∧ ∀ recordedAt, submit recordedAt =
      { clientOrderId := clientOrderId, symbol := symbol, submitSeq := j.nextSubmitSeq,
        attemptSeq := some attemptSeq, side := some side, quantity := some quantity,
        reduceOnly := some reduceOnly, legIndex := some legIndex,
        recordedAt := some recordedAt } := by
  unfold newSubmit at h
  split_ifs at h with hseq hside hqty hleg
  injection h with h
  have hseq : submitSeq = j.nextSubmitSeq := not_not.mp hseq
  refine ⟨not_le.mp hqty, fun recordedAt => ?_⟩
  rw [← h, hseq]

theorem newFill_eq_ok {d : FillDraft} {f : JournalFill} (h : j.newFill d = .ok f) :
    f = { toFillDraft := d, fillSeq := j.nextFillSeq } ∧ 0 < d.quantity ∧
      ∀ cumulative orderId, d.cumulativeExecutedQty = some cumulative →
        d.clientOrderId = some orderId → j.observedQty orderId < cumulative := by
  unfold newFill at h
  split_ifs at h with hside hliq hqty hprice hfee
  have hqty : 0 < d.quantity := not_le.mp hqty
  split at h
  · next cumulative orderId hc ho =>
    split_ifs at h with hobs
    injection h with h
    refine ⟨h.symm, hqty, fun c i hc' ho' => ?_⟩
    rw [hc] at hc'
    rw [ho] at ho'; cases hc'; cases ho'; exact not_le.mp hobs
  · next hnone =>
    injection h with h
    exact ⟨h.symm, hqty, fun c i hc' ho' => absurd ho' (hnone c i hc')⟩

end Journal

def SameJournal (j j' : Journal) : Prop := j' = j ∨ j' = j.apply .schema

variable {j j' : Journal}

theorem SameJournal.nextSubmitSeq_eq (h : SameJournal j j') : j'.nextSubmitSeq = j.nextSubmitSeq := by
  rcases h with rfl | rfl <;> rfl

theorem SameJournal.nextFillSeq_eq (h : SameJournal j j') : j'.nextFillSeq = j.nextFillSeq := by
  rcases h with rfl | rfl <;> rfl

theorem SameJournal.observedQty_eq (h : SameJournal j j') (orderId : String) :
    j'.observedQty orderId = j.observedQty orderId := by
  rcases h with rfl | rfl <;> rfl

end CryptoPilot.Live
