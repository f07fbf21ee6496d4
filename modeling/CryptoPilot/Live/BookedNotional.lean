/- # BookedNotional — what the fills of an order add up to.

The executor, the orphan sweep and recovery all book an order's progress the same way: the executed
quantity over the one observed so far, at the average price of the poll.  That average is the
venue's over the whole order, so a second increment is booked at a price that the first one has
already pulled. -/
import Mathlib
import CryptoPilot.Live.JournalMachine
import CryptoPilot.Live.ExecutorRefines

namespace CryptoPilot.Live

open CryptoPilot.Lib
open CryptoPilot.Lib.Proc

def orderFills (j : Journal) (orderId : String) : List JournalFill :=
  j.fills.filter fun f => decide (f.clientOrderId = some orderId)

def bookedNotional (j : Journal) (orderId : String) : ℚ :=
  ((orderFills j orderId).map fun f => f.quantity * f.price).sum

/-- What the venue reports of an order: executed quantity and the average price of it. -/
structure VenuePoll where
  executed : ℚ
  average : ℚ
  executed_nonneg : 0 ≤ executed
  average_pos : 0 < executed → 0 < average

structure OrderPayload.Reports (payload : OrderPayload) (p : VenuePoll) : Prop where
  executed : payload.executedQty = .value p.executed
  average : payload.avgPrice = .value p.average

def lastNotional (polls : List VenuePoll) : ℚ :=
  match polls.getLast? with
  | some p => p.executed * p.average
  | none => 0

def lastExecuted (polls : List VenuePoll) : ℚ :=
  match polls.getLast? with
  | some p => p.executed
  | none => 0

/-- The changes of the average from poll to poll, each weighted by what was executed before it. -/
def averageDrift : List VenuePoll → ℚ
  | p :: q :: rest => p.executed * (q.average - p.average) + averageDrift (q :: rest)
  | _ => 0

/-- What a poll does to the books of an order: nothing, or the increment at the reported average. -/
inductive OrderStep (orderId : String) (p : VenuePoll) (j j' : Journal) : Prop
  | same : bookedNotional j' orderId = bookedNotional j orderId → j'.observedQty orderId = j.observedQty orderId →
      OrderStep orderId p j j'
  | booked : j.observedQty orderId < p.executed →
      bookedNotional j' orderId = bookedNotional j orderId + (p.executed - j.observedQty orderId) * p.average →
      j'.observedQty orderId = p.executed → OrderStep orderId p j j'

section Orders

variable {α : Type} {orderId : String} {j j' : Journal} {w : World} {p : VenuePoll}

theorem bookedNotional_fill {f : JournalFill} (hid : f.clientOrderId = some orderId) :
    bookedNotional (j.apply (.fill f)) orderId = bookedNotional j orderId + f.quantity * f.price := by
  simp [bookedNotional, orderFills, hid]

theorem bookedNotional_same (h : SameJournal j j') : bookedNotional j' orderId = bookedNotional j orderId := by
  rcases h with rfl | rfl <;> rfl

structure BooksKept (orderId : String) (w w' : World) : Prop where
  notional : bookedNotional w'.journal orderId = bookedNotional w.journal orderId
  observed : w'.journal.observedQty orderId = w.journal.observedQty orderId

instance : IsPreorder World (BooksKept orderId) where
  refl _ := ⟨rfl, rfl⟩
  trans _ _ _ h h' := ⟨h'.notional.trans h.notional, h'.observed.trans h.observed⟩

theorem BooksKept.of_journal {w w' : World} (h : SameJournal w.journal w'.journal) : BooksKept orderId w w' :=
  ⟨bookedNotional_same h, h.observedQty_eq orderId⟩

theorem kept_auditRecord (kind : AuditKind) : Along (BooksKept orderId) (auditRecord kind) w fun _ _ => True :=
  wp_command (refl_of (BooksKept orderId) w) (fun _ _ hw _ => ⟨.of_journal (.inl hw.journal), trivial⟩)
    fun _ _ _ hw _ => .of_journal (.inl hw.journal)

theorem kept_ensureV2Schema :
    Along (BooksKept orderId) ensureV2Schema w fun _ w' => SameJournal w.journal w'.journal := by
  refine Along.readState (Along.branch (fun _ => Along.ret (.inl rfl)) fun _ => ?_)
  exact wp_appendRecord (refl_of (BooksKept orderId) w)
    (fun _ _ hw => ⟨.of_journal (.inr hw.journal), .inr hw.journal⟩) fun _ _ _ hw _ => .of_journal (.inl hw.journal)

theorem kept_recordTerminal (closed status : String) :
    Along (BooksKept orderId) (recordTerminal closed status) w fun _ _ => True := by
  refine Along.bind (Q := fun _ _ => True) (wp_utcNow (refl_of (BooksKept orderId) w)
    fun _ _ hw => ⟨.of_journal (.inl hw.journal), trivial⟩) fun _ w₁ _ _ => ?_
  refine Along.bind kept_ensureV2Schema fun _ w₂ _ _ => ?_
  refine wp_appendRecord (refl_of (BooksKept orderId) w₂) (fun _ w' hw => ⟨⟨?_, ?_⟩, trivial⟩)
    fun _ _ _ hw _ => .of_journal (.inl hw.journal)
  · rw [hw.journal]; rfl
  · rw [hw.journal]; rfl

/-- `record_fill` of an order's increment: it is booked, or nothing is. -/
theorem wp_recordFill_order {draft : FillDraft} {Q : JournalFill → World → Prop} {E : Exc → World → Prop}
    (hid : draft.clientOrderId = some orderId) (hcum : draft.cumulativeExecutedQty = some p.executed)
    (hquantity : draft.quantity = p.executed - w.journal.observedQty orderId) (hprice : draft.price = p.average)
    (ok : ∀ f w', OrderStep orderId p w.journal w'.journal → p.executed ≤ w'.journal.observedQty orderId → Q f w')
    (raised : ∀ exc w', BooksKept orderId w w' → E exc w') : wp (recordFill draft) Q E w := by
  rw [recordFill, wp_bind, wp_get, wp_bind, wp_ofExcept]
  refine ⟨fun f hf => ?_, fun _ _ => raised _ _ (refl_of (BooksKept orderId) w)⟩
  obtain ⟨rfl, _, hfresh⟩ := Journal.newFill_eq_ok hf
  rw [wp_bind]
  refine wp_mono kept_ensureV2Schema (fun _ w₁ h₁ => ?_) (fun _ _ h => raised _ _ h)
  obtain ⟨hkept, hsame⟩ := h₁
  rw [wp_bind]
  refine wp_appendRecord (raised _ _ hkept) (fun _ w' hw => ?_) fun _ _ _ hw _ =>
    raised _ _ (trans_of (BooksKept orderId) hkept (.of_journal (.inl hw.journal)))
  have hlt : w.journal.observedQty orderId < p.executed := hfresh p.executed orderId hcum hid
  have hobserved : w'.journal.observedQty orderId = p.executed := by
    rw [hw.journal, Journal.observedQty_fill, Journal.cumulativeOf, if_pos hid]
    simp only [hcum]
    rw [hkept.observed]; exact max_eq_right hlt.le
  refine ok _ _ (.booked hlt ?_ hobserved) hobserved.ge
  rw [hw.journal, bookedNotional_fill hid, hkept.notional, hquantity, hprice]

theorem OrderStep.kept {w₁ w₂ : World} (h : OrderStep orderId p j w₁.journal) (h' : BooksKept orderId w₁ w₂) :
    OrderStep orderId p j w₂.journal := by
  cases h with
  | same hn ho => exact .same (h'.notional.trans hn) (h'.observed.trans ho)
  | booked hlt hn ho => exact .booked hlt (h'.notional.trans hn) (h'.observed.trans ho)

theorem OrderStep.of_kept {w' : World} (h : BooksKept orderId w w') : OrderStep orderId p w.journal w'.journal :=
  .same h.notional h.observed

/-- What a booking call leaves, and what it guarantees when it returns. -/
abbrev BooksPoll (orderId : String) (p : VenuePoll) (w : World) (x : WorldM α) : Prop :=
  wp x (fun _ w' => OrderStep orderId p w.journal w'.journal ∧ p.executed ≤ w'.journal.observedQty orderId)
    (fun _ w' => OrderStep orderId p w.journal w'.journal) w

variable {payload : OrderPayload} {confirmation : CancelConfirmation}

theorem wp_bookRecoveredDelta {c : RecoverConfig} {order : UnresolvedOrder} {tolerance : ℤ}
    {submit : Option JournalSubmit} (hid : order.clientOrderId = orderId) (hp : payload.Reports p) :
    BooksPoll orderId p w (bookRecoveredDelta c order payload tolerance submit) := by
  have hsame : ∀ {w' : World}, BooksKept orderId w w' → OrderStep orderId p w.journal w'.journal := .of_kept
  have hstay : OrderStep orderId p w.journal w.journal := hsame (refl_of (BooksKept orderId) w)
  rw [bookRecoveredDelta]
  simp only [BooksPoll, wp_bind, wp_ofExcept, wp_get, wp_ite, wp_pure, hp.executed, hp.average, venueDecimal]
  refine ⟨fun _ _ => ⟨fun executed hx => ?_, fun _ _ => hstay⟩, fun _ _ => hstay⟩
  cases hx
  refine ⟨fun hle => ⟨hstay, by rw [hid] at hle; linarith⟩, fun _ => ?_⟩
  cases payload.side with
  | none => exact hstay
  | some side =>
    simp only [wp_bind, wp_ofExcept, wp_ite, wp_throw]
    refine ⟨fun _ => hstay, fun _ => ⟨fun price hprice => ?_, fun _ _ => hstay⟩⟩
    cases hprice
    refine ⟨fun _ => hstay, fun _ => ⟨fun filledAt _ => ?_, fun _ _ => hstay⟩⟩
    refine wp_recordFill_order (by rw [← hid]; rfl) rfl (by rw [← hid]; rfl) rfl (fun f w₁ hstep hreach => ?_)
      fun _ _ h => hsame h
    refine wp_mono (kept_auditRecord .orderRecovered) (fun _ w₂ h₂ => ?_) (fun _ _ h => hstep.kept h)
    exact ⟨hstep.kept h₂.1, by rw [h₂.1.observed]; exact hreach⟩

variable {sweep : OrphanSweep}

theorem kept_closeOrphan {closed symbol : String} :
    Along (BooksKept orderId) (closeOrphan sweep closed symbol confirmation) w fun _ _ => True := by
  refine Along.branch (fun _ => ?_) fun _ => Along.ret trivial
  exact Along.bind (kept_recordTerminal closed _) fun _ _ _ _ => Along.ret trivial

theorem wp_settleOrphan {c : SweepConfig} {entry : OpenOrder} {symbol : String}
    {queried : OrderPayload} (hid : entry.clientOrderId = orderId) (hp : queried.Reports p) :
    BooksPoll orderId p w (settleOrphan c sweep entry symbol confirmation queried) := by
  have hsame : ∀ {w' : World}, BooksKept orderId w w' → OrderStep orderId p w.journal w'.journal := .of_kept
  have hstay : OrderStep orderId p w.journal w.journal := hsame (refl_of (BooksKept orderId) w)
  have haverage : orAbsent queried.avgPrice entry.avgPrice = .value p.average := by rw [hp.average]; rfl
  rw [settleOrphan]
  simp only [BooksPoll, wp_bind, wp_get, hp.executed, wp_ite]
  refine ⟨fun hle => ?_, fun _ => ?_⟩
  · refine wp_mono kept_closeOrphan (fun _ w' h => ⟨hsame h.1, ?_⟩) (fun _ _ h => hsame h)
    rw [h.1.observed]
    rw [hid] at hle; linarith
  · rw [haverage]
    cases orText queried.side entry.side with
    | none => exact hstay
    | some side =>
      simp only [wp_bind, wp_ite, wp_throw]
      refine ⟨fun _ => hstay, fun _ => ⟨fun _ => hstay, fun _ => ?_⟩⟩
      refine wp_recordFill_order (by rw [← hid]; rfl) rfl (by rw [← hid]; rfl) rfl (fun f w₁ hstep hreach => ?_)
        fun _ _ h => hsame h
      refine wp_mono (kept_auditRecord .orphanSettled) (fun _ w₂ h₂ => ?_) (fun _ _ h => hstep.kept h)
      have hstep₂ := hstep.kept h₂.1
      refine wp_mono kept_closeOrphan (fun _ w₃ h₃ => ⟨hstep₂.kept h₃.1, ?_⟩) (fun _ _ h => hstep₂.kept h)
      rw [h₃.1.observed, h₂.1.observed]; exact hreach

theorem wp_syncVenueOrder {c : ExecConfig} {now : ℚ} {s : Local}
    (hactive : s.rt.activeId = some orderId) (hlive : s.rt.paperActive = false)
    (htracked : s.rt.reportedExecuted = s.w.journal.observedQty orderId)
    (hnonneg : 0 ≤ s.w.journal.observedQty orderId) (hp : payload.Reports p) :
    wp (syncVenueOrder c now payload)
      (fun _ s' => OrderStep orderId p s.w.journal s'.w.journal ∧ p.executed ≤ s'.w.journal.observedQty orderId)
      (fun _ s' => OrderStep orderId p s.w.journal s'.w.journal) s := by
  have hsame : ∀ {w' : World}, BooksKept orderId s.w w' → OrderStep orderId p s.w.journal w'.journal := .of_kept
  have hstay : OrderStep orderId p s.w.journal s.w.journal := hsame (refl_of (BooksKept orderId) s.w)
  rw [syncVenueOrder, wp_bind, wp_get]
  simp only [hactive, hlive]
  rw [wp_bind, liftWorld, wp_zoom]
  refine wp_readAttr hstay fun margin e w₁ hw => ?_
  have hjournal : w₁.journal = s.w.journal := hw.journal
  have hkept₁ : BooksKept orderId s.w w₁ := .of_journal (.inl hjournal)
  simp only [wp_bind, wp_ofExcept, wp_ite, wp_throw, wp_pure, hp.executed, readExecuted]
  refine ⟨fun _ _ => ⟨fun executed hx => ?_, fun _ _ => hsame hkept₁⟩, fun _ _ => hsame hkept₁⟩
  cases hx
  refine ⟨fun _ => hsame hkept₁, fun _ => ⟨fun hlt => ?_, fun hge => ⟨hsame hkept₁, ?_⟩⟩⟩
  · have hpositive : 0 < p.average := p.average_pos (lt_of_le_of_lt (by rw [htracked]; exact hnonneg) hlt)
    have hprice : (parseAvgPrice payload).getD s.rt.activePrice = p.average := by
      simp [parseAvgPrice, hp.average, hpositive]
    rw [hprice, applyFill]
    simp only [wp_ite, wp_throw, wp_bind, getRt, wp_get, wp_pure]
    refine ⟨fun _ => hsame hkept₁, fun _ => ?_⟩
    rw [liftWorld, wp_zoom]
    refine wp_recordFill_order rfl rfl ?_ rfl (fun f w₂ hstep hreach => ?_) fun _ w₂ h =>
      hsame (trans_of (BooksKept orderId) hkept₁ h)
    · show p.executed - s.rt.reportedExecuted = p.executed - w₁.journal.observedQty orderId
      rw [hjournal, htracked]
    · rw [hjournal] at hstep
      rw [modifyRt, wp_modify, auditIntent, liftWorld, wp_zoom]
      refine wp_mono (kept_auditRecord .fill) (fun _ w₃ h₃ => ?_) (fun _ _ h => hstep.kept h)
      exact ⟨hstep.kept h₃.1, by rw [h₃.1.observed]; exact hreach⟩
  · rw [hkept₁.observed, ← htracked]; exact not_lt.mp hge

end Orders

/-! ## The polls of an order -/

/-- One of the three booking calls hears the poll: whether it returned, and its journal. -/
inductive PollCall (orderId : String) (p : VenuePoll) : Journal → Bool → Journal → Prop
  | executor {c : ExecConfig} {now : ℚ} {payload : OrderPayload} {s : Local}
      (active : s.rt.activeId = some orderId) (live : s.rt.paperActive = false)
      (tracked : s.rt.reportedExecuted = s.w.journal.observedQty orderId) (reports : payload.Reports p) :
      PollCall orderId p s.w.journal (syncVenueOrder c now payload s).1.isOk
        (syncVenueOrder c now payload s).2.w.journal
  | sweep {c : SweepConfig} {sweep : OrphanSweep} {entry : OpenOrder} {symbol : String}
      {confirmation : CancelConfirmation} {queried : OrderPayload} {w : World}
      (entry_id : entry.clientOrderId = orderId) (reports : queried.Reports p) :
      PollCall orderId p w.journal (settleOrphan c sweep entry symbol confirmation queried w).1.isOk
        (settleOrphan c sweep entry symbol confirmation queried w).2.journal
  | recovery {c : RecoverConfig} {order : UnresolvedOrder} {payload : OrderPayload} {tolerance : ℤ}
      {submit : Option JournalSubmit} {w : World}
      (order_id : order.clientOrderId = orderId) (reports : payload.Reports p) :
      PollCall orderId p w.journal (bookRecoveredDelta c order payload tolerance submit w).1.isOk
        (bookRecoveredDelta c order payload tolerance submit w).2.journal

/-- The journals an order's polls lead to, with the polls whose increments were booked. -/
inductive PolledRun (orderId : String) : List VenuePoll → Journal → Prop
  | start {j : Journal} (fills : orderFills j orderId = []) (observed : j.observedQty orderId = 0) :
      PolledRun orderId [] j
  | other {polls : List VenuePoll} {j j' : Journal} (run : PolledRun orderId polls j)
      (fills : orderFills j' orderId = orderFills j orderId)
      (observed : j'.observedQty orderId = j.observedQty orderId) : PolledRun orderId polls j'
  | poll {polls : List VenuePoll} {p : VenuePoll} {j j' : Journal} {returned : Bool}
      (run : PolledRun orderId polls j) (growing : lastExecuted polls ≤ p.executed)
      (call : PollCall orderId p j returned j') (booked : returned = true ∨ p.executed ≤ j'.observedQty orderId) :
      PolledRun orderId (polls ++ [p]) j'
  | missed {polls : List VenuePoll} {p : VenuePoll} {j j' : Journal} (run : PolledRun orderId polls j)
      (call : PollCall orderId p j false j') (unbooked : j'.observedQty orderId < p.executed) :
      PolledRun orderId polls j'

section Runs

variable {orderId : String} {j j' : Journal} {p : VenuePoll} {polls : List VenuePoll} {returned : Bool}

theorem wp_ran {ε σ α : Type} {x : Proc ε σ α} {P R : σ → Prop} {s : σ}
    (h : wp x (fun _ t => P t ∧ R t) (fun _ t => P t) s) : P (x s).2 ∧ ((x s).1.isOk = true → R (x s).2) := by
  rw [wp] at h
  generalize x s = run at h ⊢
  obtain ⟨r, s'⟩ := run
  cases r with
  | ok a => exact ⟨h.1, fun _ => h.2⟩
  | error e => exact ⟨h, fun hok => by cases hok⟩

theorem PollCall.step (h : PollCall orderId p j returned j') (hnonneg : 0 ≤ j.observedQty orderId) :
    OrderStep orderId p j j' ∧ (returned = true → p.executed ≤ j'.observedQty orderId) := by
  cases h with
  | executor hactive hlive htracked hp => exact wp_ran (wp_syncVenueOrder hactive hlive htracked hnonneg hp)
  | sweep hid hp => exact wp_ran (wp_settleOrphan hid hp)
  | recovery hid hp => exact wp_ran (wp_bookRecoveredDelta hid hp)

@[simp] theorem lastExecuted_concat : lastExecuted (polls ++ [p]) = p.executed := by
  simp [lastExecuted]

@[simp] theorem lastNotional_concat : lastNotional (polls ++ [p]) = p.executed * p.average := by
  simp [lastNotional]

theorem lastExecuted_nonneg (polls : List VenuePoll) : 0 ≤ lastExecuted polls := by
  unfold lastExecuted
  split
  · exact VenuePoll.executed_nonneg _
  · exact le_rfl

theorem averageDrift_concat : ∀ polls : List VenuePoll,
    averageDrift (polls ++ [p]) = averageDrift polls + (lastExecuted polls * p.average - lastNotional polls)
  | [] => by simp [averageDrift, lastExecuted, lastNotional]
  | [q] => by simp [averageDrift, lastExecuted, lastNotional]; ring
  | q :: r :: rest => by
    have ih := averageDrift_concat (r :: rest)
    have hexecuted : lastExecuted (q :: r :: rest) = lastExecuted (r :: rest) := by rfl
    have hnotional : lastNotional (q :: r :: rest) = lastNotional (r :: rest) := by rfl
    calc averageDrift (q :: r :: rest ++ [p])
        = q.executed * (r.average - q.average) + averageDrift (r :: rest ++ [p]) := rfl
      _ = averageDrift (q :: r :: rest) + (lastExecuted (q :: r :: rest) * p.average
            - lastNotional (q :: r :: rest)) := by rw [ih, hexecuted, hnotional, averageDrift]; ring

theorem PolledRun.books (h : PolledRun orderId polls j) :
    j.observedQty orderId = lastExecuted polls ∧
    bookedNotional j orderId = lastNotional polls - averageDrift polls := by
  induction h with
  | start hfills hobserved => simp [bookedNotional, hfills, hobserved, lastExecuted, lastNotional, averageDrift]
  | other _ hfills hobserved ih => exact ⟨hobserved.trans ih.1, by rw [bookedNotional, hfills]; exact ih.2⟩
  | @poll polls p j j' returned _ hgrowing hcall hbooked ih =>
    obtain ⟨hobserved, hnotional⟩ := ih
    obtain ⟨hstep, hreturned⟩ := hcall.step (hobserved ▸ lastExecuted_nonneg polls)
    have hreached : p.executed ≤ j'.observedQty orderId := hbooked.elim hreturned id
    rw [lastExecuted_concat, lastNotional_concat, averageDrift_concat]
    cases hstep with
    | same hn ho =>
      have heq : p.executed = lastExecuted polls := le_antisymm (by rw [← hobserved, ← ho]; exact hreached) hgrowing
      refine ⟨by rw [ho, hobserved, heq], ?_⟩
      rw [hn, hnotional, heq]; ring
    | booked _ hn ho =>
      refine ⟨ho, ?_⟩
      rw [hn, hnotional, hobserved]; ring
  | @missed polls p j j' _ hcall hunbooked ih =>
    obtain ⟨hstep, -⟩ := hcall.step (ih.1 ▸ lastExecuted_nonneg polls)
    cases hstep with
    | same hn ho => exact ⟨ho.trans ih.1, hn.trans ih.2⟩
    | booked _ _ ho => exact absurd ho hunbooked.ne

/-- The fills of an order add up to the venue's notional exactly when the averages it reported do
not drift. -/
theorem booked_notional_iff (h : PolledRun orderId polls j) :
    bookedNotional j orderId = lastNotional polls ↔ averageDrift polls = 0 := by
  rw [h.books.2]; exact sub_eq_self

theorem averageDrift_const (average : ℚ) : ∀ (polls : List VenuePoll), (∀ q ∈ polls, q.average = average) →
    averageDrift polls = 0
  | [], _ | [_], _ => rfl
  | q :: r :: rest, h => by
    have ih := averageDrift_const average (r :: rest) fun x hx => h x (List.mem_cons_of_mem q hx)
    rw [averageDrift, ih, h q (by simp), h r (by simp)]; ring

/-! ## An order filled in two -/

def splitId : String := "mh20260101-AAAAAAAAAA-0-0-0"

def splitPayload (executed average : ℚ) : OrderPayload where
  status := "PARTIALLY_FILLED"
  executedQty := .value executed
  avgPrice := .value average
  side := some "BUY"
  updateTime := some 1

def splitSweep : Except Exc OrphanSweep × World :=
  settleOrphan { now := 1, takerFeeBps := 5 } { fills := [], foreignSymbols := [], unconfirmed := [] }
    { clientOrderId := splitId, symbol := some "BTCUSDT" } "BTCUSDT"
    { closed := false, status := "PARTIALLY_FILLED", payload := some (splitPayload 1 100) } (splitPayload 1 100)
    (World.fresh Journal.empty (List.replicate 3 {}))

/-- Recovery is told that 2 executed at an average of `average`. -/
def splitRecovery (average : ℚ) : Except Exc (Option JournalFill) × World :=
  bookRecoveredDelta { now := 2, lookback := 1, takerFeeBps := 5 } { clientOrderId := splitId, symbol := "BTCUSDT" }
    (splitPayload 2 average) 0 none (World.fresh splitSweep.2.journal (List.replicate 2 {}))

def firstPoll : VenuePoll := ⟨1, 100, by norm_num, fun _ => by norm_num⟩

def secondPoll (average : ℚ) (h : 0 < average) : VenuePoll := ⟨2, average, by decide, fun _ => h⟩

theorem split_run (average : ℚ) (h : 0 < average) (hreturned : (splitRecovery average).1.isOk = true) :
    PolledRun splitId [firstPoll, secondPoll average h] (splitRecovery average).2.journal := by
  have hstart : PolledRun splitId [] Journal.empty := .start rfl rfl
  have hsweep : PollCall splitId firstPoll (World.fresh Journal.empty (List.replicate 3 {})).journal
      splitSweep.1.isOk splitSweep.2.journal := .sweep rfl ⟨rfl, rfl⟩
  have hrecovery : PollCall splitId (secondPoll average h)
      (World.fresh splitSweep.2.journal (List.replicate 2 {})).journal (splitRecovery average).1.isOk
      (splitRecovery average).2.journal := .recovery rfl ⟨rfl, rfl⟩
  have hgrowing : lastExecuted [firstPoll] ≤ 2 := by norm_num [lastExecuted, firstPoll]
  exact (hstart.poll firstPoll.executed_nonneg hsweep (.inl (by decide +kernel))).poll hgrowing
    hrecovery (.inl hreturned)

theorem booked_notional_steady :
    bookedNotional (splitRecovery 100).2.journal splitId =
      lastNotional [firstPoll, secondPoll 100 (by norm_num)] := by
  have hrun := split_run 100 (by norm_num) (by decide +kernel)
  exact (booked_notional_iff hrun).mpr (averageDrift_const 100 _ (by simp [firstPoll, secondPoll]))

/-- 1 at 100 and then 1 at 110 make an average of 105. -/
theorem booked_notional_lost : ∃ polls j, PolledRun splitId polls j ∧ bookedNotional j splitId = 205 ∧
    lastNotional polls = 210 :=
  ⟨[firstPoll, secondPoll 105 (by norm_num)], (splitRecovery 105).2.journal,
    split_run 105 (by norm_num) (by decide +kernel), by decide +kernel, by decide +kernel⟩

end Runs

end CryptoPilot.Live
