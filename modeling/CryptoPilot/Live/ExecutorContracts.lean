/- # ExecutorContracts — what every order an executor run posts satisfies.

Two contracts of the posted orders, both read off `SendReady` and carried along whole runs.  The
PRICE contract: every order is a LIMIT order inside the band, the touch and the rail of the book it
was priced on.  The FLIP GATE: an open leg posts only after its close leg ended other than RESIDUAL
or REJECTED, the close leg's status is then final, and in a run that returns a blocked leg says so.
-/
import CryptoPilot.Live.ExecutorRuns

namespace CryptoPilot.Live

open CryptoPilot.Lib Proc

/-! ## Orders along a trace -/

/-- `P` holds of every order posted since `base`, with the trace it was posted on. -/
def EverySend (base : List Event) (P : List Event → OrderTag → OrderParams → Prop) (trace : List Event) : Prop :=
  ∀ e pre tag params, e :: pre <:+ trace → base <:+ pre → e.call = .newOrder tag params →
    P pre tag params

section Trace

variable {base trace : List Event} {P P' : List Event → OrderTag → OrderParams → Prop} {e : Event}
  {c : ExecConfig} {timed : Bool} {a a' : Abs} {n : ℕ} {r r' : AbsRun n}

theorem EverySend.start : EverySend base P base := by
  intro e pre tag params hsuffix hbase _
  have hlen := (hsuffix.trans hbase).length_le; simp at hlen

theorem EverySend.mono (h : EverySend base P trace)
    (hP : ∀ pre tag params, P pre tag params → P' pre tag params) : EverySend base P' trace :=
  fun e pre tag params hsuffix hbase hcall => hP _ _ _ (h e pre tag params hsuffix hbase hcall)

theorem EverySend.cons (h : EverySend base P trace)
    (he : ∀ tag params, e.call = .newOrder tag params → P trace tag params) : EverySend base P (e :: trace) := by
  intro e' pre tag params hsuffix hbase hcall
  rcases List.suffix_cons_iff.mp hsuffix with heq | hsuffix
  · obtain ⟨rfl, rfl⟩ := List.cons.inj heq; exact he tag params hcall
  · exact h e' pre tag params hsuffix hbase hcall

theorem EverySend.quiet (h : EverySend base P trace) (he : e.PostsNothing) : EverySend base P (e :: trace) :=
  h.cons fun tag params hcall => by
    rw [Event.PostsNothing, hcall] at he; cases he

theorem Step.trace_cases (h : Step c timed a a') :
    a'.trace = a.trace ∨ ∃ e : Event, e.PostsNothing ∧ a'.trace = e :: a.trace := by
  cases h with
  | heard quiet dated => exact .inr ⟨_, Event.postsNothing_of_quiet quiet, rfl⟩
  | failedAppend call failed | tick call allowed =>
    exact .inr ⟨_, Event.postsNothing_of_call call rfl, rfl⟩
  | schema logs | submit logs | bookFill _ _ _ _ _ _ logs | paperFill _ _ _ _ logs
  | terminal cause logs => exact .inr ⟨_, logs.postsNothing, rfl⟩
  | _ => exact .inl rfl

theorem Ambient.trace_cons (h : Ambient r r') : ∃ e : Event, e.PostsNothing ∧ r'.trace = e :: r.trace := by
  cases h with
  | heard quiet dated =>
    rcases quiet with quiet | call
    · exact ⟨_, Event.postsNothing_of_quiet quiet, rfl⟩
    · exact ⟨_, Event.postsNothing_of_call call rfl, rfl⟩
  | failedAppend call failed | tick call => exact ⟨_, Event.postsNothing_of_call call rfl, rfl⟩
  | schema logs | simulatedFill logs => exact ⟨_, logs.postsNothing, rfl⟩

theorem EverySend.step (h : EverySend base P a.trace) (hs : Step c timed a a') : EverySend base P a'.trace := by
  rcases hs.trace_cases with heq | ⟨e, he, heq⟩ <;> rw [heq]
  · exact h
  · exact h.quiet he

theorem EverySend.ambient (h : EverySend base P r.trace) (hs : Ambient r r') : EverySend base P r'.trace := by
  obtain ⟨e, he, heq⟩ := hs.trace_cons
  rw [heq]; exact h.quiet he

end Trace

/-! ## The price contract -/

def TouchInsideRail (policy : PassiveExecutionPolicy) (intent : OrderIntent) (bid ask : ℚ) : Prop :=
  (intent.side = .buy → ask ≤ (bid + ask) / 2 * (1 + policy.maxCrossBps / bpsDenominator)) ∧
  (intent.side = .sell → (bid + ask) / 2 * (1 - policy.maxCrossBps / bpsDenominator) ≤ bid)

def PricedOrder {n : ℕ} (c : ExecConfig) (intents : Fin n → OrderIntent) (pre : List Event)
    (tag : OrderTag) (params : OrderParams) : Prop :=
  ∃ (i : Fin n) (filters : SymbolFilters) (bid ask : ℚ), tag.owner = i ∧
    params.symbol = (intents i).symbol ∧ params.side = (intents i).side ∧
    params.type = "LIMIT" ∧ c.filters.lookup (intents i).symbol = some filters ∧
    latestQuote pre (intents i).symbol = some (bid, ask) ∧ 0 < bid ∧ bid < ask ∧
    (OnGrid filters.tickSize bid → OnGrid filters.tickSize ask →
      PriceContract c.policy (intents i) filters.tickSize bid ask params.timeInForce params.price ∧
      (params.timeInForce = .ioc → TouchInsideRail c.policy (intents i) bid ask))

section Prices

variable {n : ℕ} {c : ExecConfig} {intents : Fin n → OrderIntent} {base : List Event}
  {r r' : AbsRun n} {i : Fin n} {e : Event}

theorem latestQuote_sound {trace : List Event} {symbol : String} {bid ask : ℚ}
    (h : latestQuote trace symbol = some (bid, ask)) : 0 < bid ∧ bid < ask := by
  induction trace with
  | nil => cases h
  | cons e trace ih =>
    rw [latestQuote] at h
    split at h
    · next entries _ _ =>
      rw [quoteOf, Option.bind_eq_some_iff] at h
      obtain ⟨entry, -, hquote⟩ := h
      exact ⟨(parseBookQuote_eq_some hquote).1, (parseBookQuote_eq_some hquote).2.2⟩
    · exact ih h

theorem PriceContract.touchInsideRail {policy : PassiveExecutionPolicy} {intent : OrderIntent}
    {tick bid ask price : ℚ} (h : PriceContract policy intent tick bid ask .ioc price) :
    TouchInsideRail policy intent bid ask := by
  obtain ⟨hbuy, hsell⟩ := h.iocRail rfl
  refine ⟨fun hside => ?_, fun hside => ?_⟩
  · exact (hbuy hside).1.trans ((hbuy hside).2.trans (min_le_right _ _))
  · exact ((le_max_right _ _).trans (hsell hside).2).trans (hsell hside).1

def QuotesInBand (c : ExecConfig) (intents : Fin n → OrderIntent) (r : AbsRun n) : Prop :=
  ∀ i, QuoteInBand c.policy (intents i) (r.cores i).passiveQuote

theorem Step.passiveQuote_inBand {timed : Bool} {a a' : Abs} (h : Step c timed a a')
    (ha : QuoteInBand c.policy a.core.intent a.core.passiveQuote) :
    QuoteInBand c.policy a.core.intent a'.core.passiveQuote := by
  cases h with
  | repeg inBand => exact inBand
  | _ => exact ha

theorem Core.afterReply_passiveQuote (k : Core) (orderId : String) (q now : ℚ) (reply : Reply) :
    (k.afterReply orderId q now reply).passiveQuote = k.passiveQuote := by
  unfold Core.afterReply
  split <;> rfl

theorem QuotesInBand.moves {R : Abs → Abs → Prop} (h : QuotesInBand c intents r) (hmoves : r.Moves R i r')
    (hown : QuoteInBand c.policy (intents i) (r'.cores i).passiveQuote) : QuotesInBand c intents r' := by
  intro j
  by_cases hj : j = i
  · rw [hj]; exact hown
  · rw [hmoves.others j hj]; exact h j

theorem SendReady.pricedOrder {a : Abs} {tag : OrderTag} {params : OrderParams}
    (h : SendReady c a e tag params) (hindex : a.core.index = i) (hintent : a.core.intent = intents i)
    (hfilters : a.core.filters = c.filters.lookup (intents i).symbol)
    (hquote : QuoteInBand c.policy (intents i) a.core.passiveQuote) : PricedOrder c intents a.trace tag params := by
  obtain ⟨filters, ⟨bid, ask⟩, hlookup, htouch, hprice⟩ := h.priced
  rw [Core.Prices, hintent] at hprice
  rw [hintent] at htouch
  obtain ⟨hbid, hask⟩ := latestQuote_sound htouch
  refine ⟨i, filters, bid, ask, h.owner.trans hindex, by rw [h.symbol, hintent],
    by rw [h.side, hintent], h.type, hfilters.symm.trans hlookup, htouch, hbid, hask,
    fun hbidGrid haskGrid => ?_⟩
  rcases hprice with ⟨htif, hprice⟩ | ⟨htif, hprice⟩ <;> rw [htif]
  · exact ⟨passivePrice_contract hquote hprice, nofun⟩
  · have hcontract := backstopPrice_contract hbid (hbid.trans hask) hbidGrid haskGrid hprice
    exact ⟨hcontract, fun _ => hcontract.touchInsideRail⟩

theorem price_rule (c : ExecConfig) (intents : Fin n → OrderIntent) (base : List Event) :
    RunRule c intents
      (fun r => QuotesInBand c intents r ∧ EverySend base (PricedOrder c intents) r.trace)
      (fun r => QuotesInBand c intents r ∧ EverySend base (PricedOrder c intents) r.trace) := by
  refine RunRule.of_steps ?ambient ?step ?send
  case ambient =>
    intro r r' hmove _ hr
    refine ⟨fun i => ?_, hr.2.ambient hmove⟩
    cases hmove <;> exact hr.1 i
  case step =>
    intro r r' i hmoves hwired hr
    have hown := hmoves.own.passiveQuote_inBand (by
      show QuoteInBand c.policy (r.cores i).intent (r.cores i).passiveQuote
      rw [hwired.intent i]
      exact hr.1 i)
    rw [show (r.view i).core.intent = intents i from hwired.intent i] at hown
    have hsends : EverySend base (PricedOrder c intents) (r'.view i).trace := EverySend.step hr.2 hmoves.own
    exact ⟨hr.1.moves hmoves hown, hsends⟩
  case send =>
    intro r r' i e hmoves hwired hr
    obtain ⟨tag, params, hready, hafter⟩ := hmoves.own
    have hcore : r'.cores i = (r.cores i).afterReply params.newClientOrderId params.quantity r.reading
        e.reply := congrArg Abs.core hafter
    have htrace : r'.trace = e :: r.trace := congrArg Abs.trace hafter
    refine ⟨hr.1.moves hmoves ?_, ?_⟩
    · rw [hcore, Core.afterReply_passiveQuote]; exact hr.1 i
    · rw [htrace]
      refine hr.2.cons fun tag' params' hcall => ?_
      rw [hready.call] at hcall
      obtain ⟨rfl, rfl⟩ := Call.newOrder.inj hcall
      exact hready.pricedOrder (hwired.index i) (hwired.intent i) (hwired.filters i) (hr.1 i)

end Prices

/-- **The price contract of every posted order**, in every state that `execute_intents` reaches. -/
theorem executeIntents_price_contract (c : ExecConfig) (intents : List OrderIntent) (w : World) :
    EverySend w.trace (PricedOrder c intents.get)
      (executeRun c intents w).2.w.trace := by
  have hstart : QuotesInBand c intents.get (initRun c intents w).abs :=
    fun i hpos => absurd hpos (lt_irrefl _)
  exact ((price_rule c _ w.trace).executeRun_keeps ⟨hstart, EverySend.start⟩).2.2

/-! ## The flip gate -/

/-- An order of an open leg was posted with its close leg ended other than RESIDUAL or REJECTED, and
the close leg still stands where it stood then. -/
def GatedOrder {n : ℕ} (intents : Fin n → OrderIntent) (status : Fin n → Option OutcomeStatus)
    (tag : OrderTag) : Prop :=
  ∀ i j : Fin n, tag.owner = i → closeDependency intents i = some j →
    ∃ st, tag.closeLeg = some (some st) ∧ st ≠ .residual ∧ st ≠ .rejected ∧ status j = some st

section Gate

variable {n : ℕ} {c : ExecConfig} {intents : Fin n → OrderIntent} {base : List Event}
  {r r' : AbsRun n} {i : Fin n} {e : Event}

theorem gateState_opened {closeLeg : Option OutcomeStatus} (h : gateState (some closeLeg) = .opened) :
    ∃ st, closeLeg = some st ∧ st ≠ .residual ∧ st ≠ .rejected := by
  cases closeLeg with
  | none => cases h
  | some st =>
    refine ⟨st, rfl, ?_, ?_⟩
    · rintro rfl; cases h
    · rintro rfl; cases h

variable {st : OutcomeStatus} {R : Abs → Abs → Prop} {s : Run n}

theorem gateState_blocked (h : st = .residual ∨ st = .rejected) : gateState (some (some st)) = .blocked := by
  rcases h with rfl | rfl <;> rfl

theorem Step.terminalStatus_final {timed : Bool} {a a' : Abs}
    (h : Step c timed a a') (hfree : a.closeLeg = none) (ha : a.core.terminalStatus = some st) :
    a'.core.terminalStatus = some st := by
  cases h with
  | finish running => rw [running] at ha; cases ha
  | block blocked => rw [hfree] at blocked; cases blocked
  | _ => exact ha

theorem terminalStatus_final_of_moves {j : Fin n} (hmoves : r.Moves R i r')
    (hown : ∀ {a a' : Abs}, R a a' → a.closeLeg = none → a.core.terminalStatus = some st →
      a'.core.terminalStatus = some st)
    (hwired : Wired c intents r) (hclose : (intents j).reduceOnly = true)
    (hj : (r.cores j).terminalStatus = some st) : (r'.cores j).terminalStatus = some st := by
  by_cases hij : j = i
  · subst hij
    refine hown hmoves.own ?_ hj
    show (r.deps j).map _ = none
    rw [hwired.deps, closeDependency_eq_none hclose]; rfl
  · rw [hmoves.others j hij]; exact hj

theorem EverySend.gated_of_final {trace : List Event} {status status' : Fin n → Option OutcomeStatus}
    (h : EverySend base (fun _ tag _ => GatedOrder intents status tag) trace)
    (hfinal : ∀ j st, (intents j).reduceOnly = true → status j = some st → status' j = some st) :
    EverySend base (fun _ tag _ => GatedOrder intents status' tag) trace := by
  refine h.mono fun _ tag _ hgated i j howner hdep => ?_
  obtain ⟨st, hleg, hres, hrej, hstatus⟩ := hgated i j howner hdep
  exact ⟨st, hleg, hres, hrej, hfinal j st (closeDependency_eq_some hdep).2.2.2.1 hstatus⟩

/-- Every order posted since `base` passed the gate. -/
def GateHeld (intents : Fin n → OrderIntent) (base : List Event) (r : AbsRun n) : Prop :=
  EverySend base (fun _ tag _ => GatedOrder intents (fun j => (r.cores j).terminalStatus) tag) r.trace

theorem gate_rule (c : ExecConfig) (intents : Fin n → OrderIntent) (base : List Event) :
    RunRule c intents (GateHeld intents base) (GateHeld intents base) := by
  refine RunRule.of_steps ?ambient ?step ?send
  case ambient =>
    intro r r' hmove _ hr
    have hcores : r'.cores = r.cores := by cases hmove <;> rfl
    unfold GateHeld
    rw [hcores]; exact EverySend.ambient hr hmove
  case step =>
    intro r r' i hmoves hwired hr
    have hfinal : ∀ j st, (intents j).reduceOnly = true → (r.cores j).terminalStatus = some st →
        (r'.cores j).terminalStatus = some st := fun j st hclose hj =>
      terminalStatus_final_of_moves hmoves (fun hs => hs.terminalStatus_final) hwired hclose hj
    have hsends := EverySend.gated_of_final hr hfinal
    exact EverySend.step (a := r.view i) hsends hmoves.own
  case send =>
    intro r r' i e hmoves hwired hr
    have hfinal : ∀ j st, (intents j).reduceOnly = true → (r.cores j).terminalStatus = some st →
        (r'.cores j).terminalStatus = some st := by
      intro j st hclose hj
      refine terminalStatus_final_of_moves hmoves ?_ hwired hclose hj
      rintro a a' ⟨tag, params, hready, -⟩ - hended
      rw [hready.running] at hended; cases hended
    have hsends := EverySend.gated_of_final hr hfinal
    obtain ⟨tag, params, hready, hafter⟩ := hmoves.own
    have htrace : r'.trace = e :: r.trace := congrArg Abs.trace hafter
    unfold GateHeld
    rw [htrace]
    refine hsends.cons fun tag' params' hcall => ?_
    rw [hready.call] at hcall
    obtain ⟨rfl, rfl⟩ := Call.newOrder.inj hcall
    intro i' j howner hdep
    obtain rfl : i' = i := by
      refine Fin.ext ?_
      rw [← howner, hready.owner]; exact hwired.index i
    -- the gate was open on what the close leg stood at, and that is final
    have hleg : (r.view i').closeLeg = some (r.cores j).terminalStatus := by
      show (r.deps i').map _ = _
      rw [hwired.deps, hdep]; rfl
    have hgate := hready.gate
    rw [hleg] at hgate
    obtain ⟨st, hst, hres, hrej⟩ := gateState_opened hgate
    refine ⟨st, by rw [hready.closeLeg, hleg, hst], hres, hrej, ?_⟩
    exact hfinal j st (closeDependency_eq_some hdep).2.2.2.1 hst

def BlockedEnds (r : AbsRun n) : Prop :=
  ∀ i, (r.cores i).blockReason ≠ none → (r.cores i).terminalStatus = some .residual

theorem Step.blockedEnds {timed : Bool} {a a' : Abs} (h : Step c timed a a')
    (ha : a.core.blockReason ≠ none → a.core.terminalStatus = some .residual) :
    a'.core.blockReason ≠ none → a'.core.terminalStatus = some .residual := by
  cases h with
  | finish running =>
    intro hreason
    have hended := ha hreason
    rw [running] at hended; cases hended
  | block blocked => exact fun _ => rfl
  | _ => exact ha

theorem Core.afterReply_blockReason (k : Core) (orderId : String) (q now : ℚ) (reply : Reply) :
    (k.afterReply orderId q now reply).blockReason = k.blockReason := by
  unfold Core.afterReply
  split <;> rfl

theorem BlockedEnds.moves (h : BlockedEnds r) (hmoves : r.Moves R i r')
    (hown : (r'.cores i).blockReason ≠ none → (r'.cores i).terminalStatus = some .residual) : BlockedEnds r' := by
  intro j
  by_cases hj : j = i
  · rw [hj]; exact hown
  · rw [hmoves.others j hj]; exact h j

theorem blockedEnds_rule (c : ExecConfig) (intents : Fin n → OrderIntent) :
    RunRule c intents BlockedEnds BlockedEnds := by
  refine RunRule.of_steps ?ambient ?step ?send
  case ambient =>
    intro r r' hmove _ hr
    cases hmove <;> exact hr
  case step =>
    intro r r' i hmoves _ hr; exact hr.moves hmoves (hmoves.own.blockedEnds (hr i))
  case send =>
    intro r r' i e hmoves _ hr
    refine hr.moves hmoves fun hreason => ?_
    obtain ⟨tag, params, hready, hafter⟩ := hmoves.own
    have hcore : r'.cores i = (r.cores i).afterReply params.newClientOrderId params.quantity r.reading
        e.reply := congrArg Abs.core hafter
    rw [hcore, Core.afterReply_blockReason] at hreason
    have hended := hr i hreason
    have hrunning : (r.cores i).terminalStatus = none := hready.running
    rw [hrunning] at hended; cases hended

def SaysBlocked (i : Fin n) (r : AbsRun n) : Prop :=
  gateState (r.view i).closeLeg = .blocked →
    (r.cores i).terminalStatus = some .residual ∧
    (r.cores i).blockReason = some .blockedByCloseLeg

theorem SaysBlocked.of_other {j : Fin n} (h : SaysBlocked j r)
    (hwired : Wired c intents r) (hmoves : r.Moves R i r') (hne : j ≠ i)
    (hopen : (intents i).reduceOnly = false) : SaysBlocked j r' := by
  have hleg : (r'.view j).closeLeg = (r.view j).closeLeg := by
    show (r'.deps j).map _ = (r.deps j).map _
    rw [hmoves.deps]
    cases hdep : r.deps j with
    | none => rfl
    | some k =>
      have hk : k ≠ i := by
        rintro rfl
        rw [hwired.deps] at hdep
        rw [(closeDependency_eq_some hdep).2.2.2.1] at hopen; cases hopen
      simp only [Option.map_some, hmoves.others k hk]
  unfold SaysBlocked
  rw [hleg, hmoves.others j hne]; exact h

theorem wp_block_tells (i : Fin n) (hwired : Wired c intents s.abs)
    (hblocked : gateState (s.view i).closeLeg = .blocked) :
    wp (atIntent i (do
      let now ← liftWorld clock
      let _ ← applyCloseGate now
      pure ())) (fun _ s' => SaysBlocked i s'.abs ∧ ∀ j, SaysBlocked j s.abs → SaysBlocked j s'.abs)
      (fun _ _ => True) s := by
  rw [atIntent, wp_zoom]
  have hspec : Spec c true _ (s.view i) _ := spec_blockIntent hblocked
  refine wp_mono hspec (fun _ l hl => ?_) (fun _ _ _ => trivial)
  have hmoves : s.abs.Moves (Reach c true) i (s.put i l).abs := by
    rw [Run.put_abs]; exact AbsRun.put_moves hwired (Reach.closeLeg_eq hl.1) hl.1
  have hrt : (s.put i l).rts i = l.rt := Function.update_self ..
  have hopen : (intents i).reduceOnly = false := by
    cases hdep : closeDependency intents i with
    | some j => exact (closeDependency_eq_some hdep).2.1
    | none =>
      have hleg : (s.view i).closeLeg = none := by
        show (s.abs.deps i).map _ = none
        rw [hwired.deps, hdep]; rfl
      rw [hleg] at hblocked; cases hblocked
  have hreasons : SaysBlocked i (s.put i l).abs := by
    intro _
    show ((s.put i l).rts i).terminalStatus = _ ∧ ((s.put i l).rts i).blockReason = _
    rw [hrt]; exact hl.2
  refine ⟨hreasons, fun j hj => ?_⟩
  by_cases hij : j = i
  · rw [hij]; exact hreasons
  · exact hj.of_other hwired hmoves hij hopen

theorem wp_blockStep_tells (i : Fin n) (h : Holds c intents BlockedEnds s) :
    wp (blockStep i) (fun _ s' => Holds c intents BlockedEnds s' ∧ SaysBlocked i s'.abs ∧
      ∀ j, SaysBlocked j s.abs → SaysBlocked j s'.abs) (fun _ _ => True) s := by
  have hkeeps := (blockedEnds_rule c intents).wp_blockStep i h
  rw [blockStep, wp_bind, wp_get, wp_ite] at hkeeps ⊢
  refine ⟨fun hb => ?_, fun hb => ⟨h, fun hblocked => ?_, fun _ hj => hj⟩⟩
  · exact wp_mono (wp_and (hkeeps.1 hb) (wp_block_tells i h.1 hb.2)) (fun _ _ hs' => hs')
      (fun _ _ _ => trivial)
  · -- already marked: the reason stands with the status
    have hreason : (s.rts i).blockReason ≠ none := fun hnone => hb ⟨hnone, hblocked⟩
    refine ⟨h.2 i hreason, ?_⟩
    show (s.rts i).blockReason = some .blockedByCloseLeg
    cases hr : (s.rts i).blockReason with
    | none => exact absurd hr hreason
    | some reason => cases reason; rfl

/-- **After a loop that returns, every blocked leg says so.** -/
theorem wp_runLoop_tells (h : Holds c intents BlockedEnds s) :
    wp (runLoop c) (fun _ s' => Holds c intents BlockedEnds s' ∧
      ∀ i ∈ liveIntents s, SaysBlocked i s'.abs) (fun _ _ => True) s := by
  have rule := blockedEnds_rule c intents
  rw [runLoop, wp_bind, wp_get, wp_ite]
  refine ⟨fun hempty => ⟨h, fun i hi => ?_⟩, fun _ => ?_⟩
  · rw [List.isEmpty_iff.mp hempty] at hi; cases hi
  rw [wp_bind]
  refine wp_mono (wp_run_clock rule.ambient h) (fun start s₁ h₁ => ?_) (fun _ _ _ => trivial)
  rw [wp_bind, wp_modify, wp_bind]
  refine wp_mono (rule.wp_tickLoop _ (s := { s₁ with rts := _ }) h₁.1) (fun _ s₂ h₂ => ?_)
    (fun _ _ _ => trivial)
  rw [wp_bind]
  refine wp_mono (rule.wp_finalize h₂) (fun _ s₃ h₃ => ?_) (fun _ _ _ => trivial)
  refine wp_mono (wp_forEach_each (P := fun i (s' : Run n) => SaysBlocked i s'.abs)
    (fun i _ s' hs' => wp_blockStep_tells i hs') h₃) (fun _ s' hs' => ?_) (fun _ _ _ => trivial)
  exact ⟨hs'.1, hs'.2.1⟩

theorem wp_executeIntents_tells (h : Holds c intents BlockedEnds s)
    (hpassive : c.immediateTaker = false) (targets : List OrderIntent) :
    wp (executeIntents c targets) (fun outcomes s' =>
      outcomes = (List.finRange n).map (fun i => (s'.rts i).snapshot) ∧
      ∀ i ∈ liveIntents s, SaysBlocked i s'.abs) (fun _ _ => True) s := by
  rw [executeIntents, if_neg (by simp [hpassive]), wp_bind, wp_tryCatch]
  refine wp_mono (wp_runLoop_tells h) (fun _ s₁ h₁ => ?_) (fun exc s₁ _ => ?_)
  · have hkept : KeptAround c intents fun r => ∀ i ∈ liveIntents s, SaysBlocked i r := by
      intro r r' hmove _ hr
      cases hmove <;> exact hr
    rw [wp_bind]
    refine wp_mono (wp_forEach (I := Holds c intents fun r => ∀ i ∈ liveIntents s, SaysBlocked i r)
      (fun _ _ s' hs' => wp_quiet_command hkept hs' rfl) ⟨h₁.1.1, h₁.2⟩) (fun _ s₂ h₂ => ?_)
      (fun _ _ _ => trivial)
    exact ⟨rfl, h₂.2⟩
  · -- every handler raises again
    rw [wp_ite]
    refine ⟨fun _ => trivial, fun _ => ?_⟩
    rw [wp_bind]
    exact wp_mono (wp_forEach (I := fun _ => True) (E := fun _ _ => True)
      (fun _ _ _ _ => wp_true _ _) trivial) (fun _ _ _ => trivial) (fun _ _ _ => trivial)

end Gate

theorem executeImmediateTaker_cores {c : ExecConfig} (intents : List OrderIntent) (w : World)
    (h : c.immediateTaker = true) : (executeRun c intents w).2.abs.cores = (initRun c intents w).abs.cores := by
  have hkept : KeptAround c intents.get
      (fun r => r.cores = (initRun c intents w).abs.cores) := by
    intro r r' hmove _ hr
    cases hmove <;> exact hr
  have hrun : Holds c intents.get
      (fun r => r.cores = (initRun c intents w).abs.cores) (executeRun c intents w).2 := by
    rw [executeRun, executeIntents, if_pos h]
    exact wp_final (wp_executeImmediateTaker hkept ⟨initRun_wired c intents w, rfl⟩ intents)
  exact hrun.2

/-- **The flip gate holds in every run**: no order of an open leg is posted unless its close leg has
ended other than RESIDUAL or REJECTED. -/
theorem executeIntents_flip_gate (c : ExecConfig) (intents : List OrderIntent) (w : World) :
    EverySend w.trace (fun _ tag _ => GatedOrder intents.get
        (fun j => ((executeRun c intents w).2.rts j).terminalStatus) tag)
      (executeRun c intents w).2.w.trace ∧
    ∀ (i j : Fin intents.length) (st : OutcomeStatus),
      closeDependency intents.get i = some j →
      ((executeRun c intents w).2.rts j).terminalStatus = some st →
      st = .residual ∨ st = .rejected →
      EverySend w.trace (fun _ tag _ => tag.owner ≠ i) (executeRun c intents w).2.w.trace ∧
      ∀ outcomes, (executeRun c intents w).1 = .ok outcomes →
        (c.filters.lookup (intents.get i).symbol).isSome →
        ∃ outcome, outcomes[i]? = some outcome ∧ outcome.status = .residual ∧
          outcome.blockReason = some .blockedByCloseLeg := by
  have hstart : Holds c intents.get BlockedEnds
      (initRun c intents w) := ⟨initRun_wired c intents w, fun _ hreason => absurd rfl hreason⟩
  have hgate := (gate_rule c intents.get w.trace).executeRun_keeps
    (w := w) EverySend.start
  have hsends : EverySend w.trace (fun _ tag _ => GatedOrder intents.get
      (fun j => ((executeRun c intents w).2.rts j).terminalStatus) tag)
      (executeRun c intents w).2.w.trace := hgate.2
  refine ⟨hsends, fun i j st hdep hstatus hst => ⟨?_, fun outcomes hret hfilters => ?_⟩⟩
  · refine hsends.mono fun _ tag _ hgated howner => ?_
    obtain ⟨st', -, hres, hrej, hstatus'⟩ := hgated i j howner hdep
    obtain rfl : st = st' := Option.some.inj (hstatus.symm.trans hstatus'); exact hst.elim hres hrej
  · have hpassive : c.immediateTaker = false := by
      by_contra htaker
      -- the immediate-taker model leaves the runtimes as they were made
      have hcores := executeImmediateTaker_cores intents w (c := c) (by simpa using htaker)
      have hj := congrArg Core.terminalStatus (congrFun hcores j)
      rw [show ((executeRun c intents w).2.abs.cores j).terminalStatus = some st from hstatus] at hj
      rw [← (closeDependency_eq_some hdep).2.2.1] at hfilters
      simp [Run.abs, initRun, initRuntime, IntentRuntime.core, Option.isSome_iff_ne_none] at hj hfilters
      exact hfilters hj.1
    have hsaid := wp_executeIntents_tells hstart hpassive intents
    obtain ⟨houtcomes, hreasons⟩ := wp_returned hsaid hret
    rw [← executeRun] at houtcomes hreasons
    have hlive : i ∈ liveIntents (initRun c intents w) := by
      obtain ⟨filters, hlookup⟩ := Option.isSome_iff_exists.mp hfilters
      have hlookup' : c.filters.lookup (intents[i.val]).symbol = some filters := hlookup
      simp [liveIntents, initRun, initRuntime, IntentRuntime.done, hlookup']
    have hblocked : gateState ((executeRun c intents w).2.abs.view i).closeLeg = .blocked := by
      show gateState (((executeRun c intents w).2.abs.deps i).map _) = _
      rw [hgate.1.deps, hdep]
      show gateState (some ((executeRun c intents w).2.rts j).terminalStatus) = _
      rw [hstatus]; exact gateState_blocked hst
    obtain ⟨hended, hreason⟩ := hreasons i hlive hblocked
    refine ⟨((executeRun c intents w).2.rts i).snapshot, ?_, ?_, ?_⟩
    · rw [houtcomes]; simp
    · have hended : ((executeRun c intents w).2.rts i).terminalStatus = some .residual := hended
      simp [IntentRuntime.snapshot, hended]
    · exact hreason

def flipLegs : List OrderIntent := [sellTwo, flipLeg 1 1 zero_le_one]

def flipClose : Fin flipLegs.length := ⟨0, by decide⟩

def flipOpen : Fin flipLegs.length := ⟨1, by decide⟩

def parityPolicy : PassiveExecutionPolicy :=
  backtestParityExecutionPolicy
    { makerFeeBps := 2
      takerFeeBps := 5
      makerFeeBps_nonneg := by norm_num
      takerFeeBps_nonneg := by norm_num } 0 (by norm_num)

def flipConfig (filters : Dict SymbolFilters) (shutdown : Bool) : ExecConfig where
  policy := parityPolicy
  filters := filters
  attemptSeq := 1
  sha256 := fun _ _ => 0
  shutdown := shutdown

/-- A fresh world whose clock starts at 0 and then reads 1000; every other answer is `reply`. -/
def lateWorld (reply : Reply) : World where
  journal := Journal.empty
  trace := []
  reading := 0
  script := {} :: List.replicate 20 { reply := reply, time := 1000 }

/-- The window is over at once: both legs end RESIDUAL, and the open leg says that it was blocked.
-/
theorem executeIntents_flip_gate_timeout :
    ∃ outcomes, (executeRun (flipConfig (onBtc flipFilters) false) flipLegs (lateWorld .done)).1
        = .ok outcomes ∧
      ∃ outcome, outcomes[1]? = some outcome ∧ outcome.status = .residual ∧
        outcome.blockReason = some .blockedByCloseLeg := by
  have hret : ((executeRun (flipConfig (onBtc flipFilters) false) flipLegs
      (lateWorld .done)).1.toOption).isSome = true := by decide +kernel
  have hstatus : ((executeRun (flipConfig (onBtc flipFilters) false) flipLegs
      (lateWorld .done)).2.rts flipClose).terminalStatus = some .residual := by decide +kernel
  obtain ⟨outcomes, hout⟩ : ∃ outcomes, (executeRun (flipConfig (onBtc flipFilters) false) flipLegs
      (lateWorld .done)).1 = .ok outcomes := by
    cases h : (executeRun (flipConfig (onBtc flipFilters) false) flipLegs (lateWorld .done)).1 with
    | ok outcomes => exact ⟨outcomes, rfl⟩
    | error exc => rw [h] at hret; cases hret
  refine ⟨outcomes, hout, ?_⟩
  exact ((executeIntents_flip_gate (flipConfig (onBtc flipFilters) false) flipLegs
    (lateWorld .done)).2 flipOpen flipClose .residual (by decide +kernel) hstatus (.inl rfl)).2 outcomes hout
    (by decide +kernel)

def BlockedLegsSaySo (c : ExecConfig) (intents : List OrderIntent) (w : World) : Prop :=
  ∀ (i j : Fin intents.length) (st : OutcomeStatus),
    closeDependency intents.get i = some j →
    ((executeRun c intents w).2.rts j).terminalStatus = some st →
    st = .residual ∨ st = .rejected →
    ((executeRun c intents w).2.rts i).terminalStatus = some .residual ∧
    ((executeRun c intents w).2.rts i).blockReason = some .blockedByCloseLeg

/-- The reason is missing by design in two kinds of run: when the symbol has no filters, so that
both legs are RESIDUAL before the gate is ever applied, and when a shutdown settles the legs. -/
theorem blockedLegsSaySo_fails :
    ¬ BlockedLegsSaySo (flipConfig ∅ false) flipLegs (lateWorld .done) ∧
    ¬ BlockedLegsSaySo (flipConfig (onBtc flipFilters) true) flipLegs (lateWorld (.flag true)) := by
  refine ⟨fun h => ?_, fun h => ?_⟩
  all_goals
    have hreasons := h flipOpen flipClose .residual (by decide +kernel) (by decide +kernel) (.inl rfl)
    exact absurd hreasons.2 (by decide +kernel)

end CryptoPilot.Live
