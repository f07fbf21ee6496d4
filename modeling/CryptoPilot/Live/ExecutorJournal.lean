/- # ExecutorJournal — the executor moves along the journal's machine.

What the executor knows of an order in its runtime (the booked quantity, the post quantity, the
reading of the post) has to agree with the journal and the trace before its bookings and terminal
records are moves of `SysMove`.  `Slot` says that for the order an intent holds; `Tracked` for all
intents of a run, together with the fact that no two of them hold the same order. -/
import CryptoPilot.Live.ExecutorRuns
import CryptoPilot.Live.JournalInvariants

namespace CryptoPilot.Live

open CryptoPilot.Lib Proc List

/-! ## What a runtime holds -/

/-- The executor relies on the misses at or after the horizon on its own clock, from the trace
`base` on. -/
def reliesLate (c : ExecConfig) (base : List Event) : Reliance := fun orderId e pre =>
  base <:+ pre ∧ ∃ p ∈ pre, p.PostsOrder orderId ∧ unknownOutcomeHorizonS c ≤ e.reading - p.reading

def Core.Holds (k : Core) (orderId : String) : Prop :=
  k.activeId = some orderId ∨ k.unresolvedId = some orderId

/-- **The order an intent holds**, as the trace and the journal know it. -/
inductive Slot (horizon : ℚ) (base : List Event) (k : Core) (y : Sys) : Prop where
  | idle (noActive : k.activeId = none) (noUnresolved : k.unresolvedId = none)
      (notPaper : k.paperActive = false)
  | active {p : Event} {tag : OrderTag} {params : OrderParams}
      (active : k.activeId = some params.newClientOrderId) (noUnresolved : k.unresolvedId = none)
      (notPaper : k.paperActive = false) (mem : p ∈ y.trace) (call : p.call = .newOrder tag params)
      (qty : k.activePostQty = params.quantity)
      (fits : k.filledTotal - k.reportedExecuted + k.activePostQty ≤ k.intent.quantity)
      (tracked : FateLaw horizon y.trace →
        k.reportedExecuted = y.journal.observedQty params.newClientOrderId)
  | paper {p : Event} {tag : OrderTag} {params : OrderParams}
      (active : k.activeId = some params.newClientOrderId) (noUnresolved : k.unresolvedId = none)
      (paper : k.paperActive = true) (mem : p ∈ y.trace) (call : p.call = .newOrder tag params)
      (reply : p.reply = .paper)
  | unresolved {p : Event} {tag : OrderTag} {params : OrderParams} {newer pre : List Event}
      (noActive : k.activeId = none) (unresolved : k.unresolvedId = some params.newClientOrderId)
      (notPaper : k.paperActive = false) (split : y.trace = newer ++ p :: pre) (since : base <:+ pre)
      (call : p.call = .newOrder tag params) (dated : p.reading = k.unresolvedAt)
      (qty : k.unresolvedPostQty = params.quantity)
      (fits : k.filledTotal + k.unresolvedPostQty ≤ k.intent.quantity)
      (tracked : FateLaw horizon y.trace → y.journal.observedQty params.newClientOrderId = 0)

def Abs.sys (a : Abs) : Sys where
  journal := a.journal
  trace := a.trace

section Slots

variable {horizon : ℚ} {base : List Event} {c : ExecConfig} {timed : Bool} {k : Core} {y y' : Sys}
  {e : Event} {orderId : String} {a a' : Abs}

section

variable (h : Slot horizon base k y)

include h

theorem Slot.posted (hholds : k.Holds orderId) : ∃ p ∈ y.trace, p.PostsOrder orderId := by
  rcases hholds with hactive | hunresolved
  · cases h with
    | idle noActive | unresolved noActive => rw [hactive] at noActive; cases noActive
    | @active p tag params active _ _ mem call | @paper p tag params active _ _ mem call =>
      exact ⟨p, mem, tag, params, call, Option.some.inj (active.symm.trans hactive)⟩
  · cases h with
    | idle _ noUnresolved | active _ noUnresolved | paper _ noUnresolved =>
      rw [hunresolved] at noUnresolved; cases noUnresolved
    | @unresolved p tag params newer pre _ unresolved _ split _ call =>
      refine ⟨p, by rw [split]; simp, tag, params, call, ?_⟩
      exact Option.some.inj (unresolved.symm.trans hunresolved)

theorem Slot.frame (htrace : y'.trace = e :: y.trace)
    (hobserved : ∀ id, k.Holds id → y'.journal.observedQty id = y.journal.observedQty id) :
    Slot horizon base k y' := by
  have hlaw : FateLaw horizon y'.trace → FateLaw horizon y.trace := by
    rw [htrace]; exact FateLaw.tail
  cases h with
  | idle h₁ h₂ h₃ => exact .idle h₁ h₂ h₃
  | active h₁ h₂ h₃ h₄ h₅ h₆ h₇ h₈ =>
    refine .active h₁ h₂ h₃ (by rw [htrace]; exact mem_cons_of_mem e h₄) h₅ h₆ h₇ fun h => ?_
    rw [hobserved _ (.inl h₁)]; exact h₈ (hlaw h)
  | paper h₁ h₂ h₃ h₄ h₅ h₆ =>
    exact .paper h₁ h₂ h₃ (by rw [htrace]; exact mem_cons_of_mem e h₄) h₅ h₆
  | @unresolved p tag params newer pre h₁ h₂ h₃ h₄ h₅ h₆ h₇ h₈ h₉ h₁₀ =>
    have hsplit : y'.trace = (e :: newer) ++ p :: pre := by
      rw [htrace, h₄]; rfl
    refine .unresolved h₁ h₂ h₃ hsplit h₅ h₆ h₇ h₈ h₉ fun h => ?_
    rw [hobserved _ (.inr h₂)]; exact h₁₀ (hlaw h)

theorem Slot.annotate (phase : Phase) (q : ℚ) (status : Option OutcomeStatus) (reason : Option BlockReason) :
    Slot horizon base
      { k with phase := phase, passiveQuote := q, terminalStatus := status, blockReason := reason } y := by
  cases h with
  | idle h₁ h₂ h₃ => exact .idle h₁ h₂ h₃
  | active h₁ h₂ h₃ h₄ h₅ h₆ h₇ h₈ => exact .active h₁ h₂ h₃ h₄ h₅ h₆ h₇ h₈
  | paper h₁ h₂ h₃ h₄ h₅ h₆ => exact .paper h₁ h₂ h₃ h₄ h₅ h₆
  | unresolved h₁ h₂ h₃ h₄ h₅ h₆ h₇ h₈ h₉ h₁₀ => exact .unresolved h₁ h₂ h₃ h₄ h₅ h₆ h₇ h₈ h₉ h₁₀

theorem Slot.release (hactive : k.activeId = some orderId) : Slot horizon base k.release y := by
  cases h with
  | idle h₁ | unresolved h₁ => rw [hactive] at h₁; cases h₁
  | active _ h₂ | paper _ h₂ => exact .idle rfl h₂ rfl

theorem Slot.adopt (hunresolved : k.unresolvedId = some orderId) : Slot horizon base k.adopt y := by
  cases h with
  | idle _ h₂ | active _ h₂ | paper _ h₂ => rw [hunresolved] at h₂; cases h₂
  | @unresolved p tag params newer pre h₁ h₂ h₃ h₄ h₅ h₆ h₇ h₈ h₉ h₁₀ =>
    refine .active h₂ rfl h₃ (by rw [h₄]; simp) h₆ h₈ ?_ fun h => (h₁₀ h).symm
    show k.filledTotal - 0 + k.unresolvedPostQty ≤ k.intent.quantity
    rw [sub_zero]; exact h₉

theorem Slot.writeOff (hunresolved : k.unresolvedId = some orderId) :
    Slot horizon base { k with unresolvedId := none } y := by
  cases h with
  | idle _ h₂ | active _ h₂ | paper _ h₂ => rw [hunresolved] at h₂; cases h₂
  | unresolved h₁ _ h₃ => exact .idle h₁ rfl h₃

end

theorem Slot.bookReport {x : ℚ} (h : Slot horizon base k y) (hactive : k.activeId = some orderId)
    (hlive : k.paperActive = false) (htrace : y'.trace = e :: y.trace)
    (hobserved : y'.journal.observedQty orderId =
      x) : Slot horizon base (k.book (x - k.reportedExecuted) x) y' := by
  cases h with
  | idle h₁ | unresolved h₁ => rw [hactive] at h₁; cases h₁
  | paper _ _ h₃ => rw [hlive] at h₃; cases h₃
  | active h₁ h₂ h₃ h₄ h₅ h₆ h₇ h₈ =>
    obtain rfl := Option.some.inj (hactive.symm.trans h₁)
    refine .active h₁ h₂ h₃ (by rw [htrace]; exact mem_cons_of_mem e h₄) h₅ h₆ ?_
      fun _ => hobserved.symm
    show k.filledTotal + (x - k.reportedExecuted) - x + k.activePostQty ≤ k.intent.quantity
    linarith

theorem Slot.bookPaper {q cumulative : ℚ} (h : Slot horizon base k y) (hpaper : k.paperActive = true) :
    Slot horizon base (k.book q cumulative) y := by
  cases h with
  | idle _ _ h₃ | active _ _ h₃ | unresolved _ _ h₃ => rw [hpaper] at h₃; cases h₃
  | paper h₁ h₂ h₃ h₄ h₅ h₆ => exact .paper h₁ h₂ h₃ h₄ h₅ h₆

theorem Step.holds (h : Step c timed a a') (hholds : a'.core.Holds orderId) : a.core.Holds orderId := by
  cases h with
  | release active => exact hholds.elim nofun .inr
  | adopt unresolved => exact hholds.elim .inr nofun
  | writeOff unresolved => exact hholds.elim .inl nofun
  | _ => exact hholds

theorem Step.observedQty_eq (h : Step c timed a a') (hfree : ¬ a.core.Holds orderId) :
    a'.journal.observedQty orderId = a.journal.observedQty orderId := by
  cases h with
  | @bookFill e r f id x active live mem report new bounded logs hid qty cumulative real seq fresh =>
    have hne : orderId ≠ id := by
      rintro rfl; exact hfree (.inl active)
    show (a.journal.apply (.fill f)).observedQty orderId = _
    rw [Journal.observedQty_bookFill hid cumulative fresh, if_neg hne]
  | paperFill active paper pos bounded logs cumulative =>
    exact Journal.observedQty_simulatedFill cumulative orderId
  | _ => rfl

theorem TerminalCause.closure {t : JournalTerminal} (h : TerminalCause c a t)
    (hslot : Slot horizon base a.core a.sys) (hids : IdsKept a.sys) :
    Closure (FateLaw horizon) (reliesLate c base) a.sys t := by
  cases h with
  | @settled e payload active live settles last report =>
    cases hslot with
    | idle h₁ | unresolved h₁ => rw [active] at h₁; cases h₁
    | paper _ _ h₃ => rw [live] at h₃; cases h₃
    | @active p tag params h₁ h₂ h₃ h₄ h₅ h₆ h₇ h₈ =>
      have hid : params.newClientOrderId = t.clientOrderId := Option.some.inj (h₁.symm.trans active)
      rcases settles with ⟨r, hmem, x, hclosed, hle⟩ | hrest
      · refine .closed hmem hclosed (fun hlaw => ?_) ⟨e, payload, last, report⟩
        rw [← hid, ← h₈ hlaw]; exact hle
      · refine .full h₄ h₅ hid (fun hlaw => ?_) ⟨e, payload, last, report⟩
        rw [← hid, ← h₈ hlaw]
        rcases hrest with hfull | hfilled <;> linarith
  | simulated active paper placed =>
    cases hslot with
    | idle h₁ | unresolved h₁ => rw [active] at h₁; cases h₁
    | active _ _ h₃ => rw [paper] at h₃; cases h₃
    | paper h₁ h₂ h₃ h₄ h₅ h₆ =>
      exact .simulated h₄ h₅ (Option.some.inj (h₁.symm.trans active)) h₆ placed
  | @missed e unresolved status last late =>
    cases hslot with
    | idle _ h₂ | active _ h₂ | paper _ h₂ => rw [unresolved] at h₂; cases h₂
    | @unresolved p tag params newer pre h₁ h₂ h₃ h₄ h₅ h₆ h₇ h₈ h₉ h₁₀ =>
      have hpost : p.PostsOrder t.clientOrderId := ⟨tag, params, h₆, Option.some.inj (h₂.symm.trans unresolved)⟩
      have htrace : a.trace = newer ++ p :: pre := h₄
      have hlast := last
      rw [htrace] at hlast
      obtain ⟨later, earlier, rfl⟩ := split_of_lastAnswer hlast hpost late.1.postsNothing.not_postsOrder
      -- the miss came after the post, and the post after its submission
      have hsplit : a.sys.trace = later ++ e :: (earlier ++ p :: pre) := by
        rw [h₄]; simp
      have hsuffix : p :: pre <:+ earlier ++ p :: pre := suffix_append _ _
      have hpre : pre <:+ earlier ++ p :: pre := (suffix_cons p pre).trans hsuffix
      refine .missed hsplit last late.1 ((hids.submitted_pre h₄ hpost).of_suffix hpre)
        ⟨h₅.trans hpre, p, by simp, hpost, ?_⟩
      rw [h₇]; exact late.2
  | refused last post owner reply classed => exact .refused last post reply classed

def Shifts (horizon : ℚ) (c : ExecConfig) (base : List Event) (y y' : Sys) : Prop :=
  y' = y ∨ SysMove (FateLaw horizon) (reliesLate c base) y y'

/-- **Every move of an intent short of posting is a move of the journal's machine**, and keeps its
slot. -/
theorem Step.shifts (h : Step c timed a a') (hslot : Slot horizon base a.core a.sys) (hids : IdsKept a.sys) :
    Shifts horizon c base a.sys a'.sys ∧ Slot horizon base a'.core a'.sys := by
  cases h with
  | heard quiet dated =>
    refine ⟨.inr (.hear (Event.postsNothing_of_quiet quiet) (not_logs_of_quiet quiet)), ?_⟩
    exact hslot.frame rfl fun _ _ => rfl
  | failedAppend call failed =>
    refine ⟨.inr (.hear (Event.postsNothing_of_call call rfl) fun _ hlogs => failed hlogs.2), ?_⟩
    exact hslot.frame rfl fun _ _ => rfl
  | tick call allowed =>
    refine ⟨.inr (.hear (Event.postsNothing_of_call call rfl) fun _ hlogs => ?_), ?_⟩
    · rw [hlogs.1] at call; cases call
    · exact hslot.frame rfl fun _ _ => rfl
  | schema logs => exact ⟨.inr (.note rfl logs), hslot.frame rfl fun _ _ => rfl⟩
  | submit logs seq id => exact ⟨.inr (.submit logs seq id), hslot.frame rfl fun _ _ => rfl⟩
  | @bookFill e r f orderId x active live mem report new bounded logs hid qty cumulative real seq
      fresh =>
      have htracked : FateLaw horizon a.trace →
          a.core.reportedExecuted = a.journal.observedQty orderId := by
        intro hlaw
        cases hslot with
        | idle h₁ | unresolved h₁ => rw [active] at h₁; cases h₁
        | paper _ _ h₃ => rw [live] at h₃; cases h₃
        | active h₁ _ _ _ _ _ _ h₈ => exact Option.some.inj (active.symm.trans h₁) ▸ h₈ hlaw
      refine ⟨.inr (.fill logs hid real cumulative fresh mem report fun hlaw => ?_), ?_⟩
      · rw [qty, htracked hlaw]; rfl
      · refine hslot.bookReport active live (e := e) rfl ?_
        exact (Journal.observedQty_bookFill hid cumulative fresh orderId).trans (if_pos rfl)
  | paperFill active paper pos bounded logs cumulative simulated seq =>
    refine ⟨.inr (.simulatedFill logs simulated cumulative), ?_⟩
    refine Slot.bookPaper (hslot.frame rfl fun id _ => ?_) paper
    exact Journal.observedQty_simulatedFill cumulative id
  | terminal cause logs =>
    exact ⟨.inr (.terminal logs (cause.closure hslot hids)), hslot.frame rfl fun _ _ => rfl⟩
  | release active why => exact ⟨.inl rfl, hslot.release active⟩
  | adopt unresolved => exact ⟨.inl rfl, hslot.adopt unresolved⟩
  | writeOff unresolved last late => exact ⟨.inl rfl, hslot.writeOff unresolved⟩
  | repeg inBand | escalate | finish running | block blocked =>
    exact ⟨.inl rfl, hslot.annotate _ _ _ _⟩

theorem Backed.observedQty_unposted (hbacked : Backed y) (hlaw : FateLaw horizon y.trace)
    (hname : clientOrderNamespace.toList <+: orderId.toList)
    (hfree : ∀ p ∈ y.trace, ¬ p.PostsOrder orderId) : y.journal.observedQty orderId = 0 := by
  rcases hbacked orderId with hzero | ⟨r, hr, hreport⟩
  · exact hzero
  · obtain ⟨later, pre, hsplit⟩ := append_of_mem hr
    rw [← hlaw.truthful r hr _ _ hreport]
    refine hlaw.unposted later r pre hsplit orderId hname fun p hp => hfree p ?_
    rw [hsplit]; exact mem_append_right _ hp

variable {params : OrderParams}

theorem SendReady.fresh {tag : OrderTag} (hready : SendReady c a e tag params)
    (hids : IdsKept a.sys) : (∀ p ∈ a.trace, ¬ p.PostsOrder params.newClientOrderId) ∧
      clientOrderNamespace.toList <+: params.newClientOrderId.toList := by
  obtain ⟨e₀, s, rest, htrace, hlogs, hid, -⟩ := hready.journaled
  have hsub : e₀.Submits params.newClientOrderId := ⟨s, hlogs, hid⟩
  refine ⟨fun p hp => hids.not_posted htrace hsub hp, ?_⟩
  obtain ⟨sha256, runId, symbol, leg, seq, -, hbuilt⟩ :=
    hids.built params.newClientOrderId ⟨e₀, by rw [Abs.sys, htrace]; exact mem_cons_self, hsub⟩
  exact buildClientOrderId_namespace hbuilt

theorem Core.afterReply_holds {q now : ℚ} {reply : Reply} {posted : String}
    (h : (k.afterReply posted q now reply).Holds orderId) : orderId = posted ∨ k.Holds orderId := by
  unfold Core.afterReply at h
  split at h
  · exact h.elim (fun h => .inr (.inl h)) fun h => .inl (Option.some.inj h).symm
  · exact .inr h
  · exact .inr h
  all_goals exact h.elim (fun h => .inl (Option.some.inj h).symm) fun h => .inr (.inr h)

theorem SendReady.slot {tag : OrderTag} (hready : SendReady c a e tag params)
    (hslot : Slot horizon base a.core a.sys) (hbase : base <:+ a.trace)
    (hfresh : FateLaw horizon (e :: a.trace) → a.journal.observedQty params.newClientOrderId = 0) :
    Slot horizon base (a.afterSend e params).core (a.sys.hear e) := by
  have hpaper : a.core.paperActive = false := by
    cases hslot with
    | idle _ _ h₃ => exact h₃
    | active h₁ | paper h₁ => rw [hready.noActive] at h₁; cases h₁
    | unresolved _ h₂ => rw [hready.noUnresolved] at h₂; cases h₂
  have hmem : e ∈ (a.sys.hear e).trace := mem_cons_self
  have hactivate : ∀ k : Core, k = a.core.activate params.newClientOrderId params.quantity false →
      Slot horizon base k (a.sys.hear e) := by
    rintro k rfl
    refine .active rfl hready.noUnresolved hpaper hmem hready.call rfl ?_ fun hlaw => (hfresh hlaw).symm
    show a.core.filledTotal - 0 + params.quantity ≤ a.core.intent.quantity; linarith [hready.qty_le]
  show Slot horizon base (a.core.afterReply params.newClientOrderId params.quantity a.reading e.reply)
    (a.sys.hear e)
  cases hreply : e.reply with
  | error exc =>
    by_cases hunknown : exc = .orderStatusUnknown
    · subst hunknown
      have hsplit : (a.sys.hear e).trace = [] ++ e :: a.trace := rfl
      refine .unresolved hready.noActive rfl hpaper hsplit hbase hready.call hready.dated rfl ?_ hfresh
      show a.core.filledTotal + params.quantity ≤ a.core.intent.quantity; linarith [hready.qty_le]
    · have hcore : a.core.afterReply params.newClientOrderId params.quantity a.reading (.error exc)
          = a.core := by
        cases exc <;> first | rfl | exact absurd rfl hunknown
      rw [hcore]; exact .idle hready.noActive hready.noUnresolved hpaper
  | paper => exact .paper rfl hready.noUnresolved rfl hmem hready.call hreply
  | shadow => exact .idle hready.noActive hready.noUnresolved hpaper
  | _ => exact hactivate _ rfl

/-- **Posting is a move of the journal's machine**; the order held afterwards was not posted before.
-/
theorem Send.shifts (h : Send c e a a') (hslot : Slot horizon base a.core a.sys) (hids : IdsKept a.sys)
    (hbacked : Backed a.sys) (hbase : base <:+ a.trace) :
    SysMove (FateLaw horizon) (reliesLate c base) a.sys a'.sys ∧ Slot horizon base a'.core a'.sys ∧
      ∀ orderId, a'.core.Holds orderId → ∀ p ∈ a.trace, ¬ p.PostsOrder orderId := by
  obtain ⟨tag, params, hready, rfl⟩ := h
  obtain ⟨hfree, hname⟩ := hready.fresh hids
  obtain ⟨e₀, s, rest, htrace, hlogs, hid, -⟩ := hready.journaled
  refine ⟨.post hready.call ⟨e₀, rest, htrace, s, hlogs, hid⟩, ?_, fun orderId hholds => ?_⟩
  · exact hready.slot hslot hbase fun hlaw => hbacked.observedQty_unposted hlaw.tail hname hfree
  · rcases Core.afterReply_holds hholds with rfl | hactive | hunresolved
    · exact hfree
    · rw [hready.noActive] at hactive; cases hactive
    · rw [hready.noUnresolved] at hunresolved; cases hunresolved

end Slots

/-! ## Whole runs -/

def AbsRun.sys {n : ℕ} (r : AbsRun n) : Sys where
  journal := r.journal
  trace := r.trace

/-- **A run in step with its journal**: it came along the machine from `y₀`, every intent's order is
as the journal knows it, and no two intents share one. -/
structure Tracked {n : ℕ} (horizon : ℚ) (c : ExecConfig) (y₀ : Sys) (r : AbsRun n) : Prop where
  reach : SysReach (FateLaw horizon) (reliesLate c y₀.trace) y₀ r.sys
  ids : IdsKept r.sys
  backed : Backed r.sys
  slots : ∀ i, Slot horizon y₀.trace (r.cores i) r.sys
  apart : ∀ i j, i ≠ j → ∀ orderId, (r.cores i).Holds orderId → ¬ (r.cores j).Holds orderId

section Runs

variable {n : ℕ} {horizon : ℚ} {c : ExecConfig} {y₀ : Sys} {intents : Fin n → OrderIntent}
  {r r' : AbsRun n} {i : Fin n}

section

variable (h : Tracked horizon c y₀ r)

include h

theorem Tracked.shift (hmove : Shifts horizon c y₀.trace r.sys r'.sys)
    (hslots : ∀ i, Slot horizon y₀.trace (r'.cores i) r'.sys)
    (hapart : ∀ i j, i ≠ j → ∀ orderId, (r'.cores i).Holds orderId → ¬ (r'.cores j).Holds orderId) :
    Tracked horizon c y₀ r' := by
  rcases hmove with heq | hmove
  · refine ⟨?_, ?_, ?_, hslots, hapart⟩ <;> rw [heq]
    · exact h.reach
    · exact h.ids
    · exact h.backed
  · exact ⟨h.reach.tail hmove, hmove.idsKept h.ids, hmove.backed h.backed, hslots, hapart⟩

theorem Tracked.ambient (hmove : Ambient r r') : Tracked horizon c y₀ r' := by
  have hframe : ∀ {e : Event}, r'.cores = r.cores → r'.trace = e :: r.trace →
      (∀ id, r'.journal.observedQty id = r.journal.observedQty id) →
      SysMove (FateLaw horizon) (reliesLate c y₀.trace) r.sys r'.sys → Tracked horizon c y₀ r' := by
    intro e hcores htrace hobserved hsys
    refine h.shift (.inr hsys) (fun i => ?_) ?_ <;> rw [hcores]
    · exact (h.slots i).frame htrace fun id _ => hobserved id
    · exact h.apart
  cases hmove with
  | @heard e quiet dated =>
    refine hframe (e := e) rfl rfl (fun _ => rfl) ?_
    rcases quiet with hquiet | hbooks
    · exact .hear (Event.postsNothing_of_quiet hquiet) (not_logs_of_quiet hquiet)
    · refine .hear (Event.postsNothing_of_call hbooks rfl) fun _ hlogs => ?_
      rw [hlogs.1] at hbooks; cases hbooks
  | failedAppend call failed =>
    exact hframe rfl rfl (fun _ => rfl)
      (.hear (Event.postsNothing_of_call call rfl) fun _ hlogs => failed hlogs.2)
  | tick call =>
    refine hframe rfl rfl (fun _ => rfl) (.hear (Event.postsNothing_of_call call rfl) fun _ hlogs => ?_)
    rw [hlogs.1] at call; cases call
  | schema logs => exact hframe rfl rfl (fun _ => rfl) (.note rfl logs)
  | simulatedFill logs simulated cumulative seq =>
    exact hframe rfl rfl (Journal.observedQty_simulatedFill cumulative)
      (.simulatedFill logs simulated cumulative)

theorem Tracked.step (hmoves : r.Moves (Step c true) i r') :
    Tracked horizon c y₀ r' := by
  obtain ⟨hshift, hslot⟩ := hmoves.own.shifts (h.slots i) h.ids
  have hholds : ∀ j orderId, (r'.cores j).Holds orderId → (r.cores j).Holds orderId := by
    intro j orderId hj
    by_cases hji : j = i
    · subst hji; exact hmoves.own.holds hj
    · rwa [hmoves.others j hji] at hj
  refine h.shift hshift (fun j => ?_) fun j j' hne orderId hj hj' =>
    h.apart j j' hne orderId (hholds j orderId hj) (hholds j' orderId hj')
  by_cases hji : j = i
  · rw [hji]; exact hslot
  rw [hmoves.others j hji]
  have hobserved : ∀ id, (r.cores j).Holds id → r'.journal.observedQty id = r.journal.observedQty id :=
    fun id hid => hmoves.own.observedQty_eq (h.apart j i hji id hid)
  rcases hshift with heq | hmove
  · have hsys : r'.sys = r.sys := heq
    rw [hsys]; exact h.slots j
  · obtain ⟨e, he⟩ := hmove.trace_cons; exact (h.slots j).frame he hobserved

theorem Tracked.send {e : Event} (hmoves : r.Moves (Send c e) i r') :
    Tracked horizon c y₀ r' := by
  have hbase : y₀.trace <:+ r.trace := h.reach.trace_suffix
  obtain ⟨hmove, hslot, hfree⟩ := hmoves.own.shifts (h.slots i) h.ids h.backed hbase
  obtain ⟨e', he'⟩ := hmove.trace_cons
  have hjournal : r'.journal = r.journal := by
    obtain ⟨tag, params, -, heq⟩ := hmoves.own; exact congrArg Abs.journal heq
  have hother : ∀ j, j ≠ i → ∀ orderId, (r'.cores j).Holds orderId → (r.cores j).Holds orderId := by
    intro j hji orderId hj; rwa [hmoves.others j hji] at hj
  -- the new order was never posted, the orders of the others were
  have hnew : ∀ j, j ≠ i → ∀ orderId, (r'.cores i).Holds orderId → ¬ (r'.cores j).Holds orderId := by
    intro j hji orderId hi hj
    obtain ⟨p, hp, hpost⟩ := (h.slots j).posted (hother j hji orderId hj)
    exact hfree orderId hi p hp hpost
  refine h.shift (.inr hmove) (fun j => ?_) fun j j' hne orderId hj hj' => ?_
  · by_cases hji : j = i
    · rw [hji]; exact hslot
    · rw [hmoves.others j hji]
      exact (h.slots j).frame he' fun id _ => by rw [AbsRun.sys, hjournal]; rfl
  · by_cases hji : j = i
    · subst hji; exact hnew j' (Ne.symm hne) orderId hj hj'
    · by_cases hji' : j' = i
      · subst hji'; exact hnew j hji orderId hj' hj
      · exact h.apart j j' hne orderId (hother j hji orderId hj) (hother j' hji' orderId hj')

end

end Runs

/-- **`execute_intents` moves along the journal's machine**, however it ends. -/
theorem executeRun_reach {horizon : ℚ} (c : ExecConfig) (intents : List OrderIntent) {w : World}
    (hids : IdsKept w.sys) (hbacked : Backed w.sys) :
    SysReach (FateLaw horizon) (reliesLate c w.trace) w.sys (executeRun c intents w).2.w.sys := by
  have hrule : RunRule c intents.get (Tracked horizon c w.sys)
      (Tracked horizon c w.sys) :=
    RunRule.of_steps (fun hmove _ h => h.ambient hmove) (fun hmoves _ h => h.step hmoves)
      (fun hmoves _ h => h.send hmoves)
  have hstart : Tracked horizon c w.sys (initRun c intents w).abs := by
    refine ⟨.refl, hids, hbacked, fun _ => .idle rfl rfl rfl, fun i j _ orderId hi => ?_⟩
    rcases hi with hi | hi <;> cases hi
  exact (hrule.executeRun_keeps hstart).2.reach

end CryptoPilot.Live
