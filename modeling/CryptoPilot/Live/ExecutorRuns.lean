/- # ExecutorRuns — a whole `execute_intents` run, as moves of its intents.

A run interleaves the turns of its intents with what belongs to no intent: clock readings, book
fetches, audit rows, the simulated fills of the immediate-taker model.  `RunRule` is the induction
rule for the abstract state of all intents together (`AbsRun`): what the loop keeps between turns
(`Good`), what still holds when a turn is broken off or the window has ended (`Weak`), and so what
holds in the end (`executeIntents_keeps`). -/
import CryptoPilot.Live.ExecutorRefines

namespace CryptoPilot.Live

open CryptoPilot.Lib Proc Function

/-! ## The abstract run -/

/-- The abstract state of a run over `n` intents. -/
structure AbsRun (n : ℕ) where
  cores : Fin n → Core
  deps : Fin n → Option (Fin n)
  journal : Journal
  trace : List Event
  reading : ℚ

/-- What the machine of intent `i` sees of the run. -/
def AbsRun.view {n : ℕ} (r : AbsRun n) (i : Fin n) : Abs where
  core := r.cores i
  closeLeg := (r.deps i).map fun j => (r.cores j).terminalStatus
  journal := r.journal
  trace := r.trace
  reading := r.reading

/-- The run after intent `i` moved to `a`. -/
def AbsRun.put {n : ℕ} (r : AbsRun n) (i : Fin n) (a : Abs) : AbsRun n where
  cores := Function.update r.cores i a.core
  deps := r.deps
  journal := a.journal
  trace := a.trace
  reading := a.reading

def Run.abs {n : ℕ} (s : Run n) : AbsRun n where
  cores := fun i => (s.rts i).core
  deps := s.deps
  journal := s.w.journal
  trace := s.w.trace
  reading := s.w.reading

/-- What no move changes: the identity of the intents and the close legs they wait for. -/
structure Wired {n : ℕ} (c : ExecConfig) (intents : Fin n → OrderIntent) (r : AbsRun n) : Prop where
  index : ∀ i, (r.cores i).index = i
  intent : ∀ i, (r.cores i).intent = intents i
  filters : ∀ i, (r.cores i).filters = c.filters.lookup (intents i).symbol
  deps : r.deps = closeDependency intents

inductive Ambient {n : ℕ} : AbsRun n → AbsRun n → Prop where
  | heard {r : AbsRun n} {e : Event} (quiet : e.call.quiet = true ∨ e.call = .bookTickers)
      (dated : e.reading = r.reading) : Ambient r { r with trace := e :: r.trace }
  | failedAppend {r : AbsRun n} {e : Event} {record : Record} (call : e.call = .append record)
      (failed : e.reply.raised ≠ none) : Ambient r { r with trace := e :: r.trace }
  | tick {r : AbsRun n} {e : Event} (call : e.call = .clock) :
      Ambient r { r with trace := e :: r.trace, reading := e.time }
  | schema {r : AbsRun n} {e : Event} (logs : e.Logs .schema) :
      Ambient r { r with trace := e :: r.trace, journal := r.journal.apply .schema }
  | simulatedFill {r : AbsRun n} {e : Event} {f : JournalFill} (logs : e.Logs (.fill f))
      (simulated : f.simulated = true) (cumulative : f.cumulativeExecutedQty = none)
      (seq : f.fillSeq = r.journal.nextFillSeq) (id : f.clientOrderId = none) :
      Ambient r { r with trace := e :: r.trace, journal := r.journal.apply (.fill f) }

/-- Intent `i` moves by `R`; the other intents stand still. -/
structure AbsRun.Moves {n : ℕ} (R : Abs → Abs → Prop) (i : Fin n) (r r' : AbsRun n) : Prop where
  own : R (r.view i) (r'.view i)
  others : ∀ j, j ≠ i → r'.cores j = r.cores j
  deps : r'.deps = r.deps

/-! ## Close legs -/

section CloseLegs

variable {n : ℕ} {intents : Fin n → OrderIntent}

theorem closeDependency_eq_some {i j : Fin n} (h : closeDependency intents i = some j) :
    j ≠ i ∧ (intents i).reduceOnly = false ∧ (intents j).symbol = (intents i).symbol ∧
      (intents j).reduceOnly = true ∧ (intents j).legIndex < (intents i).legIndex := by
  rw [closeDependency] at h
  split at h
  · cases h
  · next hopen =>
    have hj : j ≠ i ∧ (intents j).symbol = (intents i).symbol ∧ (intents j).reduceOnly = true ∧
        (intents j).legIndex < (intents i).legIndex := by
      -- the candidate of the scan always satisfies the conditions it was taken under
      refine List.foldlRecOn (motive := fun candidate => ∀ k, candidate = some k → k ≠ i ∧
        (intents k).symbol = (intents i).symbol ∧ (intents k).reduceOnly = true ∧
        (intents k).legIndex < (intents i).legIndex) _ _ ?_ (fun candidate ih k _ => ?_) j h
      · intro k hk; cases hk
      · intro k' hk'
        split at hk'
        · next hk =>
          obtain rfl := Option.some.inj hk'; exact ⟨hk.1, hk.2.1, hk.2.2.1, hk.2.2.2.1⟩
        · exact ih k' hk'
    exact ⟨hj.1, by simpa using hopen, hj.2⟩

theorem closeDependency_ne_self (i : Fin n) : closeDependency intents i ≠ some i :=
  fun h => (closeDependency_eq_some h).1 rfl

theorem closeDependency_eq_none {i : Fin n} (h : (intents i).reduceOnly = true) :
    closeDependency intents i = none := by
  rw [closeDependency, if_pos h]

end CloseLegs

/-! ## Putting and viewing -/

section PutView

variable {n : ℕ} {c : ExecConfig} {timed : Bool} {intents : Fin n → OrderIntent} {r r' : AbsRun n}
  {i : Fin n} {a a' : Abs}

theorem AbsRun.put_view (hdeps : r.deps i ≠ some i) (hleg : a.closeLeg = (r.view i).closeLeg) :
    (r.put i a).view i = a := by
  have hclose : ((r.put i a).view i).closeLeg = a.closeLeg := by
    rw [hleg]
    cases hdep : r.deps i with
    | none => simp [AbsRun.view, AbsRun.put, hdep]
    | some j =>
      have hne : j ≠ i := fun h => hdeps (h ▸ hdep)
      simp [AbsRun.view, AbsRun.put, hdep, update_of_ne hne]
  have hcore : ((r.put i a).view i).core = a.core := by simp [AbsRun.view, AbsRun.put]
  obtain ⟨k, leg, j, t, q⟩ := a
  simp only [AbsRun.view, AbsRun.put, Abs.mk.injEq] at hclose hcore ⊢
  exact ⟨hcore, hclose, trivial, trivial, trivial⟩

variable {R : Abs → Abs → Prop}

/-- A move of intent `i` along a relation that leaves the close leg alone, made in the run. -/
theorem AbsRun.put_moves (hwired : Wired c intents r)
    (hleg : a.closeLeg = (r.view i).closeLeg) (h : R (r.view i) a) : r.Moves R i (r.put i a) := by
  have hdeps : r.deps i ≠ some i := by
    rw [hwired.deps]; exact closeDependency_ne_self i
  refine ⟨?_, fun j hj => update_of_ne hj _ _, rfl⟩
  rw [AbsRun.put_view hdeps hleg]; exact h

theorem Run.put_abs {s : Run n} {l : Local} : (s.put i l).abs = s.abs.put i l.abs := by
  have hcores : (fun j => ((s.put i l).rts j).core)
      = Function.update (fun j => (s.rts j).core) i l.rt.core := by
    funext j
    by_cases hj : j = i
    · subst hj; simp [Run.put]
    · simp [Run.put, update_of_ne hj]
  simp only [Run.abs, AbsRun.put, hcores]; rfl

theorem AbsRun.Moves.wired (h : r.Moves R i r') (hwired : Wired c intents r)
    (hindex : (r'.cores i).index = (r.cores i).index) (hintent : (r'.cores i).intent = (r.cores i).intent)
    (hfilters : (r'.cores i).filters = (r.cores i).filters) : Wired c intents r' := by
  have hcore : ∀ {β : Type} (f : Core → β), f (r'.cores i) = f (r.cores i) →
      ∀ j, f (r'.cores j) = f (r.cores j) := by
    intro β f hf j
    by_cases hj : j = i
    · rw [hj]; exact hf
    · rw [h.others j hj]
  refine ⟨fun j => ?_, fun j => ?_, fun j => ?_, h.deps.trans hwired.deps⟩
  · exact (hcore Core.index hindex j).trans (hwired.index j)
  · exact (hcore Core.intent hintent j).trans (hwired.intent j)
  · exact (hcore Core.filters hfilters j).trans (hwired.filters j)

theorem AbsRun.Moves.mono {R R' : Abs → Abs → Prop} (h : r.Moves R i r')
    (hR : ∀ {a a'}, R a a' → R' a a') : r.Moves R' i r' :=
  ⟨hR h.own, h.others, h.deps⟩

theorem AbsRun.Moves.eq_put (h : r.Moves R i r') : r' = r.put i (r'.view i) := by
  have hcores : r'.cores = Function.update r.cores i (r'.cores i) := by
    funext j
    by_cases hj : j = i
    · rw [hj, update_self]
    · rw [update_of_ne hj]; exact h.others j hj
  have hdeps := h.deps
  cases r'
  simp only [AbsRun.put, AbsRun.view] at hcores hdeps ⊢
  rw [← hcores, hdeps]

theorem Ambient.wired (h : Ambient r r') (hwired : Wired c intents r) : Wired c intents r' := by
  cases h <;> exact ⟨hwired.index, hwired.intent, hwired.filters, hwired.deps⟩

end PutView

/-! ## The rule of a run -/

/-- **The induction rule of a run.**  `Good` holds between the turns of the loop; `Weak` is left of
it when a turn is broken off, and kept by the settling steps. -/
structure RunRule {n : ℕ} (c : ExecConfig) (intents : Fin n → OrderIntent)
    (Good Weak : AbsRun n → Prop) : Prop where
  weaken : ∀ {r}, Wired c intents r → Good r → Weak r
  ambient : ∀ {r r'}, Ambient r r' → Wired c intents r → Good r → Good r'
  turn : ∀ {r r'} {i}, r.Moves (Turn c) i r' → Wired c intents r → Good r → Good r'
  broken : ∀ {r r'} {i}, r.Moves (BrokenTurn c) i r' → Wired c intents r → Good r → Weak r'
  ambientWeak : ∀ {r r'}, Ambient r r' → Wired c intents r → Weak r → Weak r'
  settle : ∀ {r r'} {i}, r.Moves (Step c true) i r' → Wired c intents r → Weak r → Weak r'

structure Anchored (a a' : Abs) : Prop where
  closeLeg : a'.closeLeg = a.closeLeg
  index : a'.core.index = a.core.index
  intent : a'.core.intent = a.core.intent
  filters : a'.core.filters = a.core.filters
  reading : a'.reading = a.reading
  quotes : ∀ symbol, latestQuote a'.trace symbol = latestQuote a.trace symbol

section Anchoring

variable {c : ExecConfig} {timed : Bool} {a a' a'' : Abs} {e : Event}

theorem Anchored.trans (h : Anchored a a') (h' : Anchored a' a'') : Anchored a a'' :=
  ⟨h'.closeLeg.trans h.closeLeg, h'.index.trans h.index, h'.intent.trans h.intent,
    h'.filters.trans h.filters, h'.reading.trans h.reading,
    fun symbol => (h'.quotes symbol).trans (h.quotes symbol)⟩

theorem Reach.anchored (h : Reach c false a a') : Anchored a a' := by
  induction h with
  | refl => exact ⟨rfl, rfl, rfl, rfl, rfl, fun _ => rfl⟩
  | tail _ hs ih =>
    exact ih.trans ⟨hs.closeLeg_eq, hs.index_eq, hs.intent_eq, hs.filters_eq, hs.reading_eq, hs.latestQuote_eq⟩

section

variable (k : Core) (orderId : String) (q now : ℚ) (reply : Reply)

include k orderId q now reply

theorem Core.afterReply_index : (k.afterReply orderId q now reply).index = k.index := by
  unfold Core.afterReply
  split <;> rfl

theorem Core.afterReply_intent : (k.afterReply orderId q now reply).intent = k.intent := by
  unfold Core.afterReply
  split <;> rfl

theorem Core.afterReply_filters : (k.afterReply orderId q now reply).filters = k.filters := by
  unfold Core.afterReply
  split <;> rfl

end

theorem Send.anchored (h : Send c e a a') : Anchored a a' := by
  obtain ⟨tag, params, hready, rfl⟩ := h
  refine ⟨rfl, Core.afterReply_index .., Core.afterReply_intent .., Core.afterReply_filters ..,
    rfl, fun symbol => ?_⟩
  show latestQuote (e :: a.trace) symbol = latestQuote a.trace symbol
  rw [latestQuote, hready.call]

theorem BrokenTurn.anchored (h : BrokenTurn c a a') : Anchored a a' := by
  rcases h with h | ⟨e, a₁, a₂, h₁, hsend, h₂⟩
  · exact Reach.anchored h
  · exact ((Reach.anchored h₁).trans hsend.anchored).trans (Reach.anchored h₂)

theorem Turn.toBroken (h : Turn c a a') : BrokenTurn c a a' := by
  rcases h with h | ⟨e, a₁, a₂, h₁, hsend, h₂, -⟩
  · exact .inl h
  · exact .inr ⟨e, a₁, a₂, h₁, hsend, h₂⟩

end Anchoring

/-! ## Programs of the run under an invariant -/

def Holds {n : ℕ} (c : ExecConfig) (intents : Fin n → OrderIntent) (I : AbsRun n → Prop) (s : Run n) : Prop :=
  Wired c intents s.abs ∧ I s.abs

def KeptAround {n : ℕ} (c : ExecConfig) (intents : Fin n → OrderIntent) (I : AbsRun n → Prop) : Prop :=
  ∀ {r r'}, Ambient r r' → Wired c intents r → I r → I r'

section AmbientPrograms

variable {n : ℕ} {c : ExecConfig} {intents : Fin n → OrderIntent} {I : AbsRun n → Prop} {s : Run n}

theorem Holds.ambient (hkept : KeptAround c intents I) (h : Holds c intents I s) {s' : Run n}
    (hmove : Ambient s.abs s'.abs) : Holds c intents I s' :=
  ⟨hmove.wired h.1, hkept hmove h.1 h.2⟩

variable {call : Call}

theorem Holds.heard (hkept : KeptAround c intents I) (h : Holds c intents I s) {e : Event}
    {w' : World} (hw : s.w.Heard call e w') (hcall : call.quiet = true ∨ call = .bookTickers) :
    Holds c intents I { s with w := w' } := by
  refine h.ambient hkept ?_
  have habs : ({ s with w := w' } : Run n).abs = { s.abs with trace := e :: s.abs.trace } := by
    simp only [Run.abs, hw.trace, hw.journal, hw.reading]
  rw [habs]; exact .heard (by rw [hw.call]; exact hcall) hw.dated

section

variable (hkept : KeptAround c intents I) (h : Holds c intents I s) (hcall : call.quiet = true)

include hkept h hcall

theorem wp_quiet_command :
    wp (liftRun (command call)) (fun _ => Holds c intents I) (fun _ => Holds c intents I) s := by
  rw [liftRun, wp_zoom]
  refine wp_command h (fun e w' hw _ => ?_) (fun e w' exc hw _ => ?_)
  all_goals exact h.heard hkept hw (.inl hcall)

theorem wp_quiet_readAttr {α : Type} {read : Reply → α} :
    wp (liftRun (readAttr read call)) (fun _ => Holds c intents I) (fun _ => Holds c intents I) s := by
  rw [liftRun, wp_zoom]; exact wp_readAttr h fun _ e w' hw => h.heard hkept hw (.inl hcall)

end

section

variable (hkept : KeptAround c intents I) (h : Holds c intents I s)

include hkept h

theorem wp_run_clock :
    wp (liftRun clock) (fun now s' => Holds c intents I s' ∧ s'.w.reading = now)
      (fun _ => Holds c intents I) s := by
  rw [liftRun, wp_zoom]
  refine wp_clock h fun e w' htrace hcall hjournal hreading => ⟨h.ambient hkept ?_, hreading⟩
  have habs : ({ s with w := w' } : Run n).abs
      = { s.abs with trace := e :: s.abs.trace, reading := e.time } := by
    simp only [Run.abs, htrace, hjournal, hreading]
  rw [habs]; exact .tick hcall

theorem wp_pollShutdown : wp (pollShutdown c) (fun _ => Holds c intents I) (fun _ => Holds c intents I) s := by
  rw [pollShutdown, wp_ite]; exact ⟨fun _ => wp_quiet_readAttr hkept h rfl, fun _ => h⟩

theorem wp_nextInterval (interval : ℚ) :
    wp (nextInterval c interval) (fun _ => Holds c intents I) (fun _ => Holds c intents I) s := by
  rw [nextInterval]
  cases c.rateLimits with
  | none => exact h
  | some limits =>
    rw [wp_bind]
    refine wp_mono (wp_quiet_readAttr hkept h rfl) (fun _ s' hs' => ?_) (fun _ _ hs' => hs')
    exact hs'

end

/-- The book of the tick is the book the executor last fetched, and `now` its last reading. -/
def AtTick (entries : Dict BookEntry) (now : ℚ) (s : Run n) : Prop :=
  (∀ symbol, latestQuote s.w.trace symbol = quoteOf entries symbol) ∧ s.w.reading = now

section

variable (hkept : KeptAround c intents I)

include hkept

theorem wp_noteInvalidQuote {entries : Dict BookEntry} {now : ℚ}
    (symbol : String) (h : Holds c intents I s ∧ AtTick entries now s) :
    wp (noteInvalidQuote entries symbol) (fun _ s' => Holds c intents I s' ∧ AtTick entries now s')
      (fun _ => Holds c intents I) s := by
  rw [noteInvalidQuote, wp_bind, wp_get, wp_ite]
  refine ⟨fun _ => ?_, fun _ => h⟩
  rw [wp_bind, wp_modify, liftRun, wp_zoom]
  refine wp_command h.1 (fun e w' hw _ => ?_) (fun e w' exc hw _ => ?_)
  · have hholds : Holds c intents I { s with w := w' } := h.1.heard hkept hw (.inl rfl)
    refine ⟨hholds, fun symbol' => ?_, ?_⟩
    · rw [hw.trace, latestQuote, hw.call]; exact h.2.1 symbol'
    · rw [hw.reading]; exact h.2.2
  · have hholds : Holds c intents I { s with w := w' } := h.1.heard hkept hw (.inl rfl)
    exact hholds

section

variable (h : Holds c intents I s)

include h

theorem wp_fetchBooks (symbols : List String) :
    wp (fetchBooks symbols)
      (fun entries s' => Holds c intents I s' ∧ AtTick entries s.w.reading s')
      (fun _ => Holds c intents I) s := by
  rw [fetchBooks, wp_bind, liftRun, wp_zoom]
  refine wp_request h (fun entries e w' hw hread => ?_) (fun e w' exc hw _ => ?_) (fun e w' hw => ?_)
  · have hbooks : e.reply = .books entries := by
      cases hreply : e.reply <;> rw [hreply] at hread <;> cases hread
      rfl
    have hstart : Holds c intents I { s with w := w' } ∧
        AtTick entries s.w.reading ({ s with w := w' } : Run n) := by
      refine ⟨h.heard hkept hw (.inr rfl), fun symbol => ?_, hw.reading⟩
      rw [hw.trace, latestQuote, hw.call, hbooks]
    rw [wp_bind]
    refine wp_mono (wp_forEach (fun symbol _ s' hs' => wp_noteInvalidQuote hkept symbol hs') hstart)
      (fun _ s' hs' => ?_) (fun _ _ hs' => hs')
    exact hs'
  all_goals exact h.heard hkept hw (.inr rfl)

theorem wp_run_ensureV2Schema :
    wp (liftRun ensureV2Schema) (fun _ s' => Holds c intents I s' ∧
      s'.w.journal.nextFillSeq = s.w.journal.nextFillSeq) (fun _ => Holds c intents I) s := by
  rw [liftRun, wp_zoom, ensureV2Schema, wp_bind, wp_get, wp_ite]
  refine ⟨fun _ => ⟨h, rfl⟩, fun _ => ?_⟩
  refine wp_appendRecord h (fun e w' hw => ?_) (fun e w' exc hw hr => ?_)
  · refine ⟨h.ambient hkept ?_, by rw [hw.journal]; rfl⟩
    have habs : ({ s with w := w' } : Run n).abs = { s.abs with
        trace := e :: s.abs.trace, journal := s.abs.journal.apply .schema } := by
      simp only [Run.abs, hw.trace, hw.journal, hw.reading]
    rw [habs]; exact .schema ⟨hw.call, hw.reply⟩
  · refine h.ambient hkept ?_
    have habs : ({ s with w := w' } : Run n).abs = { s.abs with trace := e :: s.abs.trace } := by
      simp only [Run.abs, hw.trace, hw.journal, hw.reading]
    rw [habs]; exact .failedAppend hw.call (by simp [hr])

theorem wp_run_recordSimulatedFill {draft : FillDraft} (hsim : draft.simulated = true)
    (hcum : draft.cumulativeExecutedQty = none) (hid : draft.clientOrderId = none) :
    wp (liftRun (recordFill draft)) (fun _ => Holds c intents I) (fun _ => Holds c intents I) s := by
  rw [recordFill, liftRun, wp_zoom, wp_bind, wp_get, wp_bind, wp_ofExcept]
  refine ⟨fun fill hfill => ?_, fun _ _ => h⟩
  have hfill := (Journal.newFill_eq_ok hfill).1
  rw [wp_bind]
  refine wp_mono (wp_zoom.mp (wp_run_ensureV2Schema hkept h)) (fun _ w₁ h₁ => ?_) (fun _ _ h => h)
  obtain ⟨h₁, hseq⟩ := h₁
  rw [wp_bind]
  refine wp_appendRecord h₁ (fun e w' hw => ?_) (fun e w' exc hw hr => ?_)
  · refine h₁.ambient hkept ?_
    have habs : ({ s with w := w' } : Run n).abs = { ({ s with w := w₁ } : Run n).abs with
        trace := e :: w₁.trace, journal := w₁.journal.apply (.fill fill) } := by
      simp only [Run.abs, hw.trace, hw.journal, hw.reading]
    rw [habs]
    refine .simulatedFill ⟨hw.call, hw.reply⟩ (by rw [hfill]; exact hsim) (by rw [hfill]; exact hcum) ?_
      (by rw [hfill]; exact hid)
    rw [hfill]; exact congrArg Nat.cast hseq.symm
  · refine h₁.ambient hkept ?_
    have habs : ({ s with w := w' } : Run n).abs
        = { ({ s with w := w₁ } : Run n).abs with trace := e :: w₁.trace } := by
      simp only [Run.abs, hw.trace, hw.journal, hw.reading]
    rw [habs]; exact .failedAppend hw.call (by simp [hr])

/-- **The immediate-taker model posts nothing**: all it does to a run is around its intents. -/
theorem wp_executeImmediateTaker (targets : List OrderIntent) :
    wp (executeImmediateTaker c targets) (fun _ => Holds c intents I) (fun _ => Holds c intents I) s := by
  rw [executeImmediateTaker, wp_bind]
  refine wp_mono (wp_pollShutdown hkept h) (fun _ s₁ h₁ => ?_) (fun _ _ h => h)
  rw [wp_ite, wp_ite]
  refine ⟨fun _ => h₁, fun _ => ⟨fun _ => h₁, fun _ => ?_⟩⟩
  rw [wp_bind]
  refine wp_mono (wp_fetchBooks hkept h₁ _) (fun entries s₂ h₂ => ?_) (fun _ _ h => h)
  rw [wp_bind]
  refine wp_mono (wp_run_clock hkept h₂.1) (fun now s₃ h₃ => ?_) (fun _ _ h => h)
  rw [wp_bind]
  refine wp_mono (wp_forEach (I := Holds c intents I) (fun intent _ s' hs' => ?_) h₃.1)
    (fun _ s₄ h₄ => ?_) (fun _ _ h => h)
  · cases hquote : quoteOf entries intent.symbol with
    | none => exact hs'
    | some touch =>
      rw [wp_bind]; exact wp_run_recordSimulatedFill hkept hs' rfl rfl rfl
  · rw [wp_bind]
    refine wp_mono (wp_forEach (I := Holds c intents I)
      (fun _ _ s' hs' => wp_quiet_command hkept hs' rfl) h₄) (fun _ s₅ h₅ => ?_) (fun _ _ h => h)
    exact h₅

end

end

end AmbientPrograms

/-! ## Turns and settling steps in the run -/

section IntentPrograms

variable {n : ℕ} {c : ExecConfig} {intents : Fin n → OrderIntent} {Good Weak : AbsRun n → Prop}
  {s : Run n} {i : Fin n} {α : Type}

theorem AbsRun.put_put (r : AbsRun n) (a a' : Abs) : (r.put i a).put i a' = r.put i a' := by
  simp [AbsRun.put]

theorem AbsRun.put_self (r : AbsRun n) : r.put i (r.view i) = r := by
  simp [AbsRun.put, AbsRun.view]

variable {r : AbsRun n}

theorem AbsRun.put_view_of_wired {a : Abs} (hwired : Wired c intents r)
    (hleg : a.closeLeg = (r.view i).closeLeg) : (r.put i a).view i = a := by
  refine AbsRun.put_view ?_ hleg
  rw [hwired.deps]; exact closeDependency_ne_self i

theorem AbsRun.put_wired {a : Abs} (hwired : Wired c intents r)
    (hindex : a.core.index = (r.cores i).index) (hintent : a.core.intent = (r.cores i).intent)
    (hfilters : a.core.filters = (r.cores i).filters) : Wired c intents (r.put i a) := by
  have hmoves : r.Moves (fun _ _ => True) i (r.put i a) := ⟨trivial, fun j hj => update_of_ne hj _ _, rfl⟩
  have hcore : (r.put i a).cores i = a.core := update_self ..
  exact hmoves.wired hwired (hcore ▸ hindex) (hcore ▸ hintent) (hcore ▸ hfilters)

variable {I : AbsRun n → Prop}

theorem AbsRun.keeps_reach {timed : Bool}
    (step : ∀ {r r' : AbsRun n}, r.Moves (Step c timed) i r' → Wired c intents r → I r → I r')
    {a : Abs} (hreach : Reach c timed (r.view i) a) (hr : Wired c intents r ∧ I r) :
    Wired c intents (r.put i a) ∧ I (r.put i a) := by
  induction hreach with
  | refl =>
    rw [AbsRun.put_self]; exact hr
  | @tail b a hb hstep ih =>
    obtain ⟨hwired, hI⟩ := ih
    have hview : (r.put i b).view i = b := AbsRun.put_view_of_wired hr.1 (Reach.closeLeg_eq hb)
    have hcore : (r.put i b).cores i = b.core := congrArg Abs.core hview
    rw [← AbsRun.put_put r b a]
    refine ⟨AbsRun.put_wired hwired ?_ ?_ ?_, step (AbsRun.put_moves hwired ?_ ?_) hwired hI⟩
    · rw [hcore]; exact hstep.index_eq
    · rw [hcore]; exact hstep.intent_eq
    · rw [hcore]; exact hstep.filters_eq
    · rw [hview]; exact hstep.closeLeg_eq
    · rw [hview]; exact hstep

theorem Holds.put_iff {l : Local} :
    Holds c intents I (s.put i l) ↔
      Wired c intents (s.abs.put i l.abs) ∧ I (s.abs.put i l.abs) := by
  rw [Holds, Run.put_abs]

section

variable (rule : RunRule c intents Good Weak)

include rule

theorem RunRule.wp_settle {x : IntentM α}
    {Q : α → Local → Prop} (hx : Spec c true x (s.view i) Q) (h : Holds c intents Weak s) :
    wp (atIntent i x) (fun _ => Holds c intents Weak) (fun _ => Holds c intents Weak) s := by
  rw [atIntent, wp_zoom]
  refine wp_mono hx (fun _ l hl => ?_) (fun _ l hl => ?_)
  · exact Holds.put_iff.mpr (AbsRun.keeps_reach rule.settle (r := s.abs) hl.1 h)
  · exact Holds.put_iff.mpr (AbsRun.keeps_reach rule.settle (r := s.abs) hl h)

theorem RunRule.wp_turn {x : IntentM Unit} (hx : TurnSpec c x (s.view i)) (h : Holds c intents Good s) :
    wp (atIntent i x) (fun _ s' => Holds c intents Good s' ∧
        Anchored (s.abs.view i) (s'.abs.view i)) (fun _ => Holds c intents Weak) s := by
  rw [atIntent, wp_zoom]
  have hdeps : s.abs.deps i ≠ some i := by
    rw [h.1.deps]; exact closeDependency_ne_self i
  have hmoved : ∀ {l : Local}, BrokenTurn c (s.view i).abs l.abs →
      Anchored (s.abs.view i) ((s.put i l).abs.view i) ∧ Wired c intents (s.put i l).abs ∧
      ∀ {R : Abs → Abs → Prop}, R (s.view i).abs l.abs → s.abs.Moves R i (s.put i l).abs := by
    intro l hl
    have hanchored : Anchored (s.abs.view i) l.abs := BrokenTurn.anchored hl
    have hmoves : ∀ {R : Abs → Abs → Prop}, R (s.view i).abs l.abs →
        s.abs.Moves R i (s.put i l).abs := by
      intro R hR
      rw [Run.put_abs]; exact AbsRun.put_moves h.1 hanchored.closeLeg hR
    refine ⟨?_, (hmoves hl).wired h.1 ?_ ?_ ?_, hmoves⟩
    · rw [Run.put_abs, AbsRun.put_view hdeps hanchored.closeLeg]; exact hanchored
    · simpa [Run.put_abs, AbsRun.put, AbsRun.view] using hanchored.index
    · simpa [Run.put_abs, AbsRun.put, AbsRun.view] using hanchored.intent
    · simpa [Run.put_abs, AbsRun.put, AbsRun.view] using hanchored.filters
  refine wp_mono hx (fun _ l hl => ?_) (fun _ l hl => ?_)
  · obtain ⟨hanchored, hwired, hmoves⟩ := hmoved (Turn.toBroken hl)
    exact ⟨⟨hwired, rule.turn (hmoves hl) h.1 h.2⟩, hanchored⟩
  · obtain ⟨-, hwired, hmoves⟩ := hmoved hl; exact ⟨hwired, rule.broken (hmoves hl) h.1 h.2⟩

theorem RunRule.wp_tickIntent {entries : Dict BookEntry}
    {now : ℚ} (i : Fin n) (h : Holds c intents Good s ∧ AtTick entries now s) :
    wp (tickIntent c entries now i) (fun _ s' => Holds c intents Good s' ∧ AtTick entries now s')
      (fun _ => Holds c intents Weak) s := by
  obtain ⟨hgood, hquotes, hreading⟩ := h
  rw [tickIntent, wp_bind, wp_get, wp_ite]
  refine ⟨fun _ => ⟨hgood, hquotes, hreading⟩, fun hdone => ?_⟩
  have hrunning : (s.rts i).terminalStatus = none := by
    simpa [IntentRuntime.done] using hdone
  cases htouch : quoteOf entries (s.rts i).intent.symbol with
  | none => exact ⟨hgood, hquotes, hreading⟩
  | some touch =>
    have hturn : TurnSpec c (pollOrPost c touch now) (s.view i) :=
      turn_pollOrPost hrunning ((hquotes _).trans htouch) hreading
    refine wp_mono (rule.wp_turn hturn hgood) (fun _ s' hs' => ?_) (fun _ _ hs' => hs')
    exact ⟨hs'.1, fun symbol => (hs'.2.quotes symbol).trans (hquotes symbol), hs'.2.reading.trans hreading⟩

section

variable (h : Holds c intents Weak s)

include h

variable {live : List (Fin n)}

theorem RunRule.wp_finalize {realSleep : Bool} :
    wp (finalize c realSleep live) (fun _ => Holds c intents Weak)
      (fun _ => Holds c intents Weak) s :=
  wp_forEach (fun _ _ _ hs => rule.wp_settle spec_finalizeOne hs) h

theorem RunRule.wp_shutdownFinalize :
    wp (shutdownFinalize c live) (fun _ => Holds c intents Weak)
      (fun _ => Holds c intents Weak) s := by
  rw [shutdownFinalize, wp_bind]
  refine wp_mono (wp_run_clock rule.ambientWeak h) (fun start s₁ h₁ => ?_) (fun _ _ h => h)
  exact wp_forEach (fun _ _ _ hs => rule.wp_settle spec_shutdownIntent hs) h₁.1

theorem RunRule.wp_cleanupOnAbort :
    wp (cleanupOnAbort c) (fun _ => Holds c intents Weak) (fun _ => Holds c intents Weak) s :=
  wp_forEach (fun _ _ _ hs => rule.wp_settle spec_abortIntent hs) h

end

theorem RunRule.wp_blockStep (i : Fin n) (h : Holds c intents Weak s) :
    wp (blockStep i) (fun _ => Holds c intents Weak) (fun _ => Holds c intents Weak) s := by
  rw [blockStep, wp_bind, wp_get, wp_ite]
  exact ⟨fun hb => rule.wp_settle (spec_blockIntent hb.2) h, fun _ => h⟩

variable {symbols : List String}

theorem RunRule.wp_fetchAtTick {bookFailures : ℤ} (h : Holds c intents Good s) :
    wp (fetchAtTick c symbols bookFailures) (fun books s' => Holds c intents Good s' ∧
        ∀ entries, books = some entries → AtTick entries s.w.reading s')
      (fun _ => Holds c intents Good) s := by
  rw [fetchAtTick, wp_tryCatch, wp_map]
  refine wp_mono (wp_fetchBooks rule.ambient h symbols) (fun entries s₁ h₁ => ?_)
    (fun exc s₁ h₁ => ?_)
  · refine ⟨h₁.1, fun entries' heq => ?_⟩
    rw [← Option.some.inj heq]; exact h₁.2
  · rw [wp_ite]
    refine ⟨fun _ => ?_, fun _ => h₁⟩
    rw [wp_bind]
    refine wp_mono (wp_quiet_command rule.ambient h₁ rfl) (fun _ s₂ h₂ => ?_) (fun _ _ h => h)
    rw [wp_ite]; exact ⟨fun _ => h₂, fun _ => ⟨h₂, nofun⟩⟩

/-- **The loop**, by induction on the ticks that are left. -/
theorem RunRule.wp_tickLoop {live order : List (Fin n)} {start windowS : ℚ} (ticks : ℕ) :
    ∀ {bookFailures : ℤ} {interval : ℚ} {s : Run n}, Holds c intents Good s →
      wp (tickLoop c live order symbols start windowS ticks bookFailures interval)
        (fun _ => Holds c intents Good) (fun _ => Holds c intents Weak) s := by
  have hweaken : ∀ s : Run n, Holds c intents Good s → Holds c intents Weak s :=
    fun _ hs => ⟨hs.1, rule.weaken hs.1 hs.2⟩
  induction ticks with
  | zero => intro bookFailures interval s h; exact h
  | succ ticks ih =>
    intro bookFailures interval s h
    rw [tickLoop, wp_bind, wp_get, wp_ite]
    refine ⟨fun _ => h, fun _ => ?_⟩
    rw [wp_bind]
    refine wp_mono (wp_pollShutdown rule.ambient h) (fun _ s₁ h₁ => ?_) (fun _ _ h => hweaken _ h)
    rw [wp_ite]
    refine ⟨fun _ => ?_, fun _ => ?_⟩
    · -- a shutdown settles what it can and interrupts the run
      rw [wp_bind]
      refine wp_mono (rule.wp_shutdownFinalize (hweaken _ h₁)) (fun _ s₂ h₂ => ?_) (fun _ _ h => h)
      rw [wp_bind]
      exact wp_mono (wp_quiet_command rule.ambientWeak h₂ rfl) (fun _ _ h => h) (fun _ _ h => h)
    rw [wp_bind]
    refine wp_mono (wp_run_clock rule.ambient h₁) (fun now s₂ h₂ => ?_) (fun _ _ h => hweaken _ h)
    obtain ⟨h₂, hnow⟩ := h₂
    rw [wp_ite]
    refine ⟨fun _ => h₂, fun _ => ?_⟩
    rw [wp_bind]
    refine wp_mono (rule.wp_fetchAtTick h₂) (fun books s₃ h₃ => ?_) (fun _ _ h => hweaken _ h)
    obtain ⟨h₃, hbooks⟩ := h₃
    cases books with
    | none =>
      rw [wp_bind]
      exact wp_mono (wp_quiet_command rule.ambient h₃ rfl) (fun _ _ h => ih h)
        (fun _ _ h => hweaken _ h)
    | some entries =>
      have hat : AtTick entries now s₃ := hnow ▸ hbooks entries rfl
      rw [wp_bind]
      refine wp_mono (wp_forEach (fun i _ s' hs' => rule.wp_tickIntent i hs') ⟨h₃, hat⟩)
        (fun _ s₄ h₄ => ?_) (fun _ _ h => h)
      rw [wp_bind, wp_get, wp_ite]
      refine ⟨fun _ => h₄.1, fun _ => ?_⟩
      rw [wp_bind]
      refine wp_mono (wp_nextInterval rule.ambient h₄.1 interval) (fun next s₅ h₅ => ?_)
        (fun _ _ h => hweaken _ h)
      rw [wp_bind]
      exact wp_mono (wp_quiet_command rule.ambient h₅ rfl) (fun _ _ h => ih h)
        (fun _ _ h => hweaken _ h)

theorem RunRule.wp_runLoop (h : Holds c intents Good s) :
    wp (runLoop c) (fun _ => Holds c intents Weak) (fun _ => Holds c intents Weak) s := by
  have hweaken : ∀ s : Run n, Holds c intents Good s → Holds c intents Weak s :=
    fun _ hs => ⟨hs.1, rule.weaken hs.1 hs.2⟩
  rw [runLoop, wp_bind, wp_get, wp_ite]
  refine ⟨fun _ => hweaken _ h, fun _ => ?_⟩
  rw [wp_bind]
  refine wp_mono (wp_run_clock rule.ambient h) (fun start s₁ h₁ => ?_) (fun _ _ h => hweaken _ h)
  rw [wp_bind, wp_modify, wp_bind]
  -- the hard stop of a runtime is not part of what the machines see
  refine wp_mono (rule.wp_tickLoop _ (s := { s₁ with rts := _ }) h₁.1) (fun _ s₂ h₂ => ?_)
    (fun _ _ h => h)
  rw [wp_bind]
  refine wp_mono (rule.wp_finalize (hweaken _ h₂)) (fun _ s₃ h₃ => ?_) (fun _ _ h => h)
  exact wp_forEach (fun i _ _ hs => rule.wp_blockStep i hs) h₃

/-- **What every run keeps**: however `execute_intents` ends, the run satisfies the weaker invariant
of the rule. -/
theorem RunRule.executeIntents_keeps (h : Holds c intents Good s) (targets : List OrderIntent) :
    Holds c intents Weak (executeIntents c targets s).2 := by
  have hweak : Holds c intents Weak s := ⟨h.1, rule.weaken h.1 h.2⟩
  refine wp_final (P := Holds c intents Weak) ?_
  rw [executeIntents, wp_ite]
  refine ⟨fun _ => wp_executeImmediateTaker rule.ambientWeak hweak targets, fun _ => ?_⟩
  rw [wp_bind, wp_tryCatch]
  refine wp_mono (rule.wp_runLoop h) (fun _ s₁ h₁ => ?_) (fun exc s₁ h₁ => ?_)
  · rw [wp_bind]
    refine wp_mono (wp_forEach (I := Holds c intents Weak)
      (fun _ _ s' hs' => wp_quiet_command rule.ambientWeak hs' rfl) h₁) (fun _ s₂ h₂ => ?_)
      (fun _ _ h => h)
    exact h₂
  · rw [wp_ite]
    refine ⟨fun _ => h₁, fun _ => ?_⟩
    rw [wp_bind]; exact wp_mono (rule.wp_cleanupOnAbort h₁) (fun _ _ h => h) (fun _ _ h => h)

end

end IntentPrograms

/-! ## Runs from the start -/

theorem initRun_wired (c : ExecConfig) (intents : List OrderIntent) (w : World) :
    Wired c intents.get (initRun c intents w).abs :=
  ⟨fun _ => rfl, fun _ => rfl, fun _ => rfl, rfl⟩

/-- A whole run of `execute_intents` on a world. -/
def executeRun (c : ExecConfig) (intents : List OrderIntent) (w : World) :
    Except Exc (List ExecutionOutcome) × Run intents.length :=
  executeIntents c intents (initRun c intents w)

/-- **What every run from the start keeps.** -/
theorem RunRule.executeRun_keeps {c : ExecConfig} {intents : List OrderIntent} {w : World}
    {Good Weak : AbsRun intents.length → Prop} (rule : RunRule c intents.get Good Weak)
    (h : Good (initRun c intents w).abs) : Holds c intents.get Weak (executeRun c intents w).2 := by
  exact rule.executeIntents_keeps ⟨initRun_wired c intents w, h⟩ intents

section Invariants

variable {n : ℕ} {c : ExecConfig} {intents : Fin n → OrderIntent} {I : AbsRun n → Prop}

theorem RunRule.of_steps
    (ambient : ∀ {r r'}, Ambient r r' → Wired c intents r → I r → I r')
    (step : ∀ {r r'} {i}, r.Moves (Step c true) i r' → Wired c intents r → I r → I r')
    (send : ∀ {r r'} {i} {e}, r.Moves (Send c e) i r' → Wired c intents r → I r →
      I r') : RunRule c intents I I := by
  have hsteps : ∀ {r : AbsRun n} {i : Fin n} {a : Abs}, Reach c false (r.view i) a →
      Wired c intents r ∧ I r → Wired c intents (r.put i a) ∧ I (r.put i a) :=
    fun hreach hr => AbsRun.keeps_reach (fun h => step (h.mono Step.allow)) hreach hr
  have hbroken : ∀ {r r' : AbsRun n} {i : Fin n}, r.Moves (BrokenTurn c) i r' →
      Wired c intents r → I r → I r' := by
    intro r r' i hmoves hwired hI
    rw [hmoves.eq_put]
    rcases hmoves.own with hreach | ⟨e, a₁, a₂, hreach₁, hsend, hreach₂⟩
    · exact (hsteps hreach ⟨hwired, hI⟩).2
    -- the order is posted from the run with the intent put at `a₁`
    obtain ⟨hwired₁, hI₁⟩ := hsteps hreach₁ ⟨hwired, hI⟩
    have hview₁ : (r.put i a₁).view i = a₁ := AbsRun.put_view_of_wired hwired (Reach.anchored hreach₁).closeLeg
    have hview₂ : ((r.put i a₁).put i a₂).view i = a₂ :=
      AbsRun.put_view_of_wired hwired₁ (by rw [hview₁]; exact hsend.anchored.closeLeg)
    have hcore₁ : (r.put i a₁).cores i = a₁.core := congrArg Abs.core hview₁
    have hI₂ : I ((r.put i a₁).put i a₂) := by
      refine send (AbsRun.put_moves (R := Send c e) hwired₁ ?_ ?_) hwired₁ hI₁
      · rw [hview₁]; exact hsend.anchored.closeLeg
      · rw [hview₁]; exact hsend
    have hwired₂ : Wired c intents ((r.put i a₁).put i a₂) := by
      refine AbsRun.put_wired hwired₁ ?_ ?_ ?_ <;> rw [hcore₁]
      · exact hsend.anchored.index
      · exact hsend.anchored.intent
      · exact hsend.anchored.filters
    have hreach : Reach c false (((r.put i a₁).put i a₂).view i) (r'.view i) := by
      rw [hview₂]; exact hreach₂
    have hlast := (hsteps hreach ⟨hwired₂, hI₂⟩).2; rwa [AbsRun.put_put, AbsRun.put_put] at hlast
  exact ⟨fun _ h => h, ambient, fun h => hbroken (h.mono Turn.toBroken), hbroken, ambient, step⟩

end Invariants

end CryptoPilot.Live
