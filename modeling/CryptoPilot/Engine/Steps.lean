/- # Steps — the steps of a window.

A clock point is a decision or a drift check with its submit bar; it runs at most one order for each
symbol (`Orders`). Between two points the track advances, a settlement is booked or nothing happens
to the books (`WindowStep`). -/
import CryptoPilot.Engine.OrderRuns

namespace CryptoPilot.Engine

open List Function Except

open CryptoPilot.Live (Exc)
open CryptoPilot.Lib (bind_eq_ok foldlM_invariant)

/-! ## Points and steps -/

/-- When the orders of a point are decided, when their information is available, and their submit
bar. -/
structure Clock where
  decision : ℤ
  signal : ℤ
  submit : ℤ

def Clock.OfDecision (w : Window) (p : Clock) (d : Decision) : Prop :=
  p.decision = d.label ∧ p.signal = d.signal ∧ w.firstFrom d.signal = some p.submit

def Clock.OfCheck (w : Window) (p : Clock) (check : ℤ) : Prop :=
  p.decision = check ∧ p.signal = check ∧ check ∈ w.grid ∧ w.firstFrom (check + 1) = some p.submit

def Clock.Of (w : Window) (p : Clock) : Prop :=
  (∃ d ∈ w.decisions, p.OfDecision w d) ∨ ∃ check, p.OfCheck w check

theorem Clock.Of.submit_mem {w : Window} {p : Clock} (h : p.Of w) : p.submit ∈ w.grid := by
  rcases h with ⟨d, -, -, -, hd⟩ | ⟨check, -, -, -, hc⟩
  · exact (Window.firstFrom_mem hd).1
  · exact (Window.firstFrom_mem hc).1

/-- A symbol a point may order: it is held, or a decision of the window targets it. -/
def Wants (w : Window) (a : Acc) (s : String) : Prop :=
  a.units s ≠ 0 ∨ ∃ d ∈ w.decisions, ∃ x, d.target s = some x ∧ x ≠ 0

/-- The orders of a point, one symbol after another. -/
inductive Orders (cfg : ReplayConfig) (w : Window) (p : Clock) : List String → Acc → Acc → Prop
  | done {symbols : List String} (a : Acc) : Orders cfg w p symbols a a
  | quiet {symbols : List String} {a b c : Acc} (h : SameBooks a b) (rest : Orders cfg w p symbols b c) :
      Orders cfg w p symbols a c
  | order {o : Order} {symbols : List String} {a b c : Acc} (hdecision : o.decision = p.decision)
      (hsignal : o.signal = p.signal) (hsubmit : o.submit = p.submit) (hroster : o.symbol ∈ w.symbols)
      (hlast : ∀ t ∈ a.lastTrade o.symbol, p.submit < t) (hwants : Wants w a o.symbol)
      (run : OrderRun cfg w o p.submit a b) (rest : Orders cfg w p symbols b c) : Orders cfg w p
        (o.symbol :: symbols) a c
  | skip {s : String} {symbols : List String} {a c : Acc} (rest : Orders cfg w p symbols a c) :
      Orders cfg w p (s :: symbols) a c
  | relabel {n : ℕ} {symbols : List String} {a c : Acc}
      (hreason : ∀ f ∈ a.fills.drop n, f.reason ≠ .delistSettlement)
      (rest : Orders cfg w p symbols (relabelTrims n a) c) : Orders cfg w p symbols a c

structure Delivers (w : Window) (event : SettlementEvent) (bar : ℤ) (a : Acc) : Prop where
  pending : event ∈ a.pending
  roster : event.symbol ∈ w.symbols
  due_le : event.due ≤ w.last
  kept : a.ledgerStart.getD w.first ≤ event.due
  bar_eq : bar = (w.firstFrom event.due).getD w.last

theorem Delivers.due_le_bar {w : Window} {event : SettlementEvent} {bar : ℤ} {a : Acc}
    (h : Delivers w event bar a) :
    event.due ≤ bar := by
  rw [h.bar_eq]
  cases hfirst : w.firstFrom event.due with
  | none => exact h.due_le
  | some c => exact (Window.firstFrom_mem hfirst).2

structure Settles (cfg : ReplayConfig) (w : Window) (event : SettlementEvent) (bar : ℤ) (price : ℚ) (a : Acc) : Prop
    extends Delivers w event bar a where
  held : a.units event.symbol ≠ 0
  price_eq : settlementFillPrice event (a.units event.symbol) cfg.spec = .ok price
  time : ∃ t, a.lastTime = some t ∧ bar ≤ t

def anchorOf (w : Window) (a : Acc) : Option ℤ :=
    a.trimAnchor.orElse (fun _ => w.decisions.head?.map Decision.label)

inductive WindowStep (cfg : ReplayConfig) (w : Window) : Acc → Acc → Prop
  | quiet {a b : Acc} (h : SameBooks a b) : WindowStep cfg w a b
  | queue {a : Acc} {pending booked : List SettlementEvent} (h : ∀ e ∈ pending, e ∈ a.pending) :
      WindowStep cfg w a { a with pending := pending, booked := booked }
  | anchored {a : Acc} {anchor : ℤ} (h : anchorOf w a = some anchor) :
      WindowStep cfg w a { a with trimAnchor := some anchor }
  | override {a : Acc} {event : SettlementEvent} {bar : ℤ} {price units : ℚ} (h : Delivers w event bar a)
      (hprice : settlementFillPrice event units cfg.spec = .ok price) :
      WindowStep cfg w a (a.override bar event.symbol price)
  | advance {a b : Acc} (target : ℤ) (onGrid : Bool) (h : advance w w.mark target onGrid false a = .ok b) :
      WindowStep cfg w a b
  | deliver {a b : Acc} (bar : ℤ) (hbar : ∀ t ∈ a.lastTime, t < bar)
      (h : Engine.advance w (a.patchedMarks w) bar true true a = .ok b) : WindowStep cfg w a b
  | settle {a b : Acc} {event : SettlementEvent} {bar : ℤ} {price : ℚ} (h : Settles cfg w event bar price a)
      (hbook : bookFill bar event.symbol (-(a.units event.symbol)) price event.feeBps .delistSettlement (some price)
        (equityAt w a) a = .ok b) : WindowStep cfg w a b

inductive WindowRun (cfg : ReplayConfig) (w : Window) : List Clock → Acc → Acc → Prop
  | done (a : Acc) : WindowRun cfg w [] a a
  | step {ps : List Clock} {a b c : Acc} (h : WindowStep cfg w a b) (rest : WindowRun cfg w ps b c) :
      WindowRun cfg w ps a c
  | point {p : Clock} {ps : List Clock} {symbols : List String} {a b c : Acc} (hp : p.Of w)
      (htime : a.lastTime = some p.decision) (hnodup : symbols.Nodup) (h : Orders cfg w p symbols a b)
      (rest : WindowRun cfg w ps b c) : WindowRun cfg w (p :: ps) a c

section Runs

variable {cfg : ReplayConfig} {w : Window} {ps qs : List Clock} {a b c : Acc}

theorem WindowRun.trans (hab : WindowRun cfg w ps a b) (hbc : WindowRun cfg w qs b c) :
    WindowRun cfg w (ps ++ qs) a c := by
  induction hab with
  | done a => exact hbc
  | step h _ ih => exact .step h (ih hbc)
  | point hp htime hnodup h _ ih => exact .point hp htime hnodup h (ih hbc)

theorem WindowRun.one (h : WindowStep cfg w a b) : WindowRun cfg w [] a b := .step h (.done b)

theorem WindowRun.of_quiet (h : SameBooks a b) : WindowRun cfg w [] a b := .one (.quiet h)

structure Executes (cfg : ReplayConfig) (w : Window) (p : Clock) (o : Order) (bar : ℤ) (price : ℚ) (a : Acc) : Prop
    extends Fillable cfg w o bar price a where
  point : p.Of w
  decision : o.decision = p.decision
  signal : o.signal = p.signal
  submit : o.submit = p.submit
  roster : o.symbol ∈ w.symbols
  last : ∀ t ∈ a.lastTrade o.symbol, o.submit < t
  time : a.lastTime = some o.decision

/-- **The invariant rule of a window.**  `I` survives every step and every fill of an order of a
point with `Q`. -/
structure KeepsOn (cfg : ReplayConfig) (w : Window) (Q : Clock → Prop) (I : Acc → Prop) : Prop where
  quiet : ∀ {a b}, SameBooks a b → I a → I b
  queue : ∀ {a : Acc} {pending booked}, (∀ e ∈ pending, e ∈ a.pending) → I a →
    I { a with pending := pending, booked := booked }
  anchored : ∀ {a anchor}, anchorOf w a = some anchor → I a → I { a with trimAnchor := some anchor }
  override : ∀ {a event bar price}, Delivers w event bar a → I a → I (a.override bar event.symbol price)
  advance : ∀ {a b mark target onGrid preFill}, Engine.advance w mark target onGrid preFill a = .ok b → I a → I b
  settle : ∀ {a b event bar price}, Settles cfg w event bar price a →
    bookFill bar event.symbol (-(a.units event.symbol)) price event.feeBps .delistSettlement (some price)
      (equityAt w a) a = .ok b → I a → I b
  trade : ∀ {a₀ a b} {p : Clock} {o : Order} {bar : ℤ} {quantity price feeBps : ℚ} {reason : FillReason}, I a₀ →
    Q p → Wants w a₀ o.symbol → Executes cfg w p o bar price a → reason ≠ .delistSettlement →
    bookFill bar o.symbol quantity price feeBps reason (w.mark bar o.symbol) o.equity a = .ok b → I a → I b
  relabel : ∀ {a n}, (∀ f ∈ a.fills.drop n, f.reason ≠ .delistSettlement) → I a → I (relabelTrims n a)

theorem OrderRun.frame {o : Order} {floor : ℤ} (h : OrderRun cfg w o floor a b) :
    b.lastTrade = a.lastTrade ∧ b.lastTime = a.lastTime := by
  induction h with
  | quiet h => exact ⟨h.lastTrade, h.lastTime⟩
  | fill hquiet _ _ _ hbook _ ih =>
    obtain ⟨-, f, -, hb⟩ := bookFill_eq_ok hbook
    rw [ih.1, ih.2, hb]; exact ⟨hquiet.lastTrade, hquiet.lastTime⟩

theorem Orders.lastTime {p : Clock} {symbols : List String} (h : Orders cfg w p symbols a b) :
    b.lastTime = a.lastTime := by
  induction h with
  | done a => rfl
  | quiet h _ ih => exact ih.trans h.lastTime
  | order _ _ _ _ _ _ run _ ih => exact ih.trans run.frame.2
  | skip _ ih | relabel _ _ ih => exact ih

variable {Q : Clock → Prop} {I : Acc → Prop}

theorem KeepsOn.of_book (quiet : ∀ {a b}, SameBooks a b → I a → I b)
    (queue : ∀ {a : Acc} {pending booked}, (∀ e ∈ pending, e ∈ a.pending) → I a →
      I { a with pending := pending, booked := booked })
    (anchored : ∀ {a anchor}, anchorOf w a = some anchor → I a → I { a with trimAnchor := some anchor })
    (override : ∀ {a event bar price}, Delivers w event bar a → I a → I (a.override bar event.symbol price))
    (advance : ∀ {a b mark target onGrid preFill}, Engine.advance w mark target onGrid preFill a =
      .ok b → I a → I b)
    (book : ∀ {a b : Acc} {f : Fill}, f.symbol ∈ w.symbols →
      b = { a with
        lastPrices := b.lastPrices, exitClock := b.exitClock, cash := a.cash + f.flow
        units := Function.update a.units f.symbol f.postUnits, fills := a.fills ++ [f]
        mirrorPending := a.mirrorPending ++ [f] } → I a → I b)
    (relabel : ∀ {a n}, (∀ f ∈ a.fills.drop n, f.reason ≠ .delistSettlement) → I a → I (relabelTrims n a)) :
    KeepsOn cfg w Q I where
  quiet := quiet
  queue := queue
  anchored := anchored
  override := override
  advance := advance
  settle := by
    intro a b event bar price hs h ha
    obtain ⟨-, f, hf, hb⟩ := bookFill_eq_ok h
    have hsymbol : f.symbol = event.symbol := by rw [hf]
    exact book (by rw [hsymbol]; exact hs.roster) (by rw [hsymbol]; exact hb) ha
  trade := by
    intro a₀ a b p o bar quantity price feeBps reason _ _ _ hx _ h ha
    obtain ⟨-, f, hf, hb⟩ := bookFill_eq_ok h
    have hsymbol : f.symbol = o.symbol := by rw [hf]
    exact book (by rw [hsymbol]; exact hx.roster) (by rw [hsymbol]; exact hb) ha
  relabel := relabel

section

variable (hI : KeepsOn cfg w Q I)

include hI

theorem KeepsOn.orderRun {p : Clock} {o : Order} {floor : ℤ} (hQ : Q p) (hp : p.Of w)
    (hdecision : o.decision = p.decision) (hsignal : o.signal = p.signal) (hsubmit : o.submit = p.submit)
    (hroster : o.symbol ∈ w.symbols) (hlast : ∀ t ∈ a.lastTrade o.symbol, p.submit < t)
    (htime : a.lastTime = some p.decision) {a₀ : Acc} (ha₀ : I a₀) (hwants : Wants w a₀ o.symbol)
    (h : OrderRun cfg w o floor a b) (ha : I a) : I b := by
  induction h with
  | quiet h => exact hI.quiet h ha
  | fill hquiet _ hfill hreason hbook _ ih =>
    have hlast' := hlast
    rw [← hquiet.lastTrade, ← hsubmit] at hlast'
    have htime' := htime
    rw [← hquiet.lastTime, ← hdecision] at htime'
    obtain ⟨-, f, -, hb⟩ := bookFill_eq_ok hbook
    apply ih
    · rw [hb, hquiet.lastTrade]; exact hlast
    · rw [hb, hquiet.lastTime]; exact htime
    · exact hI.trade ha₀ hQ hwants ⟨hfill, hp, hdecision, hsignal, hsubmit, hroster, hlast', htime'⟩ hreason hbook
        (hI.quiet hquiet ha)

theorem KeepsOn.orders {p : Clock} {symbols : List String} (hQ : Q p) (hp : p.Of w)
    (htime : a.lastTime = some p.decision) (h : Orders cfg w p symbols a b) (ha : I a) : I b := by
  induction h with
  | done a => exact ha
  | quiet h _ ih => exact ih (h.lastTime.trans htime) (hI.quiet h ha)
  | order hdecision hsignal hsubmit hroster hlast hwants run _ ih =>
    exact ih (run.frame.2.trans htime)
      (hI.orderRun hQ hp hdecision hsignal hsubmit hroster hlast htime ha hwants run ha)
  | skip _ ih => exact ih htime ha
  | relabel hreason _ ih => exact ih htime (hI.relabel hreason ha)

theorem KeepsOn.step (h : WindowStep cfg w a b) (ha : I a) : I b := by
  cases h with
  | quiet h => exact hI.quiet h ha
  | queue h => exact hI.queue h ha
  | anchored h => exact hI.anchored h ha
  | override h _ => exact hI.override h ha
  | advance target onGrid h | deliver bar _ h => exact hI.advance h ha
  | settle h hbook => exact hI.settle h hbook ha

theorem KeepsOn.run (h : WindowRun cfg w ps a b) (hQ : ∀ p ∈ ps, Q p) (ha : I a) : I b := by
  induction h with
  | done a => exact ha
  | step h _ ih => exact ih hQ (hI.step h ha)
  | point hp htime _ h _ ih =>
    exact ih (fun q hq => hQ q (mem_cons_of_mem _ hq)) (hI.orders (hQ _ mem_cons_self) hp htime h ha)

end

def Keeps (cfg : ReplayConfig) (w : Window) (I : Acc → Prop) : Prop := KeepsOn cfg w (fun _ => True) I

theorem Keeps.run (hI : Keeps cfg w I) (h : WindowRun cfg w ps a b) (ha : I a) : I b :=
  KeepsOn.run hI h (fun _ _ => trivial) ha

end Runs

/-! ## Orders of a point -/

section Points

variable {cfg : ReplayConfig} {w : Window} {a b c : Acc} {p : Clock}

section

variable {o : Order} {floor : ℤ} (h : OrderRun cfg w o floor a b)

include h

theorem OrderRun.booked :
    ∃ fs, b.fills = a.fills ++ fs ∧ b.mirrorPending = a.mirrorPending ++ fs ∧
      ∀ f ∈ fs, f.symbol = o.symbol ∧ f.reason ≠ .delistSettlement := by
  induction h with
  | quiet h => exact ⟨[], by simp [h.fills], by simp [h.mirrorPending], by simp⟩
  | fill hquiet _ _ hreason hbook _ ih =>
    obtain ⟨fs, hfills, hpending, hall⟩ := ih
    obtain ⟨-, f, hf, hb⟩ := bookFill_eq_ok hbook
    refine ⟨f :: fs, ?_, ?_, ?_⟩
    · rw [hfills, hb, hquiet.fills]; simp
    · rw [hpending, hb, hquiet.mirrorPending]; simp
    · intro g hg
      rcases mem_cons.mp hg with rfl | hg
      · rw [hf]; exact ⟨rfl, hreason⟩
      · exact hall g hg

theorem OrderRun.units_of_ne {u : String} (hu : u ≠ o.symbol) : b.units u = a.units u := by
  induction h with
  | quiet h => rw [h.units]
  | fill hquiet _ _ _ hbook _ ih =>
    obtain ⟨-, f, -, hb⟩ := bookFill_eq_ok hbook
    rw [ih, hb]
    simp only
    rw [update_of_ne hu, hquiet.units]

end

variable {i : Intent} {s : String} {step : Acc → String → Except Exc Acc} {weight : String → ℚ}

theorem desiredUnits_flat {price : ℚ} (h : a.units s = 0) : desiredUnits a i s 0 price = 0 := by
  unfold desiredUnits
  simp only [zero_mul, zero_div]
  split
  · split
    · rfl
    · unfold lifecycleDesiredUnits; simp [h]
  · rfl

theorem seedPrice_sameBooks {price : ℚ} : SameBooks a (seedPrice s price a) := by
  unfold seedPrice
  split
  · exact ⟨rfl, fun h => h⟩
  · exact SameBooks.refl a

section

variable (hdecision : p.decision = i.decision) (hsignal : p.signal = i.signal)
  (hsubmit : i.submit = some p.submit) (hgrid : p.submit ∈ w.grid)

include hdecision hsignal hsubmit hgrid

theorem singleFill_orders {weight : ℚ} (h : singleFill cfg w i s weight a = .ok b) :
    SameBooks a b ∨ ∃ o : Order, o.symbol = s ∧ o.decision = p.decision ∧ o.signal = p.signal ∧
      o.submit = p.submit ∧ (∀ t ∈ a.lastTrade s, p.submit < t) ∧ (a.units s ≠ 0 ∨ weight ≠ 0) ∧
      OrderRun cfg w o p.submit a b := by
  have quiet : ∀ {c d : Acc}, SameBooks a c → (ok c : Except Exc Acc) = .ok d → SameBooks a d :=
    fun hc hd => ok.inj hd ▸ hc
  unfold singleFill at h
  split at h
  · exact .inl (quiet (SameBooks.refl a) h)
  · next hcancelled =>
    split at h
    · exact .inl (quiet (SameBooks.refl a) h)
    · next price hprice =>
      have hseed : SameBooks a (seedPrice s price a) := seedPrice_sameBooks
      simp only at h
      split at h
      · exact .inl (quiet hseed h)
      · next hnet =>
        split at h
        · exact .inl (quiet hseed h)
        · next submit hsome =>
          rw [hsubmit, Option.some.injEq] at hsome
          subst hsome
          have hlast : ∀ t ∈ a.lastTrade s, p.submit < t := by
            intro t ht
            rw [hsubmit] at hcancelled
            unfold deliverySubmitCancelled at hcancelled
            rw [Option.mem_def.mp ht] at hcancelled; simpa using hcancelled
          have hlast' : ∀ t ∈ (seedPrice s price a).lastTrade s, p.submit < t := by
            rw [hseed.lastTrade]; exact hlast
          have hwants : a.units s ≠ 0 ∨ weight ≠ 0 := by
            by_contra hflat
            rw [not_or, not_not, not_not] at hflat
            apply hnet
            have hzero : (seedPrice s price a).units s = 0 := by rw [hseed.units, hflat.1]
            rw [hflat.2, desiredUnits_flat hzero, hzero]; norm_num
          exact .inr ⟨_, rfl, hdecision.symm, hsignal.symm, rfl, hlast, hwants,
            OrderRun.of_quiet hseed (fillOrder_run hgrid hlast' h)⟩

theorem singleFill_units_of_ne {s u : String} {weight : ℚ} (hu : u ≠ s)
    (h : singleFill cfg w i s weight a = .ok b) : b.units u = a.units u := by
  rcases singleFill_orders hdecision hsignal hsubmit hgrid h with hq | ⟨o, rfl, -, -, -, -, -, hrun⟩
  · rw [hq.units]
  · exact hrun.units_of_ne hu

end

theorem singleFill_quiet {weight : ℚ} (hsubmit : i.submit = none)
    (h : singleFill cfg w i s weight a = .ok b) : SameBooks a b := by
  unfold singleFill at h
  split at h
  · exact ok.inj h ▸ SameBooks.refl a
  · split at h
    · exact ok.inj h ▸ SameBooks.refl a
    · next price hprice =>
      have hseed : SameBooks a (seedPrice s price a) := seedPrice_sameBooks
      simp only [hsubmit] at h
      split at h
      all_goals exact ok.inj h ▸ hseed

theorem foldlM_orders (cfg : ReplayConfig) {a₀ : Acc} :
    ∀ {symbols : List String} {a b : Acc}, symbols.Nodup → (∀ s ∈ symbols, a.units s = a₀.units s) →
      (∀ s ∈ symbols, ∀ x y, step x s = .ok y → ∀ u, u ≠ s → y.units u = x.units u) →
      (∀ s ∈ symbols, ∀ x y, x.units s = a₀.units s → step x s = .ok y → ∀ {rest c}, Orders cfg w p rest y c →
        Orders cfg w p (s :: rest) x c) →
      symbols.foldlM step a = .ok b → Orders cfg w p symbols a b
  | [], a, b, _, _, _, _, h => by
    exact ok.inj h ▸ .done a
  | s :: symbols, a, b, hnodup, hunits, hframe, hstep, h => by
    rw [foldlM_cons, bind_eq_ok] at h
    obtain ⟨c, hc, h⟩ := h
    obtain ⟨hs, hrest⟩ := nodup_cons.mp hnodup
    -- the symbols still to come keep the units the point started from
    have hunits' : ∀ u ∈ symbols, c.units u = a₀.units u := by
      intro u hu
      rw [hframe s mem_cons_self a c hc u (fun h => hs (h ▸ hu))]
      exact hunits u (mem_cons_of_mem s hu)
    exact hstep s mem_cons_self a c (hunits s mem_cons_self) hc
      (foldlM_orders cfg hrest hunits' (fun s hs => hframe s (mem_cons_of_mem _ hs))
        (fun s hs => hstep s (mem_cons_of_mem _ hs)) h)

theorem foldlM_sameBooks {symbols : List String}
    (hstep : ∀ s a b, step a s = .ok b → SameBooks a b) (h : symbols.foldlM step a = .ok b) : SameBooks a b :=
  foldlM_invariant (I := SameBooks a) (fun s _ c d hd hc => hc.trans (hstep s c d hd)) h (SameBooks.refl a)

section

variable (hs : s ∈ w.symbols) (hdecision : p.decision = i.decision) (hsignal : p.signal = i.signal)
  (hsubmit : i.submit = some p.submit)

include hs hdecision hsignal hsubmit

theorem singleFill_cons {weight : ℚ} (hgrid : p.submit ∈ w.grid)
    (hwants : a.units s ≠ 0 ∨ weight ≠ 0 → Wants w a s) (h : singleFill cfg w i s weight a = .ok b)
    {rest : List String} (hrest : Orders cfg w p rest b c) : Orders cfg w p (s :: rest) a c := by
  rcases singleFill_orders hdecision hsignal hsubmit hgrid h with hq | ⟨o, rfl, hd, hsig, hsub, hlast, hw, hrun⟩
  · exact .skip (.quiet hq hrest)
  · exact .order hd hsig hsub hs hlast (hwants hw) hrun hrest

theorem trimSymbol_cons (hgrid : p.submit ∈ w.grid) (hwants : Wants w a s)
    (h : trimSymbol cfg w i weight a s = .ok b) {rest : List String}
    (hrest : Orders cfg w p rest b c) : Orders cfg w p (s :: rest) a c := by
  rw [trimSymbol, bind_eq_ok] at h
  obtain ⟨d, hd, h⟩ := h
  rw [ok.injEq] at h
  subst h
  rcases singleFill_orders hdecision hsignal hsubmit hgrid hd with hq | ⟨o, rfl, hdec, hsig, hsub, hlast, -, hrun⟩
  · refine .skip (.quiet hq (.relabel ?_ hrest))
    rw [hq.fills]; simp
  · refine .order hdec hsig hsub hs hlast hwants hrun (.relabel ?_ hrest)
    obtain ⟨fs, hfills, -, hall⟩ := hrun.booked
    rw [hfills, drop_left]; exact fun f hf => (hall f hf).2

end

theorem trimSymbol_units_of_ne {s u : String} (hdecision : p.decision = i.decision)
    (hsignal : p.signal = i.signal) (hsubmit : i.submit = some p.submit) (hgrid : p.submit ∈ w.grid) (hu : u ≠ s)
    (h : trimSymbol cfg w i weight a s = .ok b) : b.units u = a.units u := by
  rw [trimSymbol, bind_eq_ok] at h
  obtain ⟨d, hd, h⟩ := h
  rw [ok.injEq] at h
  subst h
  show d.units u = a.units u; exact singleFill_units_of_ne hdecision hsignal hsubmit hgrid hu hd

theorem trimSymbol_quiet (hsubmit : i.submit = none) (h : trimSymbol cfg w i weight a s = .ok b) :
    SameBooks a b := by
  rw [trimSymbol, bind_eq_ok] at h
  obtain ⟨d, hd, h⟩ := h
  have hq := singleFill_quiet hsubmit hd
  have hrelabel : relabelTrims a.fills.length d = d := by
    rw [relabelTrims]; simp [← hq.fills]
  rw [ok.injEq, hrelabel] at h; exact h ▸ hq

end Points

/-! ## Settlements -/

section Settlements

variable {cfg : ReplayConfig} {w : Window} {a b : Acc} {event : SettlementEvent}

theorem overrideDelivery_run {bar : ℤ} {price : ℚ} (hevent : Delivers w event bar a)
    (hprice : settlementFillPrice event (a.units event.symbol) cfg.spec = .ok price)
    (h : overrideDelivery cfg w a.pending event bar price a = .ok b) :
    WindowRun cfg w [] a b ∧ b = { a with overrides := b.overrides } := by
  refine foldlM_invariant
    (I := fun c => WindowRun cfg w [] a c ∧ c = { a with overrides := c.overrides }) ?_ h
    ⟨.one (.override hevent hprice), rfl⟩
  rintro peer hpeer c d hd ⟨hrun, hc⟩
  unfold overridePeer at hd
  split at hd
  · next hdue =>
    obtain ⟨price', hprice', hd⟩ := bind_eq_ok.mp hd
    rw [ok.injEq] at hd
    subst hd
    have hdelivers : Delivers w peer bar c :=
      { pending := by rw [hc]; exact hpeer
        roster := hdue.2.1
        due_le := hdue.1 ▸ hevent.due_le
        kept := by rw [hc, hdue.1]; exact hevent.kept
        bar_eq := by rw [hdue.1]; exact hevent.bar_eq }
    refine ⟨hrun.trans (.one (.override hdelivers hprice')), ?_⟩
    unfold Acc.override
    rw [hc]
  · exact ok.inj hd ▸ ⟨hrun, hc⟩

theorem advance_eq_ok {mark : ℤ → String → Option ℚ} {target : ℤ} {onGrid preFill : Bool}
    (h : advance w mark target onGrid preFill a = .ok b) :
    (∀ t ∈ a.lastTime, t ≤ target) ∧
      b = { a with
        lastPrices := b.lastPrices, valid := b.valid, cash := a.cash - spanCharge w mark a target preFill
        lastTime := some target } ∧
      (b.valid = true → a.valid = true) := by
  unfold advance at h
  split at h
  · cases h
  · next htime =>
    rw [ok.injEq] at h
    subst h
    refine ⟨?_, rfl, ?_⟩
    · intro t ht
      rw [Option.mem_def.mp ht] at htime; simpa using htime
    · intro hvalid; simp only [Bool.and_eq_true] at hvalid; exact hvalid.1.1

variable (cfg) in
theorem advanceToDelivery_run {bar : ℤ} (h : advanceToDelivery w bar a = .ok b) :
    WindowRun cfg w [] a b ∧
      b = { a with lastPrices := b.lastPrices, valid := b.valid, cash := b.cash, lastTime := b.lastTime } ∧
      ∃ t, b.lastTime = some t ∧ bar ≤ t := by
  unfold advanceToDelivery at h
  split at h
  · next htime =>
    simp only [Option.all_eq_true, decide_eq_true_eq] at htime
    have hadv := (advance_eq_ok h).2.1
    refine ⟨.one (.deliver _ htime h), ?_, bar, ?_, le_rfl⟩ <;> rw [hadv]
  · next htime =>
    rw [ok.injEq] at h
    subst h
    refine ⟨.done _, rfl, ?_⟩
    cases ht : a.lastTime with
    | none => simp [ht] at htime
    | some t => exact ⟨t, rfl, by simpa [ht] using htime⟩

theorem settleEvent_run {through : ℤ} {remaining remaining' : List SettlementEvent}
    (hevent : event ∈ a.pending)
    (h : settleEvent cfg w a.pending through (a, remaining) event = .ok (b, remaining')) :
    WindowRun cfg w [] a b ∧ b.pending = a.pending ∧
      (remaining' = remaining ∨ remaining' = remaining ++ [event]) := by
  unfold settleEvent at h
  simp only at h
  split at h
  · obtain ⟨rfl, rfl⟩ := h; exact ⟨.done _, rfl, .inr rfl⟩
  · next hdue =>
    rw [not_or, not_lt, not_not] at hdue
    split at h
    · obtain ⟨rfl, rfl⟩ := h; exact ⟨.done _, rfl, .inl rfl⟩
    · next hheld =>
      split at h
      · cases h
      · next hkept =>
        obtain ⟨price, hprice, h⟩ := bind_eq_ok.mp h
        obtain ⟨c, hc, h⟩ := bind_eq_ok.mp h
        obtain ⟨d, hd, h⟩ := bind_eq_ok.mp h
        obtain ⟨e, he, h⟩ := bind_eq_ok.mp h
        obtain ⟨rfl, rfl⟩ := h
        have hdelivers : Delivers w event ((w.firstFrom event.due).getD w.last) a :=
          ⟨hevent, hdue.2, hdue.1.trans (min_le_right _ _), not_lt.mp hkept, rfl⟩
        obtain ⟨hover, hc⟩ := overrideDelivery_run hdelivers hprice hc
        obtain ⟨hrun, hd, htime⟩ := advanceToDelivery_run cfg hd
        have hd : d = { a with
            overrides := d.overrides, lastPrices := d.lastPrices, valid := d.valid, cash := d.cash
            lastTime := d.lastTime } := by
          rw [hc] at hd
          rw [hd]
        have hu : d.units event.symbol = a.units event.symbol := by rw [hd]
        have hsettles : Settles cfg w event ((w.firstFrom event.due).getD w.last) price d :=
          { pending := by rw [hd]; exact hevent
            roster := hdue.2
            due_le := hdelivers.due_le
            kept := by rw [hd]; exact hdelivers.kept
            bar_eq := rfl
            held := by rw [hu]; exact hheld
            price_eq := by rw [hu]; exact hprice
            time := htime }
        rw [← hu] at he
        obtain ⟨-, f, -, hbook⟩ := bookFill_eq_ok he
        have hpending : e.pending = a.pending := by rw [hbook, hd]
        have hdelivers' : Delivers w event ((w.firstFrom event.due).getD w.last) e :=
          { hdelivers with
            pending := by rw [hpending]; exact hevent
            kept := by rw [hbook, hd]; exact hdelivers.kept }
        refine ⟨?_, hpending, .inl rfl⟩
        exact hover.trans (hrun.trans (.step (.settle hsettles he)
          (.step (.override hdelivers' hprice) (.one (.queue (fun _ h => h))))))

theorem settleEventsThrough_run {through : ℤ} (h : settleEventsThrough cfg w through a = .ok b) :
    WindowRun cfg w [] a b := by
  rw [settleEventsThrough, bind_eq_ok] at h
  obtain ⟨⟨c, remaining⟩, hc, h⟩ := h
  rw [ok.injEq] at h
  subst h
  have hfold := foldlM_invariant
    (I := fun state : Acc × List SettlementEvent => WindowRun cfg w [] a state.1 ∧ state.1.pending = a.pending ∧
      ∀ e ∈ state.2, e ∈ a.pending) ?_ hc ⟨.done a, rfl, by simp⟩
  · obtain ⟨hrun, hpend, hrem⟩ := hfold
    exact hrun.trans (.one (.queue (fun e he => hpend.symm ▸ hrem e he)))
  · rintro event hevent ⟨d, rem⟩ ⟨d', rem'⟩ hstep ⟨hrun, hpend, hrem⟩
    rw [← hpend] at hstep
    obtain ⟨hrun', hpend', hrem'⟩ := settleEvent_run (by rw [hpend]; exact hevent) hstep
    refine ⟨hrun.trans hrun', hpend'.trans hpend, ?_⟩
    intro e he
    rcases hrem' with rfl | rfl
    · exact hrem e he
    · rcases mem_append.mp he with he | he
      · exact hrem e he
      · rw [mem_singleton.mp he]; exact hevent

end Settlements

/-! ## Admissions -/

section Admissions

variable {cfg : ReplayConfig} {w : Window} {a b : Acc} {event : SettlementEvent}

structure Admits (a b : Acc) (event : SettlementEvent) : Prop where
  eq : b = { a with
    admitted := b.admitted, pending := b.pending, admittedBySymbol := b.admittedBySymbol, lastTrade := b.lastTrade }
  kept : ∀ e ∈ a.admitted, e ∈ b.admitted
  mem : event ∈ b.admitted
  new : ∀ e ∈ b.admitted, e ∈ a.admitted ∨ e = event
  lowers : ∀ s, ∀ t ∈ a.lastTrade s, ∃ t' ∈ b.lastTrade s, t' ≤ t
  caps : event ∈ a.admitted ∨ ∃ t ∈ b.lastTrade event.symbol, t ≤ event.lastTrade
  source : ∀ s, ∀ t ∈ b.lastTrade s, t ∈ a.lastTrade s ∨ event.symbol = s ∧ event.lastTrade = t
  pending : ∀ e ∈ b.pending, e ∈ a.pending ∨ e = event

theorem admitEvent_eq_ok (h : admitEvent cfg a event = .ok b) : Admits a b event := by
  unfold admitEvent at h
  split at h
  · cases h
  · split at h
    · next seen hseen =>
      split at h
      · next heq =>
        rw [ok.injEq] at h
        subst h
        have hmem : event ∈ a.admitted := heq ▸ mem_of_find?_eq_some hseen
        exact ⟨rfl, fun _ h => h, hmem, fun _ h => .inl h, fun s t ht => ⟨t, ht, le_rfl⟩, .inl hmem,
          fun _ _ h => .inl h, fun _ h => .inl h⟩
      · cases h
    · split at h
      · cases h
      · rw [ok.injEq] at h
        subst h
        refine ⟨rfl, fun e he => mem_append_left _ he, by simp, ?_, ?_, .inr ?_, ?_, ?_⟩
        · intro e he
          rcases mem_append.mp he with he | he
          · exact .inl he
          · exact .inr (mem_singleton.mp he)
        · intro s t ht
          simp only
          split
          · next hlt =>
            by_cases hs : s = event.symbol
            · subst hs
              rw [update_self]
              rw [Option.mem_def.mp ht] at hlt
              exact ⟨_, rfl, (by simpa using hlt : event.lastTrade < t).le⟩
            · rw [update_of_ne hs]; exact ⟨t, ht, le_rfl⟩
          · exact ⟨t, ht, le_rfl⟩
        · simp only
          split
          · rw [update_self]; exact ⟨_, rfl, le_rfl⟩
          · next hge =>
            cases hl : a.lastTrade event.symbol with
            | none => simp [hl] at hge
            | some t => exact ⟨t, rfl, by simpa [hl] using hge⟩
        · intro s t ht
          simp only at ht
          split at ht
          · by_cases hs : s = event.symbol
            · subst hs
              rw [update_self, Option.mem_def, Option.some.injEq] at ht; exact .inr ⟨rfl, ht⟩
            · rw [update_of_ne hs] at ht; exact .inl ht
          · exact .inl ht
        · intro e he
          rcases mem_append.mp he with he | he
          · exact .inl he
          · exact .inr (mem_singleton.mp he)

def Capped (acc : Acc) : Prop := ∀ e ∈ acc.admitted, ∃ t ∈ acc.lastTrade e.symbol, t ≤ e.lastTrade

theorem Admits.capped (h : Admits a b event) (ha : Capped a) : Capped b := by
  intro e he
  have lower : (∃ t ∈ a.lastTrade e.symbol, t ≤ e.lastTrade) → ∃ t ∈ b.lastTrade e.symbol, t ≤ e.lastTrade := by
    rintro ⟨t, ht, hle⟩
    obtain ⟨t', ht', hle'⟩ := h.lowers e.symbol t ht; exact ⟨t', ht', hle'.trans hle⟩
  rcases h.new e he with he | rfl
  · exact lower (ha e he)
  · rcases h.caps with hold | hcap
    · exact lower (ha e hold)
    · exact hcap

variable {events : List SettlementEvent}

theorem admissions_capped (h : events.foldlM (admitEvent cfg) a = .ok b) (ha : Capped a) :
    Capped b ∧ (∀ e ∈ a.admitted, e ∈ b.admitted) ∧ (∀ e ∈ events, e ∈ b.admitted) ∧ b.units = a.units ∧
      b.fills = a.fills := by
  induction events generalizing a with
  | nil =>
    rw [← ok.inj h]; exact ⟨ha, fun _ h => h, by simp, rfl, rfl⟩
  | cons e events ih =>
    rw [foldlM_cons, bind_eq_ok] at h
    obtain ⟨c, hc, h⟩ := h
    have hadmits := admitEvent_eq_ok hc
    obtain ⟨hcap, hkept, hall, hunits, hfills⟩ := ih h (hadmits.capped ha)
    refine ⟨hcap, fun x hx => hkept x (hadmits.kept x hx), ?_, ?_, ?_⟩
    · intro x hx
      rcases mem_cons.mp hx with rfl | hx
      · exact hkept _ hadmits.mem
      · exact hall x hx
    · rw [hunits, hadmits.eq]
    · rw [hfills, hadmits.eq]

theorem admissions_source (h : events.foldlM (admitEvent cfg) a = .ok b) {s : String}
    {t : ℤ} (ht : t ∈ b.lastTrade s) : t ∈ a.lastTrade s ∨ ∃ e ∈ events, e.symbol = s ∧ e.lastTrade = t := by
  have hI := foldlM_invariant (I := fun x : Acc => ∀ s, ∀ t ∈ x.lastTrade s,
    t ∈ a.lastTrade s ∨ ∃ e ∈ events, e.symbol = s ∧ e.lastTrade = t)
    (fun e he x y hy hx s t ht => by
      rcases (admitEvent_eq_ok hy).source s t ht with ht | ⟨hs, hl⟩
      · exact hx s t ht
      · exact .inr ⟨e, he, hs, hl⟩) h (fun s t ht => .inl ht)
  exact hI s t ht

end Admissions

/-! ## The clocks of a window -/

section Clocks

variable {cfg : ReplayConfig} {w : Window} {a b : Acc}

theorem keeps_time (t : ℤ) : Keeps cfg w (fun x => ∃ u, x.lastTime = some u ∧ t ≤ u) := by
  refine KeepsOn.of_book ?_ (fun _ h => h) (fun _ h => h) (fun _ h => h) ?_ ?_ (fun _ h => h)
  · intro x y h hx
    rw [h.lastTime]; exact hx
  · rintro x y mark target onGrid preFill h ⟨u, hu, hle⟩
    obtain ⟨htime, hy, -⟩ := advance_eq_ok h
    rw [hy]; exact ⟨target, rfl, hle.trans (htime u hu)⟩
  · intro x y f _ hy hx
    rw [hy]; exact hx

theorem keeps_anchorOf (v : Option ℤ) : Keeps cfg w (fun x => anchorOf w x = v) := by
  refine KeepsOn.of_book ?_ (fun _ h => h) (fun h hx => h.symm.trans hx) (fun _ h => h) ?_ ?_ (fun _ h => h)
  · intro x y h hx
    unfold anchorOf
    rw [h.trimAnchor]; exact hx
  · intro x y mark target onGrid preFill h hx
    rw [(advance_eq_ok h).2.1]; exact hx
  · intro x y f _ hy hx
    rw [hy]; exact hx

def driftStep (spec : ExecutionSpec) : ℤ := spec.nameDriftTrimIntervalHours * 60 * minuteNs

theorem driftStep_pos (spec : ExecutionSpec) : 0 < driftStep spec := by
  have := spec.interval_pos
  unfold driftStep minuteNs; omega

/-- A point a window can visit: a decision, or a check of the drift clock after the track. -/
def Clock.Expected (cfg : ReplayConfig) (w : Window) (a : Acc) (p : Clock) : Prop :=
  (∃ d ∈ w.decisions, p.OfDecision w d) ∨
    (cfg.spec.nameDriftTrimMaxWeight.isSome = true ∧ ∃ anchor k check, anchorOf w a = some anchor ∧
      (∀ t ∈ a.lastTime, t < anchor + k * driftStep cfg.spec) ∧
      w.firstFrom (anchor + k * driftStep cfg.spec) = some check ∧ p.OfCheck w check)

end Clocks

/-! ## The intents of a window -/

section Intents

variable {cfg : ReplayConfig} {w : Window} {a b : Acc}

theorem floorBreach_sameBooks (cond : Prop) [Decidable cond] (label : ℤ) :
    SameBooks a (if cond then { a with equityFloorBreaches := a.equityFloorBreaches ++ [label] } else a) := by
  split
  · exact ⟨rfl, fun h => h⟩
  · exact SameBooks.refl a

theorem nodup_filter_symbols (p : String → Bool) : (w.symbols.filter p).Nodup := w.symbols_nodup.filter p

theorem driftedSymbols_held {cap equity : ℚ} {s : String} (h : s ∈ driftedSymbols cfg w cap equity a) :
    a.units s ≠ 0 := by
  intro hzero
  have heps : ¬ qtyEps ≤ 0 := by
    rw [qtyEps]; norm_num
  simp [driftedSymbols, hzero, heps] at h

theorem rowWeight_targeted {x : Acc} {signal : ℤ} {breached : Bool} {target : String → Option ℚ} {s : String}
    (h : (forcedExitOverride x signal (if breached = true then fun _ => some 0 else target) s).getD 0 ≠ 0) :
    ∃ v, target s = some v ∧ v ≠ 0 := by
  unfold forcedExitOverride at h
  cases breached with
  | true => simp at h
  | false =>
    simp only [Bool.false_eq_true, if_false] at h
    cases ht : target s with
    | some v =>
      rw [ht] at h; exact ⟨v, rfl, h⟩
    | none =>
      rw [ht] at h
      simp only at h
      split at h
      · simp at h
      · split at h
        · simp at h
        · split at h <;> simp at h

inductive PointRun (cfg : ReplayConfig) (w : Window) (label : ℤ) : List Clock → Acc → Acc → Prop
  | idle {a b : Acc} (h : SameBooks a b) : PointRun cfg w label [] a b
  | orders {p : Clock} {symbols : List String} {a b c : Acc} (hquiet : SameBooks a b) (hp : p.Of w)
      (hdecision : p.decision = label) (hnodup : symbols.Nodup) (h : Orders cfg w p symbols b c) :
      PointRun cfg w label [p] a c

/-- A window, visit after visit: the settlements through a label, the track up to it, its orders. -/
inductive Visits (cfg : ReplayConfig) (w : Window) : List Clock → Acc → Acc → Prop
  | done (a : Acc) : Visits cfg w [] a a
  | anchored {ps : List Clock} {anchor : ℤ} {a b : Acc} (h : anchorOf w a = some anchor)
      (rest : Visits cfg w ps { a with trimAnchor := some anchor } b) : Visits cfg w ps a b
  | visit {label : ℤ} {ps qs : List Clock} {a b c d e : Acc} (hsettle : settleEventsThrough cfg w label a = .ok b)
      (hadvance : advance w w.mark label (decide (label ∈ w.grid)) false b = .ok c)
      (hpoint : PointRun cfg w label ps c d) (rest : Visits cfg w qs d e) : Visits cfg w (ps ++ qs) a e

theorem Visits.trans {ps qs : List Clock} {c : Acc} (hab : Visits cfg w ps a b) (hbc : Visits cfg w qs b c) :
    Visits cfg w (ps ++ qs) a c := by
  induction hab with
  | done a => exact hbc
  | anchored h _ ih => exact .anchored h (ih hbc)
  | visit hsettle hadvance hpoint _ ih =>
    rw [append_assoc]; exact .visit hsettle hadvance hpoint (ih hbc)

theorem Visits.run {ps : List Clock} (h : Visits cfg w ps a b) : WindowRun cfg w ps a b := by
  induction h with
  | done a => exact .done a
  | anchored h _ ih => exact .step (.anchored h) ih
  | @visit label ps qs a b c d e hsettle hadvance hpoint _ ih =>
    have hstart : WindowRun cfg w [] a c :=
      (settleEventsThrough_run hsettle).trans (.one (.advance label _ hadvance))
    have htime : c.lastTime = some label := by rw [(advance_eq_ok hadvance).2.1]
    cases hpoint with
    | idle hquiet => exact hstart.trans (.step (.quiet hquiet) ih)
    | orders hquiet hp hdecision hnodup horders =>
      refine hstart.trans (.step (.quiet hquiet) (.point hp ?_ hnodup horders ih))
      rw [hquiet.lastTime, htime, hdecision]

theorem driftTrimAt_visits {cap : ℚ} {check : ℤ} (hcheck : check ∈ w.grid)
    (h : driftTrimAt cfg w cap a check = .ok b) :
    b.lastTime = some check ∧ ∃ ps, Visits cfg w ps a b ∧ ps.length ≤ 1 ∧ ∀ p ∈ ps, p.OfCheck w check := by
  rw [driftTrimAt, bind_eq_ok] at h
  obtain ⟨c, hc, h⟩ := h
  obtain ⟨d, hd, h⟩ := bind_eq_ok.mp h
  have htime : d.lastTime = some check := by rw [(advance_eq_ok hd).2.1]
  rw [← decide_eq_true hcheck] at hd
  cases hsubmit : w.firstFrom (check + 1) with
  | none =>
    have hq := foldlM_sameBooks (fun s x y hy => trimSymbol_quiet hsubmit hy) h
    exact ⟨hq.lastTime.trans htime, [], .visit hc hd (.idle hq) (.done b), by simp, by simp⟩
  | some submit =>
    have hp : Clock.OfCheck w ⟨check, check, submit⟩ check := ⟨rfl, rfl, hcheck, hsubmit⟩
    have hgrid := (Window.firstFrom_mem hsubmit).1
    have horders := foldlM_orders cfg (p := ⟨check, check, submit⟩) (nodup_filter_symbols _) (fun _ _ => rfl)
      (fun s _ x y hy u hu => trimSymbol_units_of_ne (p := ⟨check, check, submit⟩) rfl rfl hsubmit hgrid hu hy)
      (fun s hs x y hunits hy rest z hz =>
        trimSymbol_cons (mem_of_mem_filter hs) rfl rfl hsubmit hgrid
          (.inl (by rw [hunits]; exact driftedSymbols_held hs)) hy hz) h
    exact ⟨horders.lastTime.trans htime, [⟨check, check, submit⟩],
      .visit hc hd (.orders (SameBooks.refl d) (.inr ⟨check, hp⟩) rfl (nodup_filter_symbols _) horders) (.done b),
      by simp, by simp [hp]⟩

theorem singleIntent_visits {d : Decision} (hd : d ∈ w.decisions) (h : singleIntent cfg w a d = .ok b) :
    b.lastTime = some d.label ∧ ∃ ps, Visits cfg w ps a b ∧ ps.length ≤ 1 ∧ ∀ p ∈ ps, p.OfDecision w d := by
  rw [singleIntent, bind_eq_ok] at h
  obtain ⟨c, hc, h⟩ := h
  obtain ⟨e, he, h⟩ := bind_eq_ok.mp h
  have hquiet : SameBooks e _ := floorBreach_sameBooks
    (floorBreached cfg e (equityAt w e) = true ∧ e.equityFloorBreaches.getLast? ≠ some d.label) d.label
  have htime : e.lastTime = some d.label := by rw [(advance_eq_ok he).2.1]
  cases hsubmit : w.firstFrom d.signal with
  | none =>
    have hq := foldlM_sameBooks (fun s x y hy => singleFill_quiet hsubmit hy) h
    exact ⟨(hq.lastTime.trans hquiet.lastTime).trans htime, [], .visit hc he (.idle (hquiet.trans hq)) (.done b),
      by simp, by simp⟩
  | some submit =>
    have hp : Clock.OfDecision w ⟨d.label, d.signal, submit⟩ d := ⟨rfl, rfl, hsubmit⟩
    have hgrid := (Window.firstFrom_mem hsubmit).1
    have horders := foldlM_orders cfg (p := ⟨d.label, d.signal, submit⟩) (nodup_filter_symbols _) (fun _ _ => rfl)
      (fun s _ x y hy u hu =>
        singleFill_units_of_ne (p := ⟨d.label, d.signal, submit⟩) rfl rfl hsubmit hgrid hu hy)
      (fun s hs x y hunits hy rest z hz =>
        singleFill_cons (mem_of_mem_filter hs) rfl rfl hsubmit hgrid (fun hw => hw.imp id
          (fun hweight => ⟨d, hd, rowWeight_targeted hweight⟩)) hy hz) h
    exact ⟨horders.lastTime.trans (hquiet.lastTime.trans htime), [⟨d.label, d.signal, submit⟩],
      .visit hc he (.orders hquiet (.inl ⟨d, hd, hp⟩) rfl (nodup_filter_symbols _) horders) (.done b), by simp,
      by simp [hp]⟩

theorem lt_driftStep (spec : ExecutionSpec) (anchor t : ℤ) (n : ℕ) :
    t < anchor + ((max anchor t - anchor) / driftStep spec + 1 + n) * driftStep spec := by
  have hpos := driftStep_pos spec
  have hlt := Int.lt_ediv_add_one_mul_self (max anchor t - anchor) hpos
  have hn : (0 : ℤ) ≤ n * driftStep spec := mul_nonneg (Int.natCast_nonneg n) hpos.le
  have hmax := le_max_right anchor t
  linarith [add_mul ((max anchor t - anchor) / driftStep spec + 1) (n : ℤ) (driftStep spec)]

theorem driftChecks_mem {anchor : ℤ} {stop : Option ℤ} {check : ℤ}
    (h : check ∈ driftChecks cfg.spec w anchor a stop) :
    ∃ k : ℤ, w.firstFrom (anchor + k * driftStep cfg.spec) = some check ∧
      ∀ t ∈ a.lastTime, t < anchor + k * driftStep cfg.spec := by
  have h := (takeWhile_sublist _).subset h
  rw [mem_filterMap] at h
  obtain ⟨n, -, hn⟩ := h
  refine ⟨_, hn, ?_⟩
  intro t ht
  rw [Option.mem_def.mp ht]; exact lt_driftStep cfg.spec anchor t n

theorem foldlM_visits {α : Type} {step : Acc → α → Except Exc Acc} {J : Acc → Prop} {Q : Clock → Prop} :
    ∀ {xs : List α} {a b : Acc},
      (∀ x ∈ xs, ∀ a b, J a → step a x = .ok b → J b ∧ ∃ ps, Visits cfg w ps a b ∧ ∀ p ∈ ps, Q p) → J a →
      xs.foldlM step a = .ok b → J b ∧ ∃ ps, Visits cfg w ps a b ∧ ∀ p ∈ ps, Q p
  | [], a, b, _, ha, h => by
    rw [← ok.inj h]; exact ⟨ha, [], .done a, by simp⟩
  | x :: xs, a, b, hstep, ha, h => by
    rw [foldlM_cons, bind_eq_ok] at h
    obtain ⟨c, hc, h⟩ := h
    obtain ⟨hJ, ps, hps, hall⟩ := hstep x mem_cons_self a c ha hc
    obtain ⟨hb, qs, hqs, hall'⟩ := foldlM_visits (fun y hy => hstep y (mem_cons_of_mem _ hy)) hJ h
    refine ⟨hb, ps ++ qs, hps.trans hqs, ?_⟩
    intro p hp
    rcases mem_append.mp hp with hp | hp
    · exact hall p hp
    · exact hall' p hp

/-- The clocks of `x` follow those of `a`. -/
def Follows (w : Window) (a x : Acc) : Prop :=
  anchorOf w x = anchorOf w a ∧ ∀ t ∈ a.lastTime, ∃ u, x.lastTime = some u ∧ t ≤ u

theorem Visits.follows {ps : List Clock} {x y : Acc} (h : Visits cfg w ps x y)
    (hx : Follows w a x) : Follows w a y := by
  refine ⟨(keeps_anchorOf (anchorOf w a)).run h.run hx.1, ?_⟩
  intro t ht; exact (keeps_time t).run h.run (hx.2 t ht)

theorem consumeDriftTrims_visits {stop : Option ℤ} {x y : Acc} (hx : Follows w a x)
    (h : consumeDriftTrims cfg w stop x = .ok y) : ∃ ps, Visits cfg w ps x y ∧ ∀ p ∈ ps, p.Expected cfg w a := by
  unfold consumeDriftTrims at h
  split at h
  · exact ⟨[], ok.inj h ▸ .done x, by simp⟩
  · next cap hcap =>
    split at h
    · exact ⟨[], ok.inj h ▸ .done x, by simp⟩
    · next anchor hanchor =>
      have hanchor : anchorOf w x = some anchor := hanchor
      obtain ⟨-, ps, hps, hall⟩ := foldlM_visits (J := fun _ => True) (Q := fun p => p.Expected cfg w a)
        (fun check hcheck u v _ hv => by
          obtain ⟨k, hk, hafter⟩ := driftChecks_mem hcheck
          obtain ⟨-, qs, hqs, -, hof⟩ := driftTrimAt_visits (Window.firstFrom_mem hk).1 hv
          refine ⟨trivial, qs, hqs, fun p hp => .inr ⟨by rw [hcap]; rfl, anchor, k, check, ?_, ?_, hk, hof p hp⟩⟩
          · rw [← hx.1, hanchor]
          · intro t ht
            obtain ⟨u, hu, hle⟩ := hx.2 t ht
            exact hle.trans_lt (hafter u hu)) trivial h
      exact ⟨ps, .anchored hanchor hps, hall⟩

/-- A window after its admissions: the queue in order, the liquidity clock moved on. -/
def Acc.opened (cfg : ReplayConfig) (w : Window) (a : Acc) : Acc :=
  { { a with pending := a.pending.insertionSort settlesBefore } with
    spread := advanceSpreadClock cfg w.logicalPartition a.spread }

theorem opened_run (cfg : ReplayConfig) (a : Acc) : WindowRun cfg w [] a (a.opened cfg w) := by
  have hquiet : SameBooks { a with pending := a.pending.insertionSort settlesBefore } (a.opened cfg w) :=
    ⟨rfl, fun h => h⟩
  exact .step (.queue (fun e he => (mem_insertionSort _).mp he)) (.of_quiet hquiet)

section

variable (h : consumeIntents cfg w a = .ok b)

include h

theorem consumeIntents_eq_ok :
    ∃ c d e, w.settlementEvents.foldlM (admitEvent cfg) a = .ok c ∧
      w.decisions.foldlM (consumeDecision cfg w) (c.opened cfg w) = .ok d ∧
      consumeDriftTrims cfg w none d = .ok e ∧ settleEventsThrough cfg w w.last e = .ok b := by
  rw [consumeIntents, bind_eq_ok] at h
  obtain ⟨c, hc, h⟩ := h
  rw [bind_eq_ok] at h
  obtain ⟨d, hd, h⟩ := h
  rw [bind_eq_ok] at h
  obtain ⟨e, he, h⟩ := h
  rw [admitSettlementEvents, bind_eq_ok] at hc
  obtain ⟨c', hc', hc⟩ := hc
  rw [ok.injEq] at hc
  subst hc; exact ⟨c', d, e, hc', hd, he, h⟩

/-- **The intents of a window are visits**, of points the window can visit, and the last
settlements. -/
theorem consumeIntents_visits :
    ∃ c z ps, w.settlementEvents.foldlM (admitEvent cfg) a = .ok c ∧ Visits cfg w ps (c.opened cfg w) z ∧
      settleEventsThrough cfg w w.last z = .ok b ∧ ∀ p ∈ ps, p.Expected cfg w a := by
  obtain ⟨c, d, e, hc, hd, he, h⟩ := consumeIntents_eq_ok h
  have hstart : Follows w a (c.opened cfg w) := by
    have hc' := foldlM_invariant (I := fun x => anchorOf w x = anchorOf w a ∧ x.lastTime = a.lastTime)
      (fun event _ u v hv hu => by
        rw [(admitEvent_eq_ok hv).eq]
        exact hu) hc ⟨rfl, rfl⟩
    exact ⟨hc'.1, fun t ht => ⟨t, hc'.2.trans ht, le_rfl⟩⟩
  obtain ⟨hfollows, ps, hps, hall⟩ := foldlM_visits (J := Follows w a) (Q := fun p => p.Expected cfg w a)
    (fun x hx y z hy hz => by
      rw [consumeDecision, bind_eq_ok] at hz
      obtain ⟨v, hv, hz⟩ := hz
      obtain ⟨qs, hqs, hexp⟩ := consumeDriftTrims_visits hy hv
      obtain ⟨-, rs, hrs, -, hof⟩ := singleIntent_visits hx hz
      refine ⟨(hqs.trans hrs).follows hy, qs ++ rs, hqs.trans hrs, ?_⟩
      intro p hp
      rcases mem_append.mp hp with hp | hp
      · exact hexp p hp
      · exact .inl ⟨x, hx, hof p hp⟩) hstart hd
  obtain ⟨qs, hqs, hexp⟩ := consumeDriftTrims_visits hfollows he
  refine ⟨c, e, ps ++ qs, hc, hps.trans hqs, h, ?_⟩
  intro p hp
  rcases mem_append.mp hp with hp | hp
  · exact hall p hp
  · exact hexp p hp

theorem consumeIntents_run :
    ∃ c ps, w.settlementEvents.foldlM (admitEvent cfg) a = .ok c ∧ WindowRun cfg w ps c b ∧
      ∀ p ∈ ps, p.Expected cfg w a := by
  obtain ⟨c, z, ps, hc, hvisits, hsettle, hexp⟩ := consumeIntents_visits h
  have hall := (opened_run cfg c).trans (hvisits.run.trans (settleEventsThrough_run hsettle))
  rw [append_nil] at hall; exact ⟨c, ps, hc, hall, hexp⟩

end

end Intents

/-! ## Windows -/

section Windows

variable {cfg : ReplayConfig} {w : Window} {a b : Acc}

theorem appendChunk_eq_ok {fills : List Fill} (h : appendChunk w fills a = .ok b) :
    chunkAccepted w a fills = true ∧ b =
      { a with
        valid := a.valid && chunkValid w a fills, ledgerUnits := b.ledgerUnits, lastValidMark := b.lastValidMark
        lastValidMarkAvail := b.lastValidMarkAvail, rows := a.rows ++ chunkRows w a fills
        fundingTotals := b.fundingTotals, ledgerCash := cashAfter w a fills w.last, finalMark := b.finalMark
        finalMarkAvail := b.finalMarkAvail } := by
  unfold appendChunk at h
  split at h
  · cases h
  · next haccepted =>
    rw [ok.injEq] at h
    subst h; exact ⟨by simpa using haccepted, rfl⟩

theorem appendLedger_eq_ok {n : ℕ} (h : appendLedger w n a = .ok b) :
    b = { a with
      valid := b.valid, ledgerUnits := b.ledgerUnits, lastValidMark := b.lastValidMark
      lastValidMarkAvail := b.lastValidMarkAvail, rows := b.rows, fundingTotals := b.fundingTotals
      ledgerCash := b.ledgerCash, finalMark := b.finalMark, finalMarkAvail := b.finalMarkAvail, mirror := b.mirror
      mirrorPending := [], lastClose := b.lastClose, overrides := fun _ _ => none
      ledgerStart := some (w.last + w.barNs) } := by
  rw [appendLedger, bind_eq_ok] at h
  obtain ⟨c, hc, h⟩ := h
  obtain ⟨d, hd, h⟩ := bind_eq_ok.mp h
  rw [settleMirrorWindow, bind_eq_ok] at hd
  obtain ⟨⟨mirror, complete⟩, -, hd⟩ := hd
  rw [ok.injEq] at h hd
  obtain ⟨-, hc⟩ := appendChunk_eq_ok hc
  rw [← h, ← hd, hc]

theorem consume_eq_ok (h : consume cfg a w = .ok b) :
    acceptsWindow cfg w a = true ∧ ∃ c d, consumeIntents cfg w { a with gridEnd := w.last } = .ok c ∧
      appendLedger w a.fills.length c = .ok d ∧
      b = { d with spread := observeSpreadPartition cfg w d.spread } := by
  unfold consume at h
  split at h
  · cases h
  · next haccepts =>
    obtain ⟨c, hc, h⟩ := bind_eq_ok.mp h
    obtain ⟨d, hd, h⟩ := bind_eq_ok.mp h
    rw [ok.injEq] at h; exact ⟨by simpa using haccepts, c, d, hc, hd, h.symm⟩

/-- `b` has the ledger, the mirror and the carries of `a`. -/
structure SameLedger (a b : Acc) : Prop where
  mirror : b.mirror = a.mirror
  ledgerCash : b.ledgerCash = a.ledgerCash
  ledgerUnits : b.ledgerUnits = a.ledgerUnits
  lastValidMark : b.lastValidMark = a.lastValidMark
  lastValidMarkAvail : b.lastValidMarkAvail = a.lastValidMarkAvail
  ledgerStart : b.ledgerStart = a.ledgerStart
  lastClose : b.lastClose = a.lastClose
  rows : b.rows = a.rows
  fundingTotals : b.fundingTotals = a.fundingTotals

theorem SameLedger.refl (a : Acc) : SameLedger a a := ⟨rfl, rfl, rfl, rfl, rfl, rfl, rfl, rfl, rfl⟩

theorem keeps_sameLedger (a : Acc) : Keeps cfg w (SameLedger a) := by
  refine KeepsOn.of_book ?_ ?_ ?_ ?_ ?_ ?_ ?_
  · intro x y h hx
    rw [h.eq]; exact ⟨hx.1, hx.2, hx.3, hx.4, hx.5, hx.6, hx.7, hx.8, hx.9⟩
  · exact fun _ h => ⟨h.1, h.2, h.3, h.4, h.5, h.6, h.7, h.8, h.9⟩
  · exact fun _ h => ⟨h.1, h.2, h.3, h.4, h.5, h.6, h.7, h.8, h.9⟩
  · exact fun _ h => ⟨h.1, h.2, h.3, h.4, h.5, h.6, h.7, h.8, h.9⟩
  · intro x y mark target onGrid preFill h hx
    rw [(advance_eq_ok h).2.1]; exact ⟨hx.1, hx.2, hx.3, hx.4, hx.5, hx.6, hx.7, hx.8, hx.9⟩
  · intro x y f _ hy hx
    rw [hy]; exact ⟨hx.1, hx.2, hx.3, hx.4, hx.5, hx.6, hx.7, hx.8, hx.9⟩
  · exact fun _ h => ⟨h.1, h.2, h.3, h.4, h.5, h.6, h.7, h.8, h.9⟩

theorem consumeIntents_sameLedger (h : consumeIntents cfg w a = .ok b) : SameLedger a b := by
  obtain ⟨c, ps, hc, hrun, -⟩ := consumeIntents_run h
  refine (keeps_sameLedger a).run hrun ?_
  refine foldlM_invariant (I := SameLedger a) ?_ hc (SameLedger.refl a)
  intro event _ x y hy hx
  rw [(admitEvent_eq_ok hy).eq]; exact ⟨hx.1, hx.2, hx.3, hx.4, hx.5, hx.6, hx.7, hx.8, hx.9⟩

/-! ## Decisions in order -/

theorem singleIntent_time {d : Decision} (h : singleIntent cfg w a d = .ok b) : ∀ t ∈ a.lastTime, t ≤ d.label := by
  rw [singleIntent, bind_eq_ok] at h
  obtain ⟨c, hc, h⟩ := h
  obtain ⟨e, he, h⟩ := bind_eq_ok.mp h
  intro t ht
  obtain ⟨u, hu, hle⟩ := (keeps_time t).run (settleEventsThrough_run hc) ⟨t, ht, le_rfl⟩
  exact hle.trans ((advance_eq_ok he).1 u hu)

theorem decisions_sorted {ds : List Decision} (hds : ∀ d ∈ ds, d ∈ w.decisions)
    (h : ds.foldlM (consumeDecision cfg w) a = .ok b) :
    (∀ t ∈ a.lastTime, ∀ d ∈ ds, t ≤ d.label) ∧ ds.Pairwise (fun d e => d.label ≤ e.label) := by
  induction ds generalizing a with
  | nil => simp
  | cons d ds ih =>
    rw [foldlM_cons, bind_eq_ok] at h
    obtain ⟨c, hc, h⟩ := h
    rw [consumeDecision, bind_eq_ok] at hc
    obtain ⟨x, hx, hc⟩ := hc
    have hself : Follows w a a := ⟨rfl, fun t ht => ⟨t, ht, le_rfl⟩⟩
    obtain ⟨ps, hps, -⟩ := consumeDriftTrims_visits hself hx
    have hbefore := singleIntent_time hc
    have hafter := (singleIntent_visits (hds d mem_cons_self) hc).1
    obtain ⟨hrest, hsorted⟩ := ih (fun e he => hds e (mem_cons_of_mem d he)) h
    have hd : ∀ t ∈ a.lastTime, t ≤ d.label := by
      intro t ht
      obtain ⟨v, hv, hle⟩ := (keeps_time t).run hps.run ⟨t, ht, le_rfl⟩
      exact hle.trans (hbefore v hv)
    constructor
    · intro t ht e he
      rcases mem_cons.mp he with rfl | he
      · exact hd t ht
      · exact (hd t ht).trans (hrest _ hafter e he)
    · exact pairwise_cons.mpr ⟨fun e he => hrest _ hafter e he, hsorted⟩

theorem consume_decisions_sorted (h : consume cfg a w = .ok b) :
    w.decisions.Pairwise (fun d e => d.label ≤ e.label) := by
  obtain ⟨-, c, d, hc, -, -⟩ := consume_eq_ok h
  rw [consumeIntents, bind_eq_ok] at hc
  obtain ⟨x, -, hc⟩ := hc
  obtain ⟨y, hy, -⟩ := bind_eq_ok.mp hc; exact (decisions_sorted (fun _ h => h) hy).2

/-! ## The bars of a ledger chunk -/

theorem Window.barNs_pos (h : 2 ≤ w.grid.length) : 0 < w.barNs := by
  have hsorted := w.grid_sorted
  unfold Window.barNs
  match hg : w.grid with
  | [] | [x] => simp [hg] at h
  | x :: y :: rest =>
    rw [hg] at hsorted
    have := rel_of_pairwise_cons hsorted (mem_cons_self (a := y) (l := rest))
    simp only [tail_cons, headD_cons]; omega

theorem Window.last_mem (h : w.grid ≠ []) : w.last ∈ w.grid := by
  unfold Window.last
  rw [getLastD_eq_getLast?, getLast?_eq_some_getLast h]; exact getLast_mem h

theorem mem_keptBars {x : ℤ} : x ∈ keptBars w a ↔ x ∈ w.grid ∧ ∀ t ∈ a.ledgerStart, t ≤ x := by
  simp [keptBars, Option.all_eq_true]

theorem keptBars_getLast (h : keptBars w a ≠ []) : (keptBars w a).getLast? = some w.last := by
  obtain ⟨x, hx⟩ := exists_mem_of_ne_nil _ h
  obtain ⟨hgrid, hstart⟩ := mem_keptBars.mp hx
  have hne : w.grid ≠ [] := ne_nil_of_mem hgrid
  have hlast : w.grid = w.grid.dropLast ++ [w.last] := by
    unfold Window.last
    rw [getLastD_eq_getLast?, getLast?_eq_some_getLast hne, Option.getD_some, dropLast_append_getLast hne]
  have hkept : a.ledgerStart.all (fun t => decide (t ≤ w.last)) = true := by
    rw [Option.all_eq_true]
    intro t ht; exact decide_eq_true ((hstart t ht).trans (Window.mem_le_last hgrid))
  unfold keptBars
  nth_rewrite 1 [hlast]
  rw [filter_append, filter_cons, if_pos hkept, filter_nil, getLast?_concat]

/-- **The rows of a consumed window**: its kept bars, after the rows of the windows before it. -/
theorem consume_rows (h : consume cfg a w = .ok b) :
    2 ≤ w.grid.length ∧ b.ledgerStart = some (w.last + w.barNs) ∧
      ∃ later, b.rows = a.rows ++ later ∧ later.map LedgerRow.bar = keptBars w a ∧ keptBars w a ≠ [] := by
  obtain ⟨haccepts, c, d, hc, hd, rfl⟩ := consume_eq_ok h
  have hsame := consumeIntents_sameLedger hc
  have hlength : 2 ≤ w.grid.length := by
    simp only [acceptsWindow, Bool.and_eq_true, decide_eq_true_eq] at haccepts; exact haccepts.1.2
  refine ⟨hlength, ?_, ?_⟩
  · rw [appendLedger_eq_ok hd]
  · rw [appendLedger, bind_eq_ok] at hd
    obtain ⟨e, he, hd⟩ := hd
    obtain ⟨f, hf, hd⟩ := bind_eq_ok.mp hd
    rw [settleMirrorWindow, bind_eq_ok] at hf
    obtain ⟨⟨mirror, complete⟩, -, hf⟩ := hf
    rw [ok.injEq] at hd hf
    obtain ⟨haccepted, he⟩ := appendChunk_eq_ok he
    have hkept : keptBars w c = keptBars w a := by
      unfold keptBars
      rw [hsame.ledgerStart]
    refine ⟨chunkRows w c (c.fills.drop a.fills.length), ?_, ?_, ?_⟩
    · rw [← hd, ← hf, he, ← hsame.rows]
    · rw [chunkRows, map_map, hkept]; exact map_id _
    · intro hnil
      rw [chunkAccepted, hkept, hnil] at haccepted; simp at haccepted

/-- The states a stream of windows reaches, each window fit for the state before it. -/
inductive Reaches (cfg : ReplayConfig) (ok : Acc → Window → Prop) : Acc → Prop
  | init : Reaches cfg ok (Acc.init cfg)
  | step {a b : Acc} {w : Window} (h : Reaches cfg ok a) (hok : ok a w) (hstep : consume cfg a w = .ok b) :
      Reaches cfg ok b

theorem finalize_eq_ok {res : ReplayResult} (h : finalize cfg a = .ok res) :
    reconciles cfg a = true ∧ res.fills = a.fills ∧ res.rows = a.rows ∧ res.fundingTotals = a.fundingTotals := by
  unfold finalize at h
  split at h
  · cases h
  · next hrec =>
    rw [ok.injEq] at h
    subst h; exact ⟨by simpa using hrec, rfl, rfl, rfl⟩

end Windows

end CryptoPilot.Engine
