/- # Delivery — a delivery is settled once and ends trading.

A settlement event is pending from its admission until it falls due.  Then the position of its
symbol is booked out, or the event is dropped because there is none (`settleEventsThrough_queue`),
and no later order of the symbol is accepted (`Visits.queued`).  `Account` is what the fills of a
symbol say about it, and `keeps_course` follows the accounts over the intents of a window. -/
import CryptoPilot.Engine.Mirror

namespace CryptoPilot.Engine

open List Function

open CryptoPilot.Live (Exc)
open CryptoPilot.Lib (bind_eq_ok foldlM_invariant)

/-! ## Trades and deliveries of a symbol -/

def deliveries (fills : List Fill) (s : String) : List Fill :=
  fills.filter (fun f => decide (f.symbol = s) && decide (f.reason = .delistSettlement))

def tradedUnits (fills : List Fill) (s : String) : ℚ :=
  ((fills.filter (fun f => decide (f.symbol = s) && decide (f.reason ≠ .delistSettlement))).map Fill.quantity).sum

section Fills

variable {fills : List Fill} {f : Fill} {s : String}

theorem mem_deliveries : f ∈ deliveries fills s ↔ f ∈ fills ∧ f.symbol = s ∧ f.reason = .delistSettlement := by
  simp [deliveries]

theorem deliveries_concat_of_ne (h : f.symbol ≠ s ∨ f.reason ≠ .delistSettlement) :
    deliveries (fills ++ [f]) s = deliveries fills s := by
  unfold deliveries
  rcases h with h | h <;> simp [h]

theorem deliveries_concat (hs : f.symbol = s) (hr : f.reason = .delistSettlement) :
    deliveries (fills ++ [f]) s = deliveries fills s ++ [f] := by
  unfold deliveries; simp [hs, hr]

theorem tradedUnits_concat_of_ne (h : f.symbol ≠ s ∨ f.reason = .delistSettlement) :
    tradedUnits (fills ++ [f]) s = tradedUnits fills s := by
  unfold tradedUnits
  rcases h with h | h <;> simp [h]

theorem tradedUnits_concat (hs : f.symbol = s) (hr : f.reason ≠ .delistSettlement) :
    tradedUnits (fills ++ [f]) s = tradedUnits fills s + f.quantity := by
  unfold tradedUnits; simp [hs, hr]

section

variable {n : ℕ} {a : Acc} (h : ∀ f ∈ a.fills.drop n, f.reason ≠ .delistSettlement)

include h

theorem relabelTrims_books (s : String) :
    deliveries (relabelTrims n a).fills s = deliveries a.fills s ∧
      tradedUnits (relabelTrims n a).fills s = tradedUnits a.fills s := by
  have hfills : a.fills = a.fills.take n ++ a.fills.drop n := (take_append_drop n a.fills).symm
  have hdelivered : deliveries (a.fills.drop n) s = [] := by
    unfold deliveries
    rw [filter_eq_nil_iff]
    intro f hf; simp [h f hf]
  have htraded : (a.fills.drop n).filter (fun f => decide (f.symbol = s) && decide (f.reason ≠ .delistSettlement)) =
      (a.fills.drop n).filter (fun f => decide (f.symbol = s)) := by
    apply filter_congr
    intro f hf; simp [h f hf]
  constructor
  · nth_rewrite 1 [hfills]
    unfold relabelTrims
    unfold deliveries at hdelivered ⊢
    rw [filter_append, filter_append, hdelivered, filter_map]; simp [comp_def]
  · nth_rewrite 1 [hfills]
    unfold relabelTrims tradedUnits
    rw [filter_append, filter_append, htraded, filter_map]; simp [comp_def]

theorem mem_relabelTrims (hf : f ∈ (relabelTrims n a).fills) :
    ∃ g ∈ a.fills, g.bar = f.bar ∧ g.symbol = f.symbol ∧
      (f.reason ≠ .delistSettlement → g.reason ≠ .delistSettlement) := by
  rcases mem_append.mp hf with hf | hf
  · exact ⟨f, mem_of_mem_take hf, rfl, rfl, fun h => h⟩
  · obtain ⟨g, hg, rfl⟩ := mem_map.mp hf; exact ⟨g, mem_of_mem_drop hg, rfl, rfl, fun _ => h g hg⟩

end

end Fills

/-! ## The queue of the settlements -/

section Queue

variable {cfg : ReplayConfig} {w : Window} {a b : Acc} {through : ℤ}

/-- An event stays queued until it falls due in a window that has its symbol. -/
def Waits (w : Window) (through : ℤ) (e : SettlementEvent) :
    Prop := min through w.last < e.due ∨ e.symbol ∉ w.symbols

theorem keeps_flat (s : String) : KeepsOn cfg w (fun _ => False) (fun x => x.units s = 0) where
  quiet := fun h hx => by rw [h.units]; exact hx
  queue := fun _ h => h
  anchored := fun _ h => h
  override := fun _ h => h
  advance := by
    intro x y mark target onGrid preFill h hx
    rw [(advance_eq_ok h).2.1]; exact hx
  settle := by
    intro x y event bar price hs h hx
    obtain ⟨-, f, hf, hy⟩ := bookFill_eq_ok h
    rw [hy]
    show Function.update x.units event.symbol f.postUnits s = 0
    by_cases hsymbol : s = event.symbol
    · exact absurd (hsymbol ▸ hx) hs.held
    · rw [update_of_ne hsymbol]; exact hx
  trade := fun _ hQ => hQ.elim
  relabel := fun _ h => h

theorem settleEvent_queue {event : SettlementEvent} {remaining remaining' : List SettlementEvent}
    (hevent : event ∈ a.pending)
    (h : settleEvent cfg w a.pending through (a, remaining) event = .ok (b, remaining')) :
    (Waits w through event → remaining' = remaining ++ [event]) ∧
      (¬ Waits w through event → remaining' = remaining ∧ b.units event.symbol = 0) := by
  unfold settleEvent at h
  simp only at h
  split at h
  · next hwaits =>
    simp only [Except.ok.injEq, Prod.mk.injEq] at h
    exact ⟨fun _ => h.2.symm, fun hnot => absurd hwaits hnot⟩
  · next hwaits =>
    refine ⟨fun hyes => absurd hyes hwaits, fun _ => ?_⟩
    split at h
    · next hflat =>
      obtain ⟨rfl, rfl⟩ := h; exact ⟨rfl, hflat⟩
    · split at h
      · cases h
      · next hkept =>
        obtain ⟨price, hprice, h⟩ := bind_eq_ok.mp h
        obtain ⟨c, hc, h⟩ := bind_eq_ok.mp h
        obtain ⟨d, hd, h⟩ := bind_eq_ok.mp h
        obtain ⟨e, he, h⟩ := bind_eq_ok.mp h
        obtain ⟨rfl, rfl⟩ := h
        rw [not_or, not_lt, not_not] at hwaits
        have hdelivers : Delivers w event ((w.firstFrom event.due).getD w.last) a :=
          ⟨hevent, hwaits.2, hwaits.1.trans (min_le_right _ _), not_lt.mp hkept, rfl⟩
        have hcunits : c.units = a.units := by rw [(overrideDelivery_run hdelivers hprice hc).2]
        have hdunits : d.units = c.units := by rw [(advanceToDelivery_run cfg hd).2.1]
        obtain ⟨-, f, hf, hbook⟩ := bookFill_eq_ok he
        refine ⟨rfl, ?_⟩
        show e.units event.symbol = 0
        rw [hbook]
        show Function.update d.units event.symbol f.postUnits event.symbol = 0
        rw [update_self, hf]
        show d.units event.symbol + -(a.units event.symbol) = 0
        rw [hdunits, hcunits, add_neg_cancel]

/-- **The queue after the settlements through an instant**: what waits stays, and what goes is flat.
-/
theorem settleEventsThrough_queue (h : settleEventsThrough cfg w through a = .ok b) (e : SettlementEvent)
    (he : e ∈ a.pending) :
    (Waits w through e → e ∈ b.pending) ∧ (¬ Waits w through e → e ∉ b.pending ∧ b.units e.symbol = 0) := by
  rw [settleEventsThrough, bind_eq_ok] at h
  obtain ⟨⟨c, remaining⟩, hc, h⟩ := h
  rw [Except.ok.injEq] at h
  subst h
  -- the queue is visited event by event; `seen` are the ones already visited
  have hfold : ∀ (todo seen : List SettlementEvent) (x : Acc) (rem : List SettlementEvent),
      (∀ e ∈ todo, e ∈ a.pending) → x.pending = a.pending →
      (∀ e ∈ seen, (Waits w through e → e ∈ rem) ∧ (¬ Waits w through e → x.units e.symbol = 0)) →
      (∀ e ∈ rem, Waits w through e) →
      todo.foldlM (settleEvent cfg w a.pending through) (x, rem) = .ok (c, remaining) →
      (∀ e, e ∈ seen ∨ e ∈ todo →
        (Waits w through e → e ∈ remaining) ∧ (¬ Waits w through e → c.units e.symbol = 0)) ∧
        ∀ e ∈ remaining, Waits w through e := by
    intro todo
    induction todo with
    | nil =>
      intro seen x rem _ _ hseen hrem hx
      obtain ⟨rfl, rfl⟩ := Prod.mk.injEq .. ▸ (Except.ok.inj hx)
      exact ⟨fun e he => hseen e (he.resolve_right (by simp)), hrem⟩
    | cons event todo ih =>
      intro seen x rem htodo hpend hseen hrem hx
      rw [foldlM_cons, bind_eq_ok] at hx
      obtain ⟨⟨y, rem'⟩, hy, hx⟩ := hx
      rw [← hpend] at hy
      have hevent : event ∈ x.pending := hpend ▸ htodo event mem_cons_self
      obtain ⟨hrun, hpend', -⟩ := settleEvent_run hevent hy
      obtain ⟨hstays, hgoes⟩ := settleEvent_queue hevent hy
      have hsub : ∀ e ∈ rem, e ∈ rem' := by
        intro e he
        by_cases hw : Waits w through event
        · rw [hstays hw]; exact mem_append_left _ he
        · rw [(hgoes hw).1]; exact he
      have hseen' : ∀ e ∈ seen ++ [event],
          (Waits w through e → e ∈ rem') ∧ (¬ Waits w through e → y.units e.symbol = 0) := by
        intro e he
        rcases mem_append.mp he with he | he
        · exact ⟨fun hw => hsub e ((hseen e he).1 hw),
            fun hw => (keeps_flat e.symbol).run hrun (by simp) ((hseen e he).2 hw)⟩
        · rw [mem_singleton.mp he]
          exact ⟨fun hw => by rw [hstays hw]; simp, fun hw => (hgoes hw).2⟩
      have hrem' : ∀ e ∈ rem', Waits w through e := by
        intro e he
        by_cases hw : Waits w through event
        · rw [hstays hw] at he
          rcases mem_append.mp he with he | he
          · exact hrem e he
          · rw [mem_singleton.mp he]; exact hw
        · rw [(hgoes hw).1] at he; exact hrem e he
      obtain ⟨hall, hend⟩ := ih (seen ++ [event]) y rem' (fun e he => htodo e (mem_cons_of_mem _ he))
        (hpend'.trans hpend) hseen' hrem' hx
      refine ⟨?_, hend⟩
      rintro e (he | he)
      · exact hall e (.inl (mem_append_left _ he))
      · rcases mem_cons.mp he with rfl | he
        · exact hall e (.inl (by simp))
        · exact hall e (.inr he)
  obtain ⟨hall, hend⟩ := hfold a.pending [] a [] (fun _ h => h) rfl (by simp) (by simp) hc
  exact ⟨(hall e (.inr he)).1, fun hw => ⟨fun hmem => hw (hend e hmem), (hall e (.inr he)).2 hw⟩⟩

end Queue

/-! ## An event that has passed -/

section Passed

variable {cfg : ReplayConfig} {w : Window} {a b : Acc} {e : SettlementEvent}

def Passed (e : SettlementEvent) (x : Acc) : Prop :=
  (∃ t, x.lastTime = some t ∧ e.due ≤ t) ∨ ∃ t, x.ledgerStart = some t ∧ e.due < t

/-- A point whose orders come after its decision and on bars the ledger keeps. -/
def Clock.Late (start : Option ℤ) (p : Clock) : Prop := p.decision ≤ p.signal ∧ ∀ t ∈ start, t ≤ p.submit

theorem Executes.not_passed {p : Clock} {o : Order} {bar : ℤ} {price : ℚ} (h : Executes cfg w p o bar price a)
    (hp : p.Late a.ledgerStart) (hcap : Capped a) (he : e ∈ a.admitted)
    (hpassed : Passed e a) : o.symbol ≠ e.symbol := by
  intro hs
  obtain ⟨t, ht, hle⟩ := hcap e he
  have hend := h.last t (hs ▸ ht)
  have hdue := e.lastTrade_le_due
  have hsubmit := h.signal_le
  rcases hpassed with ⟨u, hu, hpast⟩ | ⟨u, hu, hpast⟩
  · have htime := h.time
    rw [hu, Option.some.injEq] at htime
    have hsignal := hp.1
    rw [← h.decision, ← h.signal] at hsignal; omega
  · have hkept := hp.2 u hu
    rw [← h.submit] at hkept; omega

theorem Passed.later {start : Option ℤ} (h : Passed e a)
    (htime : ∀ t ∈ a.lastTime, ∃ u, b.lastTime = some u ∧ t ≤ u)
    (ha : a.ledgerStart = start) (hb : b.ledgerStart = start) : Passed e b := by
  rcases h with ⟨t, ht, hle⟩ | ⟨t, ht, hlt⟩
  · obtain ⟨u, hu, htu⟩ := htime t ht; exact .inl ⟨u, hu, hle.trans htu⟩
  · exact .inr ⟨t, by rw [hb, ← ha]; exact ht, hlt⟩

structure Gone (start : Option ℤ) (e : SettlementEvent) (x : Acc) : Prop where
  ledger : x.ledgerStart = start
  admitted : e ∈ x.admitted
  capped : Capped x
  flat : x.units e.symbol = 0
  passed : Passed e x

theorem Gone.congr {start : Option ℤ} (h : Gone start e a) (hledger : b.ledgerStart = a.ledgerStart)
    (hadmitted : b.admitted = a.admitted) (hlast : b.lastTrade = a.lastTrade)
    (hunits : b.units e.symbol = a.units e.symbol)
    (htime : ∀ t ∈ a.lastTime, ∃ u, b.lastTime = some u ∧ t ≤ u) : Gone start e b := by
  refine ⟨hledger.trans h.ledger, ?_, ?_, ?_, ?_⟩
  · rw [hadmitted]; exact h.admitted
  · unfold Capped
    rw [hadmitted, hlast]; exact h.capped
  · rw [hunits]; exact h.flat
  · exact h.passed.later htime h.ledger (hledger.trans h.ledger)

variable (cfg w) in
theorem keeps_gone (start : Option ℤ) (e : SettlementEvent) : KeepsOn cfg w (Clock.Late start) (Gone start e) where
  quiet := fun h hx => hx.congr h.ledgerStart h.admitted h.lastTrade (by rw [h.units])
    (fun t ht => ⟨t, h.lastTime.trans ht, le_rfl⟩)
  queue := fun _ hx => hx.congr rfl rfl rfl rfl (fun t ht => ⟨t, ht, le_rfl⟩)
  anchored := fun _ hx => hx.congr rfl rfl rfl rfl (fun t ht => ⟨t, ht, le_rfl⟩)
  override := fun _ hx => hx.congr rfl rfl rfl rfl (fun t ht => ⟨t, ht, le_rfl⟩)
  advance := by
    intro x y mark target onGrid preFill h hx
    obtain ⟨htime, hy, -⟩ := advance_eq_ok h
    refine hx.congr ?_ ?_ ?_ ?_ ?_
    · rw [hy]
    · rw [hy]
    · rw [hy]
    · rw [hy]
    · intro t ht; exact ⟨target, by rw [hy], htime t ht⟩
  settle := by
    intro x y event bar price hs h hx
    obtain ⟨-, f, -, hy⟩ := bookFill_eq_ok h
    have hne : e.symbol ≠ event.symbol := fun hsame => hs.held (hsame ▸ hx.flat)
    refine hx.congr ?_ ?_ ?_ ?_ ?_
    · rw [hy]
    · rw [hy]
    · rw [hy]
    · rw [hy]; exact update_of_ne hne _ _
    · intro t ht; exact ⟨t, by rw [hy]; exact ht, le_rfl⟩
  trade := by
    intro x₀ x y p o bar quantity price feeBps reason _ hp _ hexec _ h hx
    obtain ⟨-, f, -, hy⟩ := bookFill_eq_ok h
    have hne : e.symbol ≠ o.symbol :=
      (hexec.not_passed (by rw [hx.ledger]; exact hp) hx.capped hx.admitted hx.passed).symm
    refine hx.congr ?_ ?_ ?_ ?_ ?_
    · rw [hy]
    · rw [hy]
    · rw [hy]
    · rw [hy]; exact update_of_ne hne _ _
    · intro t ht; exact ⟨t, by rw [hy]; exact ht, le_rfl⟩
  relabel := fun _ hx => hx.congr rfl rfl rfl rfl (fun t ht => ⟨t, ht, le_rfl⟩)

/-! ## An event over the visits of a window -/

theorem OrderRun.pending {o : Order} {floor : ℤ} (h : OrderRun cfg w o floor a b) : b.pending = a.pending := by
  induction h with
  | quiet h => exact h.pending
  | fill hquiet _ _ _ hbook _ ih =>
    obtain ⟨-, f, -, hb⟩ := bookFill_eq_ok hbook
    rw [ih, hb]; exact hquiet.pending

theorem Orders.pending {p : Clock} {symbols : List String} (h : Orders cfg w p symbols a b) :
    b.pending = a.pending := by
  induction h with
  | done a => rfl
  | quiet h _ ih => exact ih.trans h.pending
  | order _ _ _ _ _ _ run _ ih => exact ih.trans run.pending
  | skip _ ih | relabel _ _ ih => exact ih

variable {ps : List Clock}

theorem PointRun.pending {label : ℤ} (h : PointRun cfg w label ps a b) : b.pending = a.pending := by
  cases h with
  | idle h => exact h.pending
  | orders hquiet _ _ _ h => exact h.pending.trans hquiet.pending

theorem PointRun.run {label : ℤ} (h : PointRun cfg w label ps a b) (htime : a.lastTime = some label) :
    WindowRun cfg w ps a b := by
  cases h with
  | idle h => exact .of_quiet h
  | orders hquiet hp hdecision hnodup h =>
    refine .step (.quiet hquiet) (.point hp ?_ hnodup h (.done b))
    rw [hquiet.lastTime, htime, hdecision]

/-- The admissions of `a`, and the bars its ledger keeps. -/
structure Registered (a x : Acc) : Prop where
  ledgerStart : x.ledgerStart = a.ledgerStart
  admitted : x.admitted = a.admitted
  lastTrade : x.lastTrade = a.lastTrade

theorem Registered.capped (h : Registered a b) (ha : Capped a) : Capped b := by
  unfold Capped
  rw [h.admitted, h.lastTrade]; exact ha

theorem keeps_registered (a : Acc) : Keeps cfg w (Registered a) := by
  refine KeepsOn.of_book ?_ ?_ ?_ ?_ ?_ ?_ ?_
  · intro x y h hx; exact ⟨h.ledgerStart.trans hx.1, h.admitted.trans hx.2, h.lastTrade.trans hx.3⟩
  · exact fun _ h => ⟨h.1, h.2, h.3⟩
  · exact fun _ h => ⟨h.1, h.2, h.3⟩
  · exact fun _ h => ⟨h.1, h.2, h.3⟩
  · intro x y mark target onGrid preFill h hx
    rw [(advance_eq_ok h).2.1]; exact ⟨hx.1, hx.2, hx.3⟩
  · intro x y f _ hy hx
    rw [hy]; exact ⟨hx.1, hx.2, hx.3⟩
  · exact fun _ h => ⟨h.1, h.2, h.3⟩

/-- An event is queued, or it fell due inside the window and has passed. -/
def Queued (w : Window) (start : Option ℤ) (e : SettlementEvent) (x : Acc) : Prop :=
  e ∈ x.pending ∨ e.due ≤ w.last ∧ Gone start e x

theorem settleEventsThrough_queued {through : ℤ} (h : settleEventsThrough cfg w through a = .ok b)
    (hq : Queued w a.ledgerStart e a) :
    (e ∈ b.pending ∧ Waits w through e) ∨
      (e.due ≤ w.last ∧ b.units e.symbol = 0 ∧ (e.due ≤ through ∨ Gone a.ledgerStart e b)) := by
  rcases hq with hpending | ⟨hdue, hgone⟩
  · obtain ⟨hstays, hgoes⟩ := settleEventsThrough_queue h e hpending
    by_cases hw : Waits w through e
    · exact .inl ⟨hstays hw, hw⟩
    · have hflat := (hgoes hw).2
      unfold Waits at hw
      rw [not_or, not_lt] at hw
      exact .inr ⟨hw.1.trans (min_le_right _ _), hflat, .inl (hw.1.trans (min_le_left _ _))⟩
  · have hgone' := (keeps_gone cfg w a.ledgerStart e).run (settleEventsThrough_run h) (by simp) hgone
    exact .inr ⟨hdue, hgone'.flat, .inr hgone'⟩

/-- **An event over the visits of a window.**  The settlements of a visit come before its orders. -/
theorem Visits.queued {x z : Acc} (h : Visits cfg w ps x z) (hps : ∀ p ∈ ps, p.Late a.ledgerStart)
    (hcap : Capped a) (he : e ∈ a.admitted) (hx : Registered a x) (hq : Queued w a.ledgerStart e x) :
    Queued w a.ledgerStart e z := by
  induction h with
  | done x => exact hq
  | @anchored ps anchor x z hanchor _ ih =>
    refine ih hps ⟨hx.1, hx.2, hx.3⟩ ?_
    rcases hq with hq | ⟨hdue, hgone⟩
    · exact .inl hq
    · exact .inr ⟨hdue, (keeps_gone cfg w a.ledgerStart e).anchored hanchor hgone⟩
  | @visit label ps qs x y u v z hsettle hadvance hpoint _ ih =>
    have hsettled := settleEventsThrough_run hsettle
    have hy : Registered a y := (keeps_registered a).run hsettled hx
    obtain ⟨-, hu, -⟩ := advance_eq_ok hadvance
    have hru : Registered a u := by
      rw [hu]; exact ⟨hy.1, hy.2, hy.3⟩
    have htime : u.lastTime = some label := by rw [hu]
    have hrun := hpoint.run htime
    have hrv : Registered a v := (keeps_registered a).run hrun hru
    refine ih (fun p hp => hps p (mem_append_right ps hp)) hrv ?_
    rw [← hx.ledgerStart] at hq
    rcases settleEventsThrough_queued hsettle hq with ⟨hpending, -⟩ | ⟨hdue, hflat, hpast⟩
    · left
      rw [hpoint.pending, hu]; exact hpending
    · right
      have hgone : Gone a.ledgerStart e u := by
        refine ⟨hru.ledgerStart, by rw [hru.admitted]; exact he, hru.capped hcap, by rw [hu]; exact hflat, ?_⟩
        rcases hpast with hlabel | hgone
        · exact .inl ⟨label, htime, hlabel⟩
        · rw [hx.ledgerStart] at hgone
          have := (keeps_gone cfg w a.ledgerStart e).advance hadvance hgone; exact this.passed
      exact ⟨hdue, (keeps_gone cfg w a.ledgerStart e).run hrun (fun p hp => hps p (mem_append_left qs hp)) hgone⟩

end Passed

/-! ## The account of a symbol -/

/-- The one settlement of a symbol: it books out what was traded, at the price of its event, on the
first bar from the due instant on. -/
structure Delivered (cfg : ReplayConfig) (bars : List ℤ) (x : Acc) (s : String) (e : SettlementEvent) (f : Fill) :
    Prop where
  only : deliveries x.fills s = [f]
  held : tradedUnits x.fills s ≠ 0
  quantity : f.quantity = -(tradedUnits x.fills s)
  post : f.postUnits = 0
  flat : x.units s = 0
  admitted : e ∈ x.admitted
  symbol : e.symbol = s
  price : settlementFillPrice e (tradedUnits x.fills s) cfg.spec = .ok f.price
  bar : f.bar ∈ bars
  due : e.due ≤ f.bar
  first : ∀ b ∈ bars, e.due ≤ b → f.bar ≤ b
  time : ∃ t, x.lastTime = some t ∧ f.bar ≤ t

/-- A symbol without a settlement holds what was traded; a settled one holds nothing. -/
def Account (cfg : ReplayConfig) (bars : List ℤ) (x : Acc) (s : String) : Prop :=
  (deliveries x.fills s = [] ∧ x.units s = tradedUnits x.fills s) ∨ ∃ e f, Delivered cfg bars x s e f

section Account

variable {cfg : ReplayConfig} {w : Window} {bars : List ℤ} {a b : Acc} {s : String} {e : SettlementEvent}

theorem Delivered.passed {f : Fill} (h : Delivered cfg bars a s e f) : Passed e a := by
  obtain ⟨t, ht, hle⟩ := h.time; exact .inl ⟨t, ht, h.due.trans hle⟩

theorem Delivered.bar_le {f g : Fill} (h : Delivered cfg bars a s e f)
    (htraded : g.reason ≠ .delistSettlement → g.bar < e.lastTrade) (hg : g ∈ a.fills) (hs : g.symbol = s) :
    g = f ∨ g.bar < f.bar := by
  by_cases hr : g.reason = .delistSettlement
  · left
    have hmem : g ∈ deliveries a.fills s := mem_deliveries.mpr ⟨hg, hs, hr⟩
    rw [h.only] at hmem; exact mem_singleton.mp hmem
  · right
    have h1 := htraded hr
    have h2 := e.lastTrade_le_due
    have h3 := h.due; omega

theorem Delivered.congr {f : Fill} (h : Delivered cfg bars a s e f)
    (hdelivered : deliveries b.fills s = deliveries a.fills s)
    (htraded : tradedUnits b.fills s = tradedUnits a.fills s) (hunits : b.units s = a.units s)
    (hadmitted : ∀ e ∈ a.admitted, e ∈ b.admitted)
    (htime : ∀ t ∈ a.lastTime, ∃ u, b.lastTime = some u ∧ t ≤ u) : Delivered cfg bars b s e f := by
  obtain ⟨t, ht, hle⟩ := h.time
  obtain ⟨u, hu, htu⟩ := htime t ht
  exact
    { only := hdelivered.trans h.only
      held := by rw [htraded]; exact h.held
      quantity := by rw [htraded]; exact h.quantity
      post := h.post
      flat := hunits.trans h.flat
      admitted := hadmitted e h.admitted
      symbol := h.symbol
      price := by rw [htraded]; exact h.price
      bar := h.bar
      due := h.due
      first := h.first
      time := ⟨u, hu, hle.trans htu⟩ }

theorem Account.congr (h : Account cfg bars a s) (hdelivered : deliveries b.fills s = deliveries a.fills s)
    (htraded : tradedUnits b.fills s = tradedUnits a.fills s) (hunits : b.units s = a.units s)
    (hadmitted : ∀ e ∈ a.admitted, e ∈ b.admitted)
    (htime : ∀ t ∈ a.lastTime, ∃ u, b.lastTime = some u ∧ t ≤ u) : Account cfg bars b s := by
  rcases h with ⟨hnone, heq⟩ | ⟨e, f, hf⟩
  · left
    rw [hdelivered, hunits, htraded]; exact ⟨hnone, heq⟩
  · exact .inr ⟨e, f, hf.congr hdelivered htraded hunits hadmitted htime⟩

theorem Account.trade {bar : ℤ} {x : String} {quantity price feeBps equity : ℚ} {reason : FillReason}
    {mark : Option ℚ} (hreason : reason ≠ .delistSettlement) (h : Account cfg bars a s)
    (hopen : x = s → ¬ ∃ e f, Delivered cfg bars a s e f)
    (hbook : bookFill bar x quantity price feeBps reason mark equity a = .ok b) : Account cfg bars b s := by
  obtain ⟨-, f, hf, hb⟩ := bookFill_eq_ok hbook
  have hfr : f.reason ≠ .delistSettlement := by rw [hf]; exact hreason
  have hfills : b.fills = a.fills ++ [f] := by rw [hb]
  have hunits : b.units = Function.update a.units x f.postUnits := by rw [hb]
  by_cases hx : x = s
  · left
    subst hx
    have hsymbol : f.symbol = x := by rw [hf]
    obtain ⟨hnone, heq⟩ := h.resolve_right (hopen rfl)
    rw [hfills, deliveries_concat_of_ne (.inr hfr), tradedUnits_concat hsymbol hfr, hunits, update_self]
    refine ⟨hnone, ?_⟩
    rw [hf, ← heq]
  · have hsymbol : f.symbol ≠ s := by rw [hf]; exact hx
    refine h.congr ?_ ?_ ?_ ?_ ?_
    · rw [hfills, deliveries_concat_of_ne (.inl hsymbol)]
    · rw [hfills, tradedUnits_concat_of_ne (.inl hsymbol)]
    · rw [hunits, update_of_ne (Ne.symm hx)]
    · rw [hb]; exact fun _ h => h
    · intro t ht; exact ⟨t, by rw [hb]; exact ht, le_rfl⟩

theorem Account.settle {event : SettlementEvent} {bar : ℤ} {price : ℚ} (h : Account cfg bars a s)
    (hs : Settles cfg w event bar price a) (hadmitted : event ∈ a.admitted) (hbar : bar ∈ bars)
    (hfirst : ∀ b ∈ bars, event.due ≤ b → bar ≤ b)
    (hbook : bookFill bar event.symbol (-(a.units event.symbol)) price event.feeBps .delistSettlement (some price)
      (equityAt w a) a = .ok b) : Account cfg bars b s := by
  obtain ⟨-, f, hf, hb⟩ := bookFill_eq_ok hbook
  have hfr : f.reason = .delistSettlement := by rw [hf]
  have hfills : b.fills = a.fills ++ [f] := by rw [hb]
  have hunits : b.units = Function.update a.units event.symbol f.postUnits := by rw [hb]
  by_cases hx : event.symbol = s
  · right
    have hsymbol : f.symbol = s := by rw [hf]; exact hx
    have hopen : ¬ ∃ e g, Delivered cfg bars a s e g := by
      rintro ⟨e, g, hg⟩; exact hs.held (by rw [hx]; exact hg.flat)
    obtain ⟨hnone, heq⟩ := h.resolve_right hopen
    have htraded : tradedUnits b.fills s = a.units event.symbol := by
      rw [hfills, tradedUnits_concat_of_ne (.inr hfr), hx, heq]
    have hpost : f.postUnits = 0 := by rw [hf]; simp
    refine ⟨event, f, ?_⟩
    exact
      { only := by rw [hfills, deliveries_concat hsymbol hfr, hnone, nil_append]
        held := by rw [htraded]; exact hs.held
        quantity := by rw [htraded, hf]
        post := hpost
        flat := by rw [hunits, ← hx, update_self, hpost]
        admitted := by rw [hb]; exact hadmitted
        symbol := hx
        price := by rw [htraded, hf]; exact hs.price_eq
        bar := by rw [hf]; exact hbar
        due := by rw [hf]; exact hs.due_le_bar
        first := by rw [hf]; exact hfirst
        time := by rw [hb, hf]; exact hs.time }
  · have hsymbol : f.symbol ≠ s := by rw [hf]; exact hx
    refine h.congr ?_ ?_ ?_ ?_ ?_
    · rw [hfills, deliveries_concat_of_ne (.inl hsymbol)]
    · rw [hfills, tradedUnits_concat_of_ne (.inl hsymbol)]
    · rw [hunits, update_of_ne (Ne.symm hx)]
    · rw [hb]; exact fun _ h => h
    · intro t ht; exact ⟨t, by rw [hb]; exact ht, le_rfl⟩

end Account

/-! ## The accounts over the intents of a window -/

/-- The accounts of an open window; `start` is the state after its admissions. -/
structure Course (cfg : ReplayConfig) (known : SettlementEvent → Prop) (bars : List ℤ) (start x : Acc) : Prop where
  registered : Registered start x
  pending : ∀ e ∈ x.pending, e ∈ x.admitted
  traded : ∀ f ∈ x.fills, f.reason ≠ .delistSettlement → ∀ e, known e → e.symbol = f.symbol → f.bar < e.lastTrade
  accounts : ∀ s, Account cfg bars x s

structure Announced (cfg : ReplayConfig) (w : Window) (known : SettlementEvent → Prop)
    (bars : List ℤ) (start : Acc) :
    Prop where
  capped : Capped start
  admitted : ∀ e, known e → e.symbol ∈ w.symbols → e.announced ≤ w.last → e ∈ start.admitted
  ended : cfg.bound = .ladderedProxy → ∀ s ∈ w.symbols, ∀ t ∈ start.lastTrade s, ∀ b ∈ w.grid, t ≤ b →
    ∀ qv ∈ w.quoteVolume b s, qv ≤ 0
  first : ∀ {x event bar}, x.ledgerStart = start.ledgerStart → Delivers w event bar x →
    bar ∈ bars ∧ ∀ b ∈ bars, event.due ≤ b → bar ≤ b

section Course

variable {cfg : ReplayConfig} {w : Window} {known : SettlementEvent → Prop} {bars : List ℤ} {start a b : Acc}

theorem Course.congr (h : Course cfg known bars start a) (hregistered : Registered a b)
    (hpending : ∀ e ∈ b.pending, e ∈ a.pending) (hfills : b.fills = a.fills) (hunits : b.units = a.units)
    (htime : ∀ t ∈ a.lastTime, ∃ u, b.lastTime = some u ∧ t ≤ u) : Course cfg known bars start b where
  registered := ⟨hregistered.1.trans h.registered.1, hregistered.2.trans h.registered.2,
    hregistered.3.trans h.registered.3⟩
  pending := by
    intro e he
    rw [hregistered.admitted]; exact h.pending e (hpending e he)
  traded := by
    rw [hfills]; exact h.traded
  accounts := by
    intro s
    refine (h.accounts s).congr (by rw [hfills]) (by rw [hfills]) (by rw [hunits]) ?_ htime
    rw [hregistered.admitted]; exact fun _ h => h

theorem Announced.trade_lt (h : Announced cfg w known bars start) {p : Clock} {o : Order} {bar : ℤ} {price : ℚ}
    (ha : Registered start a) (hexec : Executes cfg w p o bar price a) {e : SettlementEvent} (he : known e)
    (hs : e.symbol = o.symbol) : bar < e.lastTrade := by
  by_cases hann : e.announced ≤ w.last
  · have hadmitted := h.admitted e he (hs ▸ hexec.roster) hann
    obtain ⟨t, ht, hle⟩ := h.capped e hadmitted
    rw [hs] at ht
    have hends := h.ended
    rw [← ha.lastTrade] at ht hends
    rcases hexec.bar_lt t ht with hlt | ⟨hbound, -⟩
    · omega
    · by_contra hge
      obtain ⟨qv, hqv, hpos⟩ := hexec.liquid
      have := hends hbound o.symbol hexec.roster t ht bar hexec.bar_mem (by omega) qv hqv; linarith
  · have h1 := Window.mem_le_last hexec.bar_mem
    have h2 : e.announced ≤ e.lastTrade := e.announced_le; omega

/-- **The accounts survive the intents of a window.** -/
theorem keeps_course (h : Announced cfg w known bars start) :
    KeepsOn cfg w (Clock.Late start.ledgerStart) (Course cfg known bars start) where
  quiet := fun hq hx => hx.congr ⟨hq.ledgerStart, hq.admitted, hq.lastTrade⟩ (fun e he => hq.pending ▸ he) hq.fills
    hq.units (fun t ht => ⟨t, hq.lastTime.trans ht, le_rfl⟩)
  queue := fun hq hx => hx.congr ⟨rfl, rfl, rfl⟩ hq rfl rfl (fun t ht => ⟨t, ht, le_rfl⟩)
  anchored := fun _ hx => hx.congr ⟨rfl, rfl, rfl⟩ (fun _ h => h) rfl rfl (fun t ht => ⟨t, ht, le_rfl⟩)
  override := fun _ hx => hx.congr ⟨rfl, rfl, rfl⟩ (fun _ h => h) rfl rfl (fun t ht => ⟨t, ht, le_rfl⟩)
  advance := by
    intro x y mark target onGrid preFill hadv hx
    obtain ⟨htime, hy, -⟩ := advance_eq_ok hadv
    refine hx.congr ?_ ?_ ?_ ?_ ?_
    · rw [hy]; exact ⟨rfl, rfl, rfl⟩
    · rw [hy]; exact fun _ h => h
    · rw [hy]
    · rw [hy]
    · intro t ht; exact ⟨target, by rw [hy], htime t ht⟩
  settle := by
    intro x y event bar price hs hbook hx
    obtain ⟨-, f, hf, hy⟩ := bookFill_eq_ok hbook
    have hadmitted := hx.pending event hs.pending
    obtain ⟨hbar, hfirst⟩ := h.first hx.registered.ledgerStart hs.toDelivers
    refine ⟨?_, ?_, ?_, fun s => (hx.accounts s).settle hs hadmitted hbar hfirst hbook⟩
    · rw [hy]; exact ⟨hx.registered.1, hx.registered.2, hx.registered.3⟩
    · rw [hy]; exact hx.pending
    · intro g hg hreason
      rw [hy] at hg
      rcases mem_append.mp hg with hg | hg
      · exact hx.traded g hg hreason
      · rw [mem_singleton.mp hg, hf] at hreason; exact absurd rfl hreason
  trade := by
    intro x₀ x y p o bar quantity price feeBps reason _ hp _ hexec hreason hbook hx
    obtain ⟨-, f, hf, hy⟩ := bookFill_eq_ok hbook
    have hcap := hx.registered.capped h.capped
    have hlate : p.Late x.ledgerStart := by rw [hx.registered.ledgerStart]; exact hp
    refine ⟨?_, ?_, ?_, ?_⟩
    · rw [hy]; exact ⟨hx.registered.1, hx.registered.2, hx.registered.3⟩
    · rw [hy]; exact hx.pending
    · intro g hg hgr e he hs
      rw [hy] at hg
      rcases mem_append.mp hg with hg | hg
      · exact hx.traded g hg hgr e he hs
      · rw [mem_singleton.mp hg, hf] at hs ⊢; exact h.trade_lt hx.registered hexec he hs
    · intro s
      -- a symbol that was delivered is past its cap and not traded any more
      refine (hx.accounts s).trade hreason ?_ hbook
      rintro hs ⟨e, g, hg⟩
      exact hexec.not_passed hlate hcap hg.admitted hg.passed (hs.trans hg.symbol.symm)
  relabel := by
    intro x n hreason hx
    refine ⟨⟨hx.registered.1, hx.registered.2, hx.registered.3⟩, hx.pending, ?_, ?_⟩
    · intro f hf hfr e he hs
      obtain ⟨g, hg, hbar, hsymbol, hgr⟩ := mem_relabelTrims hreason hf
      rw [← hbar]; exact hx.traded g hg (hgr hfr) e he (hs.trans hsymbol.symm)
    · intro s
      obtain ⟨hdelivered, htraded⟩ := relabelTrims_books hreason s
      exact (hx.accounts s).congr hdelivered htraded rfl (fun _ h => h) (fun t ht => ⟨t, ht, le_rfl⟩)

end Course

end CryptoPilot.Engine
