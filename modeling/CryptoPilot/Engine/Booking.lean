/- # Booking — the order in which a window books its fills.

`InOrder` says that each symbol is booked in bar order: an order fills between its submit bar and
its timeout, which the next order of a spaced window does not precede, and a settlement comes after
every trade and ends them. -/
import CryptoPilot.Engine.Levels
import CryptoPilot.Engine.Points

namespace CryptoPilot.Engine

open CryptoPilot.Live (Exc)
open CryptoPilot.Lib (bind_eq_ok foldlM_invariant)

/-- The fills booked since the `n`-th, without their labels. -/
def recent (n : ℕ) (a : Acc) : List Fill := (a.fills.drop n).map Fill.unlabelled

section Recent

variable {cfg : ReplayConfig} {w : Window} {n : ℕ} {start : String → ℚ} {a b : Acc}

theorem recent_of_fills (h : b.fills = a.fills) : recent n b = recent n a := by
  unfold recent
  rw [h]

theorem recent_append {f : Fill} (hn : n ≤ a.fills.length) (h : b.fills = a.fills ++ [f]) :
    recent n b = recent n a ++ [f.unlabelled] := by
  unfold recent
  rw [h, List.drop_append_of_le_length hn, List.map_append, List.map_singleton]

theorem map_unlabelled_relabelTrims (m : ℕ) (a : Acc) :
    (relabelTrims m a).fills.map Fill.unlabelled = a.fills.map Fill.unlabelled := by
  have hlabel : (Fill.unlabelled ∘ fun f : Fill => { f with reason := .driftTrim }) = Fill.unlabelled := rfl
  unfold relabelTrims
  simp only [List.map_append, List.map_map, hlabel]
  rw [← List.map_append, List.take_append_drop]

theorem recent_relabelTrims (m : ℕ) (a : Acc) : recent n (relabelTrims m a) = recent n a := by
  unfold recent
  rw [List.map_drop, map_unlabelled_relabelTrims, List.map_drop]

theorem length_relabelTrims (m : ℕ) (a : Acc) : (relabelTrims m a).fills.length = a.fills.length := by
  have h := congrArg List.length (map_unlabelled_relabelTrims m a); simpa using h

/-! ## Units and queue -/

/-- The running units and the mirror's queue follow the fills of the open window. -/
structure Tracked (w : Window) (n : ℕ) (start : String → ℚ) (a : Acc) : Prop where
  length : n ≤ a.fills.length
  levels : Levels start (recent n a)
  units : ∀ s, a.units s = start s + traded (recent n a) s
  pending : a.mirrorPending.map Fill.unlabelled = recent n a
  roster : ∀ f ∈ recent n a, f.symbol ∈ w.symbols

theorem Tracked.congr (h : Tracked w n start a) (hfills : b.fills = a.fills) (hunits : b.units = a.units)
    (hpending : b.mirrorPending = a.mirrorPending) : Tracked w n start b := by
  have hrecent := recent_of_fills (n := n) hfills
  refine ⟨?_, ?_, ?_, ?_, ?_⟩
  · rw [hfills]; exact h.length
  · rw [hrecent]; exact h.levels
  · intro s
    rw [hunits, hrecent]; exact h.units s
  · rw [hpending, hrecent]; exact h.pending
  · rw [hrecent]; exact h.roster

theorem Tracked.book {bar : ℤ} {s : String} {quantity price feeBps equity : ℚ} {reason : FillReason}
    {mark : Option ℚ} (h : Tracked w n start a) (hs : s ∈ w.symbols)
    (hbook : bookFill bar s quantity price feeBps reason mark equity a = .ok b) : Tracked w n start b := by
  obtain ⟨-, f, hf, hb⟩ := bookFill_eq_ok hbook
  have hsymbol : f.symbol = s := by rw [hf]
  have hquantity : f.quantity = quantity := by rw [hf]
  have hpost : f.postUnits = a.units s + quantity := by rw [hf]
  have hrecent : recent n b = recent n a ++ [f.unlabelled] := recent_append h.length (by rw [hb])
  refine ⟨?_, ?_, ?_, ?_, ?_⟩
  · rw [hb]; simpa using h.length.trans (Nat.le_succ _)
  · rw [hrecent]
    refine h.levels.snoc ?_
    show f.postUnits = start f.symbol + traded (recent n a) f.symbol + f.quantity
    rw [hpost, hsymbol, hquantity, h.units s]
  · intro x
    rw [hrecent, traded_append, traded_singleton, hb]
    show Function.update a.units s f.postUnits x = _ + (_ + if f.symbol = x then f.quantity else 0)
    by_cases hx : x = s
    · subst hx
      rw [Function.update_self, hpost, if_pos hsymbol, hquantity, h.units x, add_assoc]
    · rw [Function.update_of_ne hx, if_neg (by rw [hsymbol]; exact fun h => hx h.symm), add_zero]
      exact h.units x
  · rw [hrecent, hb]
    show (a.mirrorPending ++ [f]).map Fill.unlabelled = _
    rw [List.map_append, h.pending, List.map_singleton]
  · intro g hg
    rw [hrecent] at hg
    rcases List.mem_append.mp hg with hg | hg
    · exact h.roster g hg
    · rw [List.mem_singleton.mp hg]
      show f.symbol ∈ w.symbols
      rw [hsymbol]; exact hs

theorem tracked_start (hfills : b.fills = a.fills) (hunits : b.units = a.units) (hqueue : b.mirrorPending = []) :
    Tracked w a.fills.length a.units b := by
  have hnil : recent a.fills.length b = [] := by
    unfold recent
    rw [hfills]; simp
  refine ⟨by rw [hfills], by rw [hnil]; exact .nil, ?_, by rw [hnil, hqueue]; rfl, by simp [hnil]⟩
  intro s
  rw [hunits, hnil]; simp

theorem keeps_tracked (n : ℕ) (start : String → ℚ) : KeepsOn cfg w (fun _ => True) (Tracked w n start) where
  quiet := fun h hx => hx.congr h.fills h.units h.mirrorPending
  queue := fun _ hx => hx.congr rfl rfl rfl
  anchored := fun _ hx => hx.congr rfl rfl rfl
  override := fun _ hx => hx.congr rfl rfl rfl
  advance := by
    intro x y mark target onGrid preFill h hx
    rw [(advance_eq_ok h).2.1]; exact hx.congr rfl rfl rfl
  settle := fun hs h hx => hx.book hs.roster h
  trade := fun _ _ _ hx' _ h hx => hx.book hx'.roster h
  relabel := by
    intro x m _ hx
    refine ⟨?_, ?_, ?_, ?_, ?_⟩
    · rw [length_relabelTrims]; exact hx.length
    · rw [recent_relabelTrims]; exact hx.levels
    · intro s
      rw [recent_relabelTrims]; exact hx.units s
    · rw [recent_relabelTrims]; exact hx.pending
    · rw [recent_relabelTrims]; exact hx.roster

end Recent

/-! ## Bar order -/

/-- A fill is before the end of trading and not after any of the bars `next` of its symbol. -/
def TradedBy (next : String → ℤ → Prop) (a : Acc) (f : Fill) : Prop :=
  (∀ e ∈ a.lastTrade f.symbol, f.bar < e) ∧ ∀ u, next f.symbol u → f.bar ≤ u

/-- A fill settled its symbol: trading has ended, the track has passed, and nothing is held. -/
def SettledBy (a : Acc) (f : Fill) : Prop :=
  (∃ e ∈ a.lastTrade f.symbol, e ≤ f.bar) ∧ (∃ t, a.lastTime = some t ∧ f.bar ≤ t) ∧ a.units f.symbol = 0

/-- The fills of the open window are in bar order, and trades from `next` on keep it. -/
structure InOrder (n : ℕ) (next : String → ℤ → Prop) (a : Acc) : Prop where
  length : n ≤ a.fills.length
  ordered : BarOrdered (recent n a)
  stands : ∀ f ∈ recent n a, TradedBy next a f ∨ SettledBy a f
  capped : Capped a
  pending : ∀ e ∈ a.pending, e ∈ a.admitted

section InOrder

variable {cfg : ReplayConfig} {w : Window} {n : ℕ} {next next' : String → ℤ → Prop} {a b : Acc}

section

variable (h : InOrder n next a)

include h

theorem InOrder.congr (hrecent : recent n b = recent n a)
    (hlength : b.fills.length = a.fills.length) (hunits : b.units = a.units) (hlast : b.lastTrade = a.lastTrade)
    (hadmitted : b.admitted = a.admitted) (hpending : ∀ e ∈ b.pending, e ∈ a.pending)
    (htime : ∀ t ∈ a.lastTime, ∃ u, b.lastTime = some u ∧ t ≤ u)
    (hnext : ∀ s u, next' s u → ∃ v, next s v ∧ v ≤ u) : InOrder n next' b := by
  refine ⟨?_, ?_, ?_, ?_, ?_⟩
  · rw [hlength]; exact h.length
  · rw [hrecent]; exact h.ordered
  · intro f hf
    rw [hrecent] at hf
    unfold TradedBy SettledBy
    rw [hunits, hlast]
    rcases h.stands f hf with ⟨hends, hbars⟩ | ⟨hends, ⟨t, ht, hle⟩, hzero⟩
    · left
      refine ⟨hends, ?_⟩
      intro u hu
      obtain ⟨v, hv, hvu⟩ := hnext _ u hu; exact (hbars v hv).trans hvu
    · right
      obtain ⟨u, hu, htu⟩ := htime t ht; exact ⟨hends, ⟨u, hu, hle.trans htu⟩, hzero⟩
  · unfold Capped
    rw [hadmitted, hlast]; exact h.capped
  · intro e he
    rw [hadmitted]; exact h.pending e (hpending e he)

theorem InOrder.mono (hnext : ∀ s u, next' s u → ∃ v, next s v ∧ v ≤ u) : InOrder n next' a :=
  h.congr rfl rfl rfl rfl rfl (fun _ h => h) (fun t ht => ⟨t, ht, le_rfl⟩) hnext

theorem InOrder.quiet (hquiet : SameBooks a b) : InOrder n next b :=
  h.congr (recent_of_fills hquiet.fills) (by rw [hquiet.fills]) hquiet.units hquiet.lastTrade hquiet.admitted
    (fun e he => hquiet.pending ▸ he) (fun t ht => ⟨t, hquiet.lastTime.trans ht, le_rfl⟩)
    (fun s u hu => ⟨u, hu, le_rfl⟩)

theorem InOrder.relabel (m : ℕ) : InOrder n next (relabelTrims m a) :=
  h.congr (recent_relabelTrims m a) (length_relabelTrims m a) rfl rfl rfl (fun _ h => h)
    (fun t ht => ⟨t, ht, le_rfl⟩) (fun _ u hu => ⟨u, hu, le_rfl⟩)

end

variable {quantity price feeBps equity : ℚ} {bar : ℤ} {reason : FillReason}

theorem InOrder.book {s : String} {mark : Option ℚ} (h : InOrder n next a)
    (hbook : bookFill bar s quantity price feeBps reason mark equity a = .ok b)
    (hlater : ∀ f ∈ recent n a, f.symbol = s → f.bar ≤ bar)
    (hold : ∀ f ∈ recent n a, TradedBy next' b f ∨ SettledBy b f)
    (hnew : ∀ f : Fill, f.symbol = s → f.bar = bar → TradedBy next' b f ∨ SettledBy b f) :
    InOrder n next' b := by
  obtain ⟨-, f, hf, hb⟩ := bookFill_eq_ok hbook
  have hrecent : recent n b = recent n a ++ [f.unlabelled] := recent_append h.length (by rw [hb])
  have hsymbol : f.unlabelled.symbol = s := by rw [hf]; rfl
  have hbar : f.unlabelled.bar = bar := by rw [hf]; rfl
  refine ⟨?_, ?_, ?_, ?_, ?_⟩
  · rw [hb]; simpa using h.length.trans (Nat.le_succ _)
  · rw [hrecent]
    refine List.pairwise_append.mpr ⟨h.ordered, List.pairwise_singleton _ _, ?_⟩
    intro g hg g' hg' hsame
    rw [List.mem_singleton.mp hg'] at hsame ⊢
    rw [hbar]; exact hlater g hg (hsame.trans hsymbol)
  · intro g hg
    rw [hrecent] at hg
    rcases List.mem_append.mp hg with hg | hg
    · exact hold g hg
    · rw [List.mem_singleton.mp hg]; exact hnew _ hsymbol hbar
  · rw [hb]; exact h.capped
  · rw [hb]; exact h.pending

theorem InOrder.trade {s : String} {mark : Option ℚ} (h : InOrder n next a)
    (hbook : bookFill bar s quantity price feeBps reason mark equity a = .ok b)
    (hbar : ∃ u, next s u ∧ u ≤ bar) (hends : ∀ e ∈ a.lastTrade s, bar < e)
    (htime : ∀ t ∈ a.lastTime, t ≤ bar) (hnext : ∀ x u, next' x u → ∃ v, next x v ∧ v ≤ u)
    (hnew : ∀ u, next' s u → bar ≤ u) : InOrder n next' b := by
  obtain ⟨-, f, hf, hb⟩ := bookFill_eq_ok hbook
  have hlast : b.lastTrade = a.lastTrade := by rw [hb]
  have htime' : b.lastTime = a.lastTime := by rw [hb]
  -- a settled symbol has no trade left: its end of trading is not after the track
  have hopen : ∀ g ∈ recent n a, g.symbol = s → ¬ SettledBy a g := by
    rintro g - rfl ⟨⟨e, he, hle⟩, ⟨t, ht, hgt⟩, -⟩
    have h1 := hends e he
    have h2 := htime t ht; omega
  refine h.book hbook ?_ ?_ ?_
  · intro g hg hs
    rcases h.stands g hg with hg' | hg'
    · obtain ⟨u, hu, hle⟩ := hbar; exact (hg'.2 u (hs ▸ hu)).trans hle
    · exact absurd hg' (hopen g hg hs)
  · intro g hg
    rcases h.stands g hg with hg' | hg'
    · left
      refine ⟨by rw [hlast]; exact hg'.1, ?_⟩
      intro u hu
      obtain ⟨v, hv, hvu⟩ := hnext _ u hu; exact (hg'.2 v hv).trans hvu
    · right
      have hne : g.symbol ≠ s := fun hs => hopen g hg hs hg'
      refine ⟨by rw [hlast]; exact hg'.1, by rw [htime']; exact hg'.2.1, ?_⟩
      rw [hb]
      show Function.update a.units s _ g.symbol = 0
      rw [Function.update_of_ne hne]; exact hg'.2.2
  · intro g hs hgbar
    left
    unfold TradedBy
    rw [hlast, hs, hgbar]; exact ⟨hends, hnew⟩

theorem InOrder.settle {event : SettlementEvent} {price : ℚ} (h : InOrder n next a)
    (hs : Settles cfg w event bar price a)
    (hbook : bookFill bar event.symbol (-(a.units event.symbol)) price event.feeBps
      .delistSettlement (some price) (equityAt w a) a = .ok b) :
    InOrder n next b := by
  obtain ⟨-, f, hf, hb⟩ := bookFill_eq_ok hbook
  have hlast : b.lastTrade = a.lastTrade := by rw [hb]
  have htime' : b.lastTime = a.lastTime := by rw [hb]
  have hpost : f.postUnits = 0 := by rw [hf]; simp
  obtain ⟨e, he, hle⟩ := h.capped event (h.pending event hs.pending)
  have hends : e ≤ bar := hle.trans (event.lastTrade_le_due.trans hs.due_le_bar)
  have hzero : b.units event.symbol = 0 := by
    rw [hb]
    show Function.update a.units event.symbol f.postUnits event.symbol = 0
    rw [Function.update_self, hpost]
  refine h.book hbook ?_ ?_ ?_
  · intro g hg hsame
    rcases h.stands g hg with hg' | hg'
    · have := hg'.1 e (hsame ▸ he); omega
    · exact absurd (hsame ▸ hg'.2.2) hs.held
  · intro g hg
    rcases h.stands g hg with hg' | hg'
    · left
      refine ⟨by rw [hlast]; exact hg'.1, hg'.2⟩
    · right
      have hne : g.symbol ≠ event.symbol := by
        intro hsame; exact hs.held (hsame ▸ hg'.2.2)
      refine ⟨by rw [hlast]; exact hg'.1, by rw [htime']; exact hg'.2.1, ?_⟩
      rw [hb]
      show Function.update a.units event.symbol _ g.symbol = 0
      rw [Function.update_of_ne hne]; exact hg'.2.2
  · intro g hsame hgbar
    right
    unfold SettledBy
    rw [hlast, htime', hsame, hgbar]; exact ⟨⟨e, he, hends⟩, hs.time, hzero⟩

theorem InOrder.step (h : InOrder n next a) (hstep : WindowStep cfg w a b) : InOrder n next b := by
  have later : ∀ s u, next s u → ∃ v, next s v ∧ v ≤ u := fun s u hu => ⟨u, hu, le_rfl⟩
  have advanced : ∀ {mark : ℤ → String → Option ℚ} {target : ℤ} {onGrid preFill : Bool},
      advance w mark target onGrid preFill a = .ok b → InOrder n next b := by
    intro mark target onGrid preFill hadv
    obtain ⟨htime, hb, -⟩ := advance_eq_ok hadv
    refine h.congr (recent_of_fills (by rw [hb])) (by rw [hb]) (by rw [hb]) (by rw [hb]) (by rw [hb]) ?_ ?_ later
    · rw [hb]; exact fun _ h => h
    · intro t ht; exact ⟨target, by rw [hb], htime t ht⟩
  cases hstep with
  | quiet hquiet => exact h.quiet hquiet
  | queue hqueue => exact h.congr rfl rfl rfl rfl rfl hqueue (fun t ht => ⟨t, ht, le_rfl⟩) later
  | anchored _ | override _ _ =>
    exact h.congr rfl rfl rfl rfl rfl (fun _ h => h) (fun t ht => ⟨t, ht, le_rfl⟩) later
  | advance target onGrid hadv | deliver bar _ hadv => exact advanced hadv
  | settle hs hbook => exact h.settle hs hbook

end InOrder

/-! ## The points of a window -/

def EndsTrading (cfg : ReplayConfig) (w : Window) (ends : String → Option ℤ) : Prop :=
  cfg.bound = .ladderedProxy → ∀ s, ∀ t ∈ ends s, ∀ b ∈ w.grid, t ≤ b → ∀ qv ∈ w.quoteVolume b s, qv ≤ 0

section Runs

variable {cfg : ReplayConfig} {w : Window} {n : ℕ} {ends : String → Option ℤ} {a b : Acc}

theorem Fillable.lt_end {o : Order} {bar : ℤ} {price : ℚ} (h : Fillable cfg w o bar price a)
    (hends : EndsTrading cfg w a.lastTrade) : ∀ e ∈ a.lastTrade o.symbol, bar < e := by
  intro e he
  rcases h.bar_lt e he with hlt | ⟨hbound, -⟩
  · exact hlt
  · by_contra hge
    obtain ⟨qv, hqv, hpos⟩ := h.liquid
    have := hends hbound o.symbol e he bar h.bar_mem (not_lt.mp hge) qv hqv; linarith

theorem deadlineBar_le {limit b : ℤ} (hb : b ∈ w.grid) (hle : limit ≤ b) : deadlineBar w limit ≤ b := by
  unfold deadlineBar
  cases h : w.firstFrom limit with
  | none =>
    have := Window.firstFrom_eq_none h b hb; omega
  | some c => exact Window.firstFrom_le h hb hle

/-- The bars of the trades to come: of the running order, the symbols left, the later points. -/
def nextOf (p : Clock) (running : String → ℤ → Prop) (symbols : List String) (qs : List Clock)
    (s : String) (u : ℤ) :
    Prop :=
  running s u ∨ (s ∈ symbols ∧ u = p.submit) ∨ ∃ q ∈ qs, u = q.submit

variable {symbols : List String} {p : Clock}

theorem InOrder.orderRun {o : Order} {floor : ℤ} {qs : List Clock} (hp : p.decision ≤ p.signal)
    (hsignal : o.signal = p.signal) (hsubmit : o.submit = p.submit) (hrest : o.symbol ∉ symbols)
    (hqs : ∀ q ∈ qs, q.submit ∈ w.grid ∧ p.resolve cfg.spec ≤ q.submit)
    (hends : EndsTrading cfg w a.lastTrade) (htime : a.lastTime = some p.decision)
    (hrun : OrderRun cfg w o floor a b)
    (h : InOrder n (nextOf p (fun s u => s = o.symbol ∧ u = floor) symbols qs) a) :
    InOrder n (nextOf p (fun _ _ => False) symbols qs) b := by
  induction hrun with
  | quiet hquiet =>
    refine (h.quiet hquiet).mono ?_
    intro s u hu; exact ⟨u, hu.elim False.elim .inr, le_rfl⟩
  | @fill floor bar quantity price feeBps reason a a' b c hquiet hfloor hfill _ hbook _ ih =>
    obtain ⟨-, f, -, hb⟩ := bookFill_eq_ok hbook
    have hends' : EndsTrading cfg w a'.lastTrade := by rw [hquiet.lastTrade]; exact hends
    have hresolve : ∀ q ∈ qs, bar ≤ q.submit := by
      intro q hq
      obtain ⟨hgrid, hle⟩ := hqs q hq
      refine hfill.bar_le.trans (deadlineBar_le hgrid ?_)
      rw [Order.timeout, hsubmit]; exact hle
    apply ih
    · rw [hb, hquiet.lastTrade]; exact hends
    · rw [hb, hquiet.lastTime]; exact htime
    · refine (h.quiet hquiet).trade hbook ⟨floor, .inl ⟨rfl, rfl⟩, hfloor⟩ (hfill.lt_end hends') ?_ ?_ ?_
      · intro t ht
        rw [hquiet.lastTime, htime, Option.mem_def, Option.some.injEq] at ht
        have h1 := hfill.signal_le
        have h2 := hfill.submit_le; omega
      · rintro x u (⟨hx, hu⟩ | hu)
        · exact ⟨floor, .inl ⟨hx, rfl⟩, by omega⟩
        · exact ⟨u, .inr hu, le_rfl⟩
      · rintro u (⟨-, hu⟩ | ⟨hin, -⟩ | ⟨q, hq, hu⟩)
        · omega
        · exact absurd hin hrest
        · rw [hu]; exact hresolve q hq

theorem InOrder.orders {qs : List Clock} (hp : p.decision ≤ p.signal) (hnodup : symbols.Nodup)
    (hqs : ∀ q ∈ qs, q.submit ∈ w.grid ∧ p.resolve cfg.spec ≤ q.submit)
    (hends : EndsTrading cfg w a.lastTrade) (htime : a.lastTime = some p.decision)
    (horders : Orders cfg w p symbols a b)
    (h : InOrder n (nextOf p (fun _ _ => False) symbols qs) a) :
    InOrder n (nextOf p (fun _ _ => False) [] qs) b := by
  have drop : ∀ {x : Acc} {s : String} {symbols : List String},
      InOrder n (nextOf p (fun _ _ => False) (s :: symbols) qs) x →
        InOrder n (nextOf p (fun _ _ => False) symbols qs) x := by
    intro x s symbols hx
    refine hx.mono ?_
    rintro y u (hu | ⟨hy, hu⟩ | hu)
    · exact hu.elim
    · exact ⟨u, .inr (.inl ⟨List.mem_cons_of_mem s hy, hu⟩), le_rfl⟩
    · exact ⟨u, .inr (.inr hu), le_rfl⟩
  induction horders with
  | done a =>
    refine h.mono ?_
    rintro y u (hu | ⟨hy, -⟩ | hu)
    · exact hu.elim
    · simp at hy
    · exact ⟨u, .inr (.inr hu), le_rfl⟩
  | quiet hquiet _ ih =>
    exact ih hnodup (by rw [hquiet.lastTrade]; exact hends) (hquiet.lastTime.trans htime) (h.quiet hquiet)
  | @order o symbols x y z hdecision hsignal hsubmit _ _ _ hrun _ ih =>
    obtain ⟨hout, hrest⟩ := List.nodup_cons.mp hnodup
    have hstart : InOrder n (nextOf p (fun s u => s = o.symbol ∧ u = p.submit) symbols qs) x := by
      refine h.mono ?_
      rintro s u (⟨hs, hu⟩ | ⟨hs, hu⟩ | hu)
      · exact ⟨u, .inr (.inl ⟨by rw [hs]; exact List.mem_cons_self, hu⟩), le_rfl⟩
      · exact ⟨u, .inr (.inl ⟨List.mem_cons_of_mem _ hs, hu⟩), le_rfl⟩
      · exact ⟨u, .inr (.inr hu), le_rfl⟩
    have hdone := InOrder.orderRun hp hsignal hsubmit hout hqs hends htime hrun hstart
    exact ih hrest (by rw [hrun.frame.1]; exact hends) (hrun.frame.2.trans htime) hdone
  | skip _ ih => exact ih (List.nodup_cons.mp hnodup).2 hends htime (drop h)
  | relabel _ _ ih => exact ih hnodup hends htime (h.relabel _)

theorem Orders.lastTrade (h : Orders cfg w p symbols a b) : b.lastTrade = a.lastTrade := by
  induction h with
  | done a => rfl
  | quiet h _ ih => exact ih.trans h.lastTrade
  | order _ _ _ _ _ _ run _ ih => exact ih.trans run.frame.1
  | skip _ ih | relabel _ _ ih => exact ih

theorem WindowStep.lastTrade (h : WindowStep cfg w a b) : b.lastTrade = a.lastTrade := by
  cases h with
  | quiet h => exact h.lastTrade
  | queue _ | anchored _ | override _ _ => rfl
  | advance _ _ h | deliver _ _ h => rw [(advance_eq_ok h).2.1]
  | settle _ h => exact bookFill_lastTrade h

theorem WindowRun.points_of {ps : List Clock} (h : WindowRun cfg w ps a b) : ∀ p ∈ ps, p.Of w := by
  induction h with
  | done a => simp
  | step _ _ ih => exact ih
  | point hp _ _ _ _ ih =>
    intro q hq
    rcases List.mem_cons.mp hq with rfl | hq
    · exact hp
    · exact ih q hq

/-- **A run whose points are resolved one after another books each symbol in bar order.** -/
theorem InOrder.run {ps : List Clock} (hsignal : ∀ d ∈ w.decisions, d.label ≤ d.signal)
    (hps : ps.Pairwise (fun p q => p.resolve cfg.spec ≤ q.submit)) (hends : EndsTrading cfg w a.lastTrade)
    (hrun : WindowRun cfg w ps a b) (h : InOrder n (fun _ u => ∃ q ∈ ps, u = q.submit) a) :
    BarOrdered (recent n b) := by
  induction hrun with
  | done a => exact h.ordered
  | step hstep _ ih => exact ih hps (by rw [hstep.lastTrade]; exact hends) (h.step hstep)
  | @point p ps symbols x y z hp htime hnodup horders hrest ih =>
    obtain ⟨hafter, hps⟩ := List.pairwise_cons.mp hps
    have hle : p.decision ≤ p.signal := by
      rcases hp with ⟨d, hd, hdec, hsig, -⟩ | ⟨check, hdec, hsig, -⟩
      · rw [hdec, hsig]; exact hsignal d hd
      · rw [hdec, hsig]
    have hqs : ∀ q ∈ ps, q.submit ∈ w.grid ∧ p.resolve cfg.spec ≤ q.submit := fun q hq =>
      ⟨(hrest.points_of q hq).submit_mem, hafter q hq⟩
    have hstart : InOrder n (nextOf p (fun _ _ => False) symbols ps) x := by
      refine h.mono ?_
      rintro s u (hu | ⟨-, hu⟩ | ⟨q, hq, hu⟩)
      · exact hu.elim
      · exact ⟨u, ⟨p, List.mem_cons_self, hu⟩, le_rfl⟩
      · exact ⟨u, ⟨q, List.mem_cons_of_mem p hq, hu⟩, le_rfl⟩
    have hdone := InOrder.orders hle hnodup hqs hends htime horders hstart
    refine ih hps (by rw [horders.lastTrade]; exact hends) (hdone.mono ?_)
    intro s u hu; exact ⟨u, .inr (.inr hu), le_rfl⟩

end Runs

end CryptoPilot.Engine
