/- # Lifecycle — deliveries and rosters over the windows of the generator.

`Fed` is a run of the generator together with one of the accumulators that consume it.  Two things
hold along it at once: the window of the next piece has whatever is held on its roster
(`fed_covers`), and a delivered symbol is flat, because it was on the roster when it fell due
(`fed_lifecycles`). -/
import CryptoPilot.Engine.DeliveryRuns
import CryptoPilot.Engine.Ordinals

namespace CryptoPilot.Engine

open List Function

open CryptoPilot.Live (Exc)
open CryptoPilot.Lib (bind_eq_ok exists_ok foldlM_invariant)

/-! ## Runs of the generator -/

def Market.Knows (m : Market) (e : SettlementEvent) : Prop := ∃ r ∈ m.registry, e = r.event

/-- What a piece loads besides its intents: in live mode at least what the accumulator requires. -/
def Requires (cfg : ReplayConfig) (req : StreamRequest) (mode : RosterMode) (a : Acc) (p : Piece)
    (requirement : List String) : Prop :=
  match mode with
  | .live => ∀ s ∈ requiredSymbols cfg a, s ∈ requirement
  | .targets => requirement = targetRequirement req p.stop

/-- The orders of a window are submitted on bars the ledger still keeps. -/
def Punctual (cfg : ReplayConfig) (a : Acc) (w : Window) : Prop :=
  ∀ p : Clock, p.Expected cfg w a → ∀ t ∈ a.ledgerStart, t ≤ p.submit

/-- A run: the pieces so far, the symbols of the last intents, and the accumulator. -/
inductive Fed (cfg : ReplayConfig) (req : StreamRequest) (m : Market) (mode : RosterMode) :
    List Piece → List String → Acc → Prop
  | init : Fed cfg req m mode [] [] (Acc.init cfg)
  | step {done : List Piece} {previous requirement : List String} {a b : Acc} {p : Piece} {w : Window}
      (h : Fed cfg req m mode done previous a) (hrequires : Requires cfg req mode a p requirement)
      (hw : materialize req m p previous requirement = .ok w) (hpunctual : Punctual cfg a w)
      (hb : consume cfg a w = .ok b) : Fed cfg req m mode (done ++ [p]) (nextActive req p previous) b

def Piece.Overlaps (p q : Piece) : Prop := q.grid.headD 0 ≤ p.grid.getLastD 0

/-- What a stream is cut from: rows inside the replay, signals not before their rows, pieces that
overlap, and, for a ladder, no trade after a delivery. -/
structure Cut (cfg : ReplayConfig) (req : StreamRequest) (m : Market) (ps : List Piece) : Prop where
  labels : ∀ d ∈ req.decisions, req.start ≤ d.label
  signals : ∀ d ∈ req.decisions, d.label ≤ d.signal
  overlap : ps.IsChain Piece.Overlaps
  ended : cfg.bound = .ladderedProxy → ∀ r ∈ m.registry, ∀ b, r.deliveryAt < b →
    ∀ qv ∈ m.quoteVolume b r.symbol, qv ≤ 0

/-! ## Windows of the generator -/

section Windows

variable {cfg : ReplayConfig} {req : StreamRequest} {m : Market} {p : Piece} {previous requirement : List String}
  {w : Window} {a : Acc}

theorem due_event (r : SettlementRecord) : r.event.due = r.deliveryAt := max_self _

section

variable (h : Materialized req m p previous requirement w)

include h

theorem Materialized.posted : Posted m.Knows w where
  events := by
    intro e he
    obtain ⟨r, hr, -, -, rfl⟩ := ((settlementEventsForPiece_eq_ok h.events).2 e).mp he
    exact ⟨r, hr, rfl⟩
  announced := by
    rintro e ⟨r, hr, rfl⟩ hs hann
    refine ((settlementEventsForPiece_eq_ok h.events).2 _).mpr ⟨r, hr, hs, ?_, rfl⟩
    rw [← h.grid]; exact hann

theorem Materialized.fresh (hsignals : ∀ d ∈ p.decisions, d.label ≤ d.signal)
    (hpunctual : Punctual cfg a w)
    (hended : cfg.bound = .ladderedProxy → ∀ r ∈ m.registry, ∀ b, r.deliveryAt < b →
      ∀ qv ∈ m.quoteVolume b r.symbol, qv ≤ 0) :
    Fresh cfg m.Knows a w where
  signal := by
    rw [h.decisions]; exact hsignals
  kept := hpunctual
  ended := by
    rintro hbound e ⟨r, hr, rfl⟩ hs b hb hlast qv hqv
    have hqv : m.quoteVolume b r.symbol = some qv := by
      rw [h.quoteVolume] at hqv; exact hqv
    by_cases hdelivered : r.deliveryAt < b
    · exact hended hbound r hr b hdelivered qv hqv
    · by_contra hpos
      have haccepted := (settlementEventsForPiece_eq_ok h.events).1 r.symbol hs
      have hann : r.announcedAt ≤ p.grid.getLastD 0 := by
        have h1 := Window.mem_le_last hb
        have h2 := r.announced_le
        rw [← h.grid]; exact h2.trans (hlast.trans h1)
      have hemitted : r ∈ emittedRecords m p.grid r.symbol := by
        unfold emittedRecords Market.settlementsFor
        rw [mem_filter, mem_filter]; exact ⟨⟨hr, decide_eq_true rfl⟩, decide_eq_true hann⟩
      unfold settlementsRejected at haccepted
      rw [Bool.or_eq_false_iff, any_eq_false] at haccepted
      have hnone := haccepted.2 r hemitted
      rw [Bool.not_eq_true, any_eq_false] at hnone
      have := hnone b (h.grid ▸ hb)
      simp only [Bool.not_eq_true, Bool.and_eq_false_iff, decide_eq_false_iff_not] at this
      rcases this with hout | hout
      · exact hout ⟨hlast, not_lt.mp hdelivered⟩
      · rw [hqv] at hout
        simp only [Option.any_some, decide_eq_false_iff_not] at hout; exact hout (not_le.mp hpos)

end

def overlapping (req : StreamRequest) (m : Market) (s : String) : List SettlementRecord :=
  (m.settlementsFor s).filter (fun r => decide (¬ (r.deliveryAt ≤ req.start ∨ req.stop ≤ r.announcedAt)))

theorem Materialized.overlapping_le (h : Materialized req m p previous requirement w) {s : String}
    (hs : s ∈ w.symbols) :
    (overlapping req m s).length ≤ 1 := by
  have haccepted := (settlementEventsForPiece_eq_ok h.events).1 s hs
  unfold settlementsRejected at haccepted
  rw [Bool.or_eq_false_iff, decide_eq_false_iff_not, not_lt] at haccepted; exact haccepted.1

variable (cfg) in
theorem keeps_wanted {P : String → Prop}
    (hP : ∀ s ∈ w.symbols, (∃ d ∈ w.decisions, ∃ x, d.target s = some x ∧ x ≠ 0) → P s) :
    KeepsOn cfg w (fun _ => True) (fun x => ∀ s, x.units s ≠ 0 → P s) where
  quiet := fun h hx => by rw [h.units]; exact hx
  queue := fun _ h => h
  anchored := fun _ h => h
  override := fun _ h => h
  advance := by
    intro x y mark target onGrid preFill h hx
    rw [(advance_eq_ok h).2.1]; exact hx
  settle := by
    intro x y event bar price hs h hx s hheld
    obtain ⟨-, f, hf, hy⟩ := bookFill_eq_ok h
    have hunits : y.units = Function.update x.units event.symbol f.postUnits := by rw [hy]
    by_cases hsymbol : s = event.symbol
    · rw [hunits, hsymbol, hf] at hheld; simp at hheld
    · rw [hunits, update_of_ne hsymbol] at hheld; exact hx s hheld
  trade := by
    intro x₀ x y q o bar quantity price feeBps reason hx₀ _ hwants hexec _ h hx s hheld
    obtain ⟨-, f, hf, hy⟩ := bookFill_eq_ok h
    have hunits : y.units = Function.update x.units o.symbol f.postUnits := by rw [hy]
    by_cases hsymbol : s = o.symbol
    · rw [hsymbol]
      rcases hwants with hwants | hwants
      · exact hx₀ _ hwants
      · exact hP _ hexec.roster hwants
    · rw [hunits, update_of_ne hsymbol] at hheld; exact hx s hheld
  relabel := fun _ h => h

variable (cfg) in
theorem keeps_trades {P : ℤ → String → Prop} (hP : ∀ b ∈ w.grid, ∀ s ∈ w.symbols, P b s) :
    KeepsOn cfg w (fun _ => True)
      (fun x => ∀ f ∈ x.fills, f.reason ≠ .delistSettlement → P f.bar f.symbol) where
  quiet := fun h hx => by rw [h.fills]; exact hx
  queue := fun _ h => h
  anchored := fun _ h => h
  override := fun _ h => h
  advance := by
    intro x y mark target onGrid preFill h hx
    rw [(advance_eq_ok h).2.1]; exact hx
  settle := by
    intro x y event bar price hs h hx f hf hr
    obtain ⟨-, g, hg, hy⟩ := bookFill_eq_ok h
    rw [hy] at hf
    rcases mem_append.mp hf with hf | hf
    · exact hx f hf hr
    · rw [mem_singleton.mp hf, hg] at hr; exact absurd rfl hr
  trade := by
    intro x₀ x y q o bar quantity price feeBps reason _ _ _ hexec _ h hx f hf hr
    obtain ⟨-, g, hg, hy⟩ := bookFill_eq_ok h
    rw [hy] at hf
    rcases mem_append.mp hf with hf | hf
    · exact hx f hf hr
    · rw [mem_singleton.mp hf, hg]; exact hP bar hexec.bar_mem o.symbol hexec.roster
  relabel := by
    intro x n hreason hx f hf hr
    obtain ⟨g, hg, hbar, hsymbol, hgr⟩ := mem_relabelTrims hreason hf
    rw [← hbar, ← hsymbol]; exact hx g hg (hgr hr)

end Windows

/-! ## Bars of the replay -/

section Bars

variable {req : StreamRequest}

theorem partitionGrid_lt_stop {previous : Option Decision} {ds : List Decision} {isLast : Bool} {x : ℤ}
    (hx : x ∈ partitionGrid req previous ds isLast) : x < req.stop := by
  have hle := (mem_dateRange hx).2
  have hstep : (0 : ℤ) < stepNs := by decide
  omega

variable {plan : Option (ℕ × ℕ → ℕ)}

theorem allPieces_lt_stop :
    ∀ {parts : List (ℕ × List Decision)} {previous : Option Decision} {ps : List Piece},
      allPieces req plan previous parts = .ok ps → ∀ p ∈ ps, ∀ x ∈ p.grid, x < req.stop
  | [], previous, ps, h => by
    rw [allPieces, Except.ok.injEq] at h
    rw [← h]; simp
  | (i0, ds) :: rest, previous, ps, h => by
    rw [allPieces, bind_eq_ok] at h
    obtain ⟨qs, hqs, h⟩ := h
    obtain ⟨later, hlater, h⟩ := bind_eq_ok.mp h
    rw [Except.ok.injEq] at h
    rw [← h]
    intro p hp x hx
    rcases mem_append.mp hp with hp | hp
    · exact partitionGrid_lt_stop ((partitionPieces_within hqs p hp).bars.subset hx)
    · exact allPieces_lt_stop hlater p hp x hx

/-- **No piece has a bar at or after the end of the replay.** -/
theorem pieces_lt_stop {ps : List Piece} (h : pieces req plan = .ok ps) :
    ∀ p ∈ ps, ∀ x ∈ p.grid, x < req.stop := by
  unfold pieces at h
  split at h
  · cases h
  · split at h
    · rw [Except.ok.injEq] at h
      rw [← h]
      intro p hp x hx
      rw [mem_singleton.mp hp] at hx
      have hstep : (0 : ℤ) < stepNs := by decide
      have := (mem_dateRange hx).2; omega
    · exact allPieces_lt_stop h

end Bars

/-! ## Runs -/

section Runs

variable {cfg : ReplayConfig} {req : StreamRequest} {m : Market} {mode : RosterMode} {plan : Option (ℕ × ℕ → ℕ)}
  {ps done : List Piece} {previous requirement : List String} {a b : Acc} {p : Piece} {w : Window}

structure Stream (cfg : ReplayConfig) (req : StreamRequest) (m : Market) (done : List Piece) (a : Acc) : Prop where
  lifecycles : Lifecycles cfg m.Knows a
  fills : done = [] → a.fills = []
  gridEnd : ∀ q ∈ done.getLast?, q.grid ≠ [] ∧ a.gridEnd = q.grid.getLastD 0
  held : ∀ s, a.units s ≠ 0 → done ≠ [] ∧ cfg.columns = req.columns ∧ s ∈ req.columns ∧
    targeted (yielded done) s = true
  trades : ∀ f ∈ a.fills, f.reason ≠ .delistSettlement → req.start ≤ f.bar ∧ (overlapping req m f.symbol).length ≤ 1

section

variable (hps : pieces req plan = .ok ps) (hcut : Cut cfg req m ps) (hnext : done ++ [p] <+: ps)
  (h : Stream cfg req m done a) (hrequires : Requires cfg req mode a p requirement)
  (hw : Materialized req m p previous requirement w)

include hps hcut hnext h hrequires hw

/-- **The window of the next piece has whatever is held**: the targets so far require it, and what
was delivered is flat. -/
theorem Stream.covers : ∀ s, a.units s ≠ 0 → s ∈ w.symbols := by
  intro s hheld
  obtain ⟨hne, hcolumns, hs, htarget⟩ := h.held s hheld
  obtain ⟨q, hq⟩ : ∃ q, done.getLast? = some q := by
    rw [getLast?_eq_some_getLast hne]; exact ⟨_, rfl⟩
  have hrequired : s ∈ requirement := by
    cases mode with
    | live =>
      apply hrequires
      unfold requiredSymbols
      rw [mem_filter, hcolumns]; exact ⟨hs, by simp [hheld]⟩
    | targets =>
      rw [hrequires]
      unfold targetRequirement
      rw [mem_filter]
      refine ⟨hs, ?_⟩
      obtain ⟨hordered, htaken⟩ := pieces_scheduled hps
      have hsub := (hordered.sublist hnext.sublist)
      unfold targeted at htarget ⊢
      rw [any_eq_true] at htarget ⊢
      obtain ⟨d, hd, hx⟩ := htarget
      obtain ⟨q', hq', hd⟩ := mem_flatMap.mp hd
      have hmem : q' ∈ ps := hnext.subset (mem_append_left _ hq')
      have hle := (pairwise_append.mp hsub).2.2 q' hq' p (by simp)
      exact ⟨d, take_subset_take_left _ hle (htaken q' hmem d hd), hx⟩
  rw [hw.symbols, mem_filter]
  constructor
  · unfold pieceRoster
    rw [mem_filter]; exact ⟨hs, by simp [hrequired]⟩
  · -- a delivery before the piece is a delivery inside the pieces before it
    rw [Bool.not_eq_true', ← Bool.not_eq_true]
    intro hsettled
    unfold settledBeforePiece at hsettled
    rw [Bool.and_eq_true, any_eq_true] at hsettled
    obtain ⟨⟨r, hr, hbefore⟩, -⟩ := hsettled
    unfold Market.settlementsFor at hr
    rw [mem_filter, decide_eq_true_eq] at hr
    have hoverlap : p.grid.headD 0 ≤ q.grid.getLastD 0 := by
      obtain ⟨rest, hrest⟩ := hnext
      have hchain := hcut.overlap
      rw [← hrest] at hchain; exact (isChain_append.mp (isChain_append.mp hchain).1).2.2 q hq p rfl
    have hend := (h.gridEnd q hq).2
    have hbefore : r.deliveryAt < p.grid.headD 0 := of_decide_eq_true hbefore
    have hflat := h.lifecycles.flat r.event ⟨r, hr.1, rfl⟩ (by rw [due_event]; omega)
    exact hheld (hr.2 ▸ hflat)

theorem Stream.step (hpunctual : Punctual cfg a w) (hb : consume cfg a w = .ok b) :
    Stream cfg req m (done ++ [p]) b := by
  have hp : p ∈ ps := hnext.subset (by simp)
  have hfrom := pieces_from_start hcut.labels hps p hp
  have hfresh : Fresh cfg m.Knows a w := hw.fresh (fun d hd => hcut.signals d (hfrom.2 d hd)) hpunctual hcut.ended
  have hlife := consume_delivers h.lifecycles hfresh hw.posted (h.covers hps hcut hnext hrequires hw) hb
  obtain ⟨haccepts, y, d, hy, hd, hbd⟩ := consume_eq_ok hb
  simp only [acceptsWindow, Bool.and_eq_true, decide_eq_true_eq] at haccepts
  have hcolumns : cfg.columns = req.columns := haccepts.1.1.1.symm.trans hw.columns
  have hd' := appendLedger_eq_ok hd
  have hunits : b.units = y.units := by rw [hbd, hd']
  have hfills : b.fills = y.fills := by rw [hbd, hd']
  obtain ⟨c, qs, hc, hrun, -⟩ := consumeIntents_run hy
  have ho := admissions_opening hc h.lifecycles.capped h.lifecycles.pending
  refine ⟨hlife, by simp, ?_, ?_, ?_⟩
  · intro q hq
    rw [getLast?_concat, Option.mem_def, Option.some.injEq] at hq
    have hne : q.grid ≠ [] := by
      rw [← hq, ← hw.grid]
      intro hnil
      have hlength := haccepts.1.2
      rw [hnil] at hlength; simp at hlength
    refine ⟨hne, ?_⟩
    have hstart : c.gridEnd = w.last := by rw [ho.eq]
    have hend : y.gridEnd = w.last := (keeps_gridEnd w.last).run hrun hstart
    have hgrid : b.gridEnd = y.gridEnd := by rw [hbd, hd']
    rw [← hq, ← hw.grid, hgrid, hend]; rfl
  · -- what is held was held before the piece, or a decision of the piece targets it
    have hwanted := (keeps_wanted cfg (w := w) (P := fun s => s ∈ req.columns ∧
      targeted (yielded (done ++ [p])) s = true) ?_).run hrun (fun _ _ => trivial) ?_
    · intro s hs
      rw [hunits] at hs
      obtain ⟨hin, htarget⟩ := hwanted s hs; exact ⟨by simp, hcolumns, hin, htarget⟩
    · rintro s hs ⟨d, hd, x, hx, hne⟩
      refine ⟨?_, ?_⟩
      · rw [← hw.columns]; exact w.symbols_sub s hs
      · unfold targeted
        rw [any_eq_true]
        refine ⟨d, ?_, by simp [hx, hne]⟩
        rw [hw.decisions] at hd
        rw [yielded_append]; exact mem_append_right _ (by simpa [yielded] using hd)
    · intro s hs
      rw [ho.eq] at hs
      obtain ⟨-, -, hin, htarget⟩ := h.held s hs
      refine ⟨hin, ?_⟩
      unfold targeted at htarget ⊢
      rw [any_eq_true] at htarget ⊢
      obtain ⟨d, hd, hx⟩ := htarget
      refine ⟨d, ?_, hx⟩
      rw [yielded_append]; exact mem_append_left _ hd
  · rw [hfills]
    refine (keeps_trades cfg (w := w) (P := fun x s => req.start ≤ x ∧ (overlapping req m s).length ≤ 1)
      ?_).run hrun (fun _ _ => trivial) ?_
    · intro x hx s hs; exact ⟨hfrom.1 x (hw.grid ▸ hx), hw.overlapping_le hs⟩
    · rw [ho.eq]; exact h.trades

end

theorem stream_init : Stream cfg req m [] (Acc.init cfg) :=
  ⟨lifecycles_init cfg _, fun _ => rfl, by simp, fun s hs => absurd rfl hs, by simp [Acc.init]⟩

/-- **Every run of the generator** whose orders are submitted on bars the ledger keeps. -/
theorem fed_stream (hps : pieces req plan = .ok ps) (hcut : Cut cfg req m ps)
    (h : Fed cfg req m mode done previous a)
    (hdone : done <+: ps) : Stream cfg req m done a := by
  induction h with
  | init => exact stream_init
  | step _ hrequires hw hpunctual hb ih =>
    have hbefore := ih ((prefix_append _ _).trans hdone)
    exact hbefore.step hps hcut hdone hrequires (materialize_eq_ok hw) hpunctual hb

/-! ## Rosters -/

/-- **Window rosters cover held inventory, and the rows of the target path are yielded once**
exactly when every partition that the budget cuts has room for its rows. -/
theorem windows_cover_holdings (hps : pieces req plan = .ok ps) :
    (yielded ps = req.decisions ↔ RequestResolves req plan) ∧
      (Cut cfg req m ps → ∀ {done rest : List Piece} {previous requirement : List String} {a : Acc} {p : Piece}
        {w : Window}, ps = done ++ p :: rest → Fed cfg req m mode done previous a →
        Requires cfg req mode a p requirement → materialize req m p previous requirement = .ok w →
        ∀ s, a.units s ≠ 0 → s ∈ w.symbols) := by
  refine ⟨(pieces_decisions hps).2, ?_⟩
  intro hcut done rest previous requirement a p w hsplit hfed hrequires hw
  have hnext : done ++ [p] <+: ps := ⟨rest, by rw [hsplit]; simp⟩
  have hstream := fed_stream hps hcut hfed ((prefix_append _ _).trans hnext)
  exact hstream.covers hps hcut hnext hrequires (materialize_eq_ok hw)

/-! ## Deliveries -/

theorem exists_trade {fills : List Fill} {s : String} (h : tradedUnits fills s ≠ 0) :
    ∃ f ∈ fills, f.symbol = s ∧ f.reason ≠ .delistSettlement := by
  by_contra hnone
  apply h
  have hnil : fills.filter (fun f => decide (f.symbol = s) && decide (f.reason ≠ .delistSettlement)) = [] := by
    rw [filter_eq_nil_iff]
    intro f hf hkeep
    rw [Bool.and_eq_true, decide_eq_true_eq, decide_eq_true_eq] at hkeep; exact hnone ⟨f, hf, hkeep⟩
  unfold tradedUnits
  rw [hnil]; rfl

theorem Stream.record_unique (h : Stream cfg req m done a) {s : String} (htraded : tradedUnits a.fills s ≠ 0)
    {r r' : SettlementRecord} (hr : r ∈ m.registry) (hr' : r' ∈ m.registry) (hs : r.symbol = s)
    (hs' : r'.symbol = s)
    (hstop : r.deliveryAt < req.stop) (hstop' : r'.deliveryAt < req.stop) : r = r' := by
  obtain ⟨f, hf, hsymbol, hreason⟩ := exists_trade htraded
  obtain ⟨hstart, hone⟩ := h.trades f hf hreason
  rw [hsymbol] at hone
  have hmem : ∀ x ∈ m.registry, x.symbol = s → x.deliveryAt < req.stop → x ∈ overlapping req m s := by
    intro x hx hxs hxstop
    have h1 : f.bar < x.lastTradeAt := h.lifecycles.traded f hf hreason x.event ⟨x, hx,
      rfl⟩ (hxs.trans hsymbol.symm)
    have h2 := x.lastTrade_le
    have h3 := x.announced_le
    unfold overlapping Market.settlementsFor
    rw [mem_filter, mem_filter]
    refine ⟨⟨hx, decide_eq_true hxs⟩, decide_eq_true ?_⟩; omega
  have hr := hmem r hr hs hstop
  have hr' := hmem r' hr' hs' hstop'
  match hlist : overlapping req m s, hone with
  | [], _ =>
    rw [hlist] at hr; simp at hr
  | [x], _ =>
    rw [hlist, mem_singleton] at hr hr'
    rw [hr, hr']

/-- A settled lifecycle: one settlement, which books out what was traded at the price of the record
on the first ledger bar from the delivery on, and no inventory after it. -/
structure SettledOnce (cfg : ReplayConfig) (b : Acc) (r : SettlementRecord) (f : Fill) : Prop where
  only : deliveries b.fills r.symbol = [f]
  quantity : f.quantity = -(tradedUnits b.fills r.symbol)
  price : settlementFillPrice r.event (tradedUnits b.fills r.symbol) cfg.spec = .ok f.price
  bar : f.bar ∈ rowBars b
  due : r.event.due ≤ f.bar
  first : ∀ x ∈ rowBars b, r.event.due ≤ x → f.bar ≤ x
  units : b.units r.symbol = 0
  mirror : b.mirror.units r.symbol = 0
  ledger : b.ledgerUnits r.symbol = 0
  /-- the next advance of the fill track charges nothing of the symbol -/
  span : ∀ (w : Window) (target : ℤ) (preFill : Bool) (x : ℤ), spanUnits w b target preFill r.symbol x = 0

theorem Stream.settledOnce (hps : pieces req plan = .ok ps) (hdone : done <+: ps) (h : Stream cfg req m done a)
    {r : SettlementRecord} (hr : r ∈ m.registry) (hdue : r.event.due ≤ a.gridEnd)
    (htraded : tradedUnits a.fills r.symbol ≠ 0) :
    ∃ f, SettledOnce cfg a r f ∧ Delivered cfg (rowBars a) a r.symbol r.event f := by
  have hl := h.lifecycles
  have hflat : a.units r.symbol = 0 := hl.flat r.event ⟨r, hr, rfl⟩ hdue
  rcases hl.accounts r.symbol with ⟨-, hunits⟩ | ⟨e, f, hd⟩
  · exact absurd (hunits.symm.trans hflat) htraded
  · -- every bar of the ledger is before the end of the replay
    have hend : a.gridEnd < req.stop := by
      have hne : done ≠ [] := by
        intro hnil
        rw [h.fills hnil] at htraded; exact htraded rfl
      have hlast := getLast?_eq_some_getLast hne
      obtain ⟨hgrid, hq⟩ := h.gridEnd _ hlast
      rw [hq, getLastD_eq_getLast?, getLast?_eq_some_getLast hgrid]
      exact pieces_lt_stop hps _ (hdone.subset (getLast_mem hne)) _ (getLast_mem hgrid)
    obtain ⟨r', hr', rfl⟩ := hl.registry e hd.admitted
    have hbar := hl.rows f.bar hd.bar
    have hsame : r = r' := by
      refine h.record_unique htraded hr hr' rfl hd.symbol ?_ ?_
      · rw [← due_event]; omega
      · rw [← due_event]; exact (hd.due.trans hbar).trans_lt hend
    subst hsame
    refine ⟨f, ?_, hd⟩
    exact
      { only := hd.only, quantity := hd.quantity, price := hd.price, bar := hd.bar, due := hd.due, first := hd.first
        units := hd.flat
        mirror := by rw [hl.mirror]; exact hd.flat
        ledger := hl.closed _ _ _ hd
        span := by
          intro w target preFill x
          have hnone : fillsInSpan a target r.symbol = [] := by
            unfold fillsInSpan
            rw [filter_eq_nil_iff]
            intro g hg hspan
            simp only [Bool.and_eq_true, decide_eq_true_eq] at hspan
            obtain ⟨t, ht, hle⟩ := hd.time
            have hafter := hspan.1.2
            rw [ht, Option.all_some, decide_eq_true_eq] at hafter
            have hlast := fun hr => hl.traded g hg hr r.event ⟨r, hr', rfl⟩ hspan.1.1.symm
            rcases hd.bar_le hlast hg hspan.1.1 with rfl | hlt
            · omega
            · omega
          unfold spanUnits
          rw [hnone, hd.flat]
          simp }

/-- **Delivery is settled exactly once and ends trading**, for every lifecycle that falls due by the
end of the window; `y` is the state of the next window before its ledger. -/
theorem delivery_settles_once {rest : List Piece} {y : Acc} (hps : pieces req plan = .ok ps)
    (hcut : Cut cfg req m ps)
    (hsplit : ps = done ++ p :: rest) (hfed : Fed cfg req m mode done previous a)
    (hrequires : Requires cfg req mode a p requirement) (hw : materialize req m p previous requirement = .ok w)
    (hpunctual : Punctual cfg a w) (hy : consumeIntents cfg w { a with gridEnd := w.last } = .ok y)
    (hb : consume cfg a w = .ok b) {r : SettlementRecord} (hr : r ∈ m.registry) (hdue : r.event.due ≤ w.last) :
    (∀ f ∈ b.fills, f.symbol = r.symbol → f.reason ≠ .delistSettlement → f.bar < r.lastTradeAt) ∧
      (tradedUnits b.fills r.symbol = 0 → deliveries b.fills r.symbol = []) ∧
      (tradedUnits b.fills r.symbol ≠ 0 → ∃ f, SettledOnce cfg b r f ∧ ∀ x,
        (f.bar ≤ x → chunkUnits y (y.fills.drop a.fills.length) r.symbol x = 0) ∧
        (f.bar < x → chunkFunding w y (y.fills.drop a.fills.length) r.symbol x = 0 ∧
          mirrorUnits y.mirrorPending y.mirror r.symbol x = 0)) := by
  have hnext : done ++ [p] <+: ps := ⟨rest, by rw [hsplit]; simp⟩
  have hmat := materialize_eq_ok hw
  have ha := fed_stream hps hcut hfed ((prefix_append _ _).trans hnext)
  have hstream := fed_stream hps hcut (.step hfed hrequires hw hpunctual hb) hnext
  have hend : b.gridEnd = w.last := by
    rw [((hstream.gridEnd p getLast?_concat).2), ← hmat.grid]; rfl
  refine ⟨?_, ?_, ?_⟩
  · intro f hf hs hreason; exact hstream.lifecycles.traded f hf hreason r.event ⟨r, hr, rfl⟩ hs.symm
  · intro hzero
    rcases hstream.lifecycles.accounts r.symbol with ⟨hnone, -⟩ | ⟨e, f, hd⟩
    · exact hnone
    · exact absurd hzero hd.held
  · intro htraded
    obtain ⟨f, hsettled, hd⟩ := hstream.settledOnce hps hnext hr (by rw [hend]; exact hdue) htraded
    refine ⟨f, hsettled, fun x => ?_⟩
    -- the settlement seen from the state before the ledger of the window
    obtain ⟨hbars, -, later, hrows, hlater, hkept⟩ := consume_rows hb
    have hrowBars : rowBars b = rowBars a ++ keptBars w a := by
      unfold rowBars
      rw [hrows, map_append, hlater]
    obtain ⟨-, y', d, hy', hd', hbd⟩ := consume_eq_ok hb
    rw [hy, Except.ok.injEq] at hy'
    subst hy'
    have hbooks := appendLedger_eq_ok hd'
    have hdy : Delivered cfg (rowBars a ++ keptBars w a) y r.symbol r.event f := by
      rw [← hrowBars]
      refine hd.congr ?_ ?_ ?_ ?_ ?_
      · rw [hbd, hbooks]
      · rw [hbd, hbooks]
      · rw [hbd, hbooks]
      · rw [hbd, hbooks]; exact fun _ h => h
      · intro t ht
        refine ⟨t, ?_, le_rfl⟩
        rw [hbd, hbooks] at ht; exact ht
    have hp : p ∈ ps := hnext.subset (by simp)
    have hfresh : Fresh cfg m.Knows a w := hmat.fresh
      (fun d hd => hcut.signals d ((pieces_from_start hcut.labels hps p hp).2 d hd)) hpunctual hcut.ended
    obtain ⟨c, hcloses⟩ := consumeIntents_closes ha.lifecycles hfresh hmat.posted
      (ha.covers hps hcut hnext hrequires hmat) hbars hkept hy
    exact hcloses.uncharged ha.lifecycles hdy x

/-! ### A delivery in the second piece -/

def deliveringRequest : StreamRequest where
  columns := ["AUSDT"]
  decisions := [⟨1000 * stepNs, 1000 * stepNs, fun _ => some (1 / 2)⟩]
  start := 1000 * stepNs
  stop := 1008 * stepNs
  spec := oneDecision.spec
  columns_nodup := oneDecision.columns_nodup

def endingLifecycle : SettlementRecord where
  symbol := "AUSDT"
  eventId := "AUSDT:1"
  announcedAt := 1002 * stepNs
  lastTradeAt := 1003 * stepNs
  deliveryAt := 1004 * stepNs
  settlementPrice := 2
  priceSource := .venue
  feeBps := 0
  digest := "d"
  announced_le := by decide
  lastTrade_le := by decide
  price_pos := by decide +kernel
  fee_nonneg := by decide +kernel

/-- Trades end with the lifecycle; `rate` is the funding of the delivery bar. -/
def deliveringMarket (rate : ℚ) : Market where
  high := fun _ _ => some 1
  low := fun _ _ => some 1
  close := fun _ _ => some 1
  fundingRate := fun b _ => if b = 1004 * stepNs then rate else 0
  fundingKnown := fun _ _ => true
  quoteVolume := fun b _ => some (if b < 1003 * stepNs then 1 else 0)
  halts := []
  registry := [endingLifecycle]

def deliveringPieces : List Piece :=
  [⟨[1000 * stepNs, 1001 * stepNs, 1002 * stepNs, 1003 * stepNs], 0, deliveringRequest.decisions, 1, (0, 1), true⟩,
    ⟨[1003 * stepNs, 1004 * stepNs, 1005 * stepNs, 1006 * stepNs], 1, [], 1, (0, 1), false⟩,
    ⟨[1006 * stepNs, 1007 * stepNs], 1, [], 1, (0, 1), false⟩]

theorem deliveringPieces_eq : pieces deliveringRequest (some (fun _ => 4)) = .ok deliveringPieces := by
  rfl

theorem deliveringCut (rate : ℚ) : Cut takerConfig deliveringRequest (deliveringMarket rate) deliveringPieces where
  labels := by decide
  signals := by decide
  overlap := by
    unfold deliveringPieces Piece.Overlaps; decide
  ended := by
    intro hbound; cases hbound

theorem punctual_of_idle {x : Acc} (htrim : cfg.spec.nameDriftTrimMaxWeight = none) (hw : w.decisions = []) :
    Punctual cfg x w := by
  rintro q (⟨d, hd, -⟩ | ⟨hsome, -⟩)
  · rw [hw] at hd; simp at hd
  · rw [htrim] at hsome; simp at hsome

theorem punctual_init : Punctual cfg (Acc.init cfg) w := by
  intro q _ t ht; simp [Acc.init] at ht

theorem delivering_run : ∃ w₀ a w y b, materialize deliveringRequest
    (deliveringMarket 0) deliveringPieces[0] [] [] = .ok w₀ ∧
    consume takerConfig (Acc.init takerConfig) w₀ = .ok a ∧
    materialize deliveringRequest (deliveringMarket 0) deliveringPieces[1] ["AUSDT"]
      (requiredSymbols takerConfig a) = .ok w ∧
    consumeIntents takerConfig w { a with gridEnd := w.last } = .ok y ∧ consume takerConfig a w = .ok b ∧
    a.units "AUSDT" ≠ 0 ∧ tradedUnits b.fills "AUSDT" ≠ 0 := by
  obtain ⟨w₀, hw₀, h⟩ := exists_ok
    (x := materialize deliveringRequest (deliveringMarket 0) deliveringPieces[0] [] [])
    (p := fun w₀ => (consume takerConfig (Acc.init takerConfig) w₀).toOption.any (fun a : Acc =>
      (materialize deliveringRequest (deliveringMarket 0) deliveringPieces[1] ["AUSDT"]
        (requiredSymbols takerConfig a)).toOption.any (fun w : Window =>
          (consumeIntents takerConfig w { a with gridEnd := w.last }).toOption.isSome &&
          (consume takerConfig a w).toOption.any (fun b : Acc =>
            decide (a.units "AUSDT" ≠ 0) && decide (tradedUnits b.fills "AUSDT" ≠ 0))))) (by decide +kernel)
  obtain ⟨a, ha, h⟩ := exists_ok h
  obtain ⟨w, hw, h⟩ := exists_ok h
  rw [Bool.and_eq_true] at h
  obtain ⟨y, hy, -⟩ := exists_ok (x := consumeIntents takerConfig w { a with gridEnd := w.last })
    (p := fun _ => true) (by simpa [Option.any_eq_true, Option.isSome_iff_exists] using h.1)
  obtain ⟨b, hb, h⟩ := exists_ok h.2
  simp only [Bool.and_eq_true, decide_eq_true_eq] at h
  exact ⟨w₀, a, w, y, b, hw₀, ha, hw, hy, hb, h⟩

theorem delivering_fed {w₀ : Window} {a : Acc}
    (hw₀ : materialize deliveringRequest (deliveringMarket 0) deliveringPieces[0] [] [] = .ok w₀)
    (ha : consume takerConfig (Acc.init takerConfig) w₀ = .ok a) :
    Fed takerConfig deliveringRequest (deliveringMarket 0) .live [deliveringPieces[0]] ["AUSDT"] a := by
  have hrequires : Requires takerConfig deliveringRequest .live (Acc.init takerConfig) deliveringPieces[0] [] := by
    intro s hs; exact hs
  have hnext : nextActive deliveringRequest deliveringPieces[0] [] = ["AUSDT"] := by decide +kernel
  have hstep := Fed.step .init hrequires hw₀ punctual_init ha
  rw [hnext] at hstep; exact hstep

theorem deliveringPieces_split :
    deliveringPieces = [deliveringPieces[0]] ++ deliveringPieces[1] :: [deliveringPieces[2]] := rfl

/-- The position of the first piece is on the roster of the second, where it is settled at twice its
price. -/
theorem delivering_settles_once : ∃ b f, SettledOnce takerConfig b endingLifecycle f := by
  obtain ⟨w₀, a, w, y, b, hw₀, ha, hw, hy, hb, -, htraded⟩ := delivering_run
  have hmat := materialize_eq_ok hw
  have hdue : endingLifecycle.event.due ≤ w.last := by
    unfold Window.last
    rw [hmat.grid]; decide
  obtain ⟨-, -, hsettled⟩ := delivery_settles_once deliveringPieces_eq (deliveringCut 0) deliveringPieces_split
    (delivering_fed hw₀ ha) (fun _ h => h) hw (punctual_of_idle rfl (by rw [hmat.decisions]; rfl)) hy hb
    (r := endingLifecycle) (by simp [deliveringMarket]) hdue
  obtain ⟨f, hf, -⟩ := hsettled htraded; exact ⟨b, f, hf⟩

/-- Funding of the delivery bar itself is charged, on the inventory before the settlement. -/
theorem delivery_bar_charged : ∃ res, replayStream takerConfig deliveringRequest
    (deliveringMarket (1 / 100)) .live none =
    .ok res ∧ ∃ f ∈ res.fills, f.reason = .delistSettlement ∧ f.bar = 1004 * stepNs ∧
      ∃ row ∈ res.rows, row.bar = f.bar ∧ row.funding ≠ 0 := by
  obtain ⟨res, hres, h⟩ := exists_ok
    (x := replayStream takerConfig deliveringRequest (deliveringMarket (1 / 100)) .live none)
    (p := fun res => res.fills.any (fun f =>
      decide (f.reason = .delistSettlement) && decide (f.bar = 1004 * stepNs) &&
      res.rows.any (fun row => decide (row.bar = f.bar) && decide (row.funding ≠ 0)))) (by decide +kernel)
  rw [any_eq_true] at h
  obtain ⟨f, hf, h⟩ := h
  simp only [Bool.and_eq_true, decide_eq_true_eq, any_eq_true] at h
  exact ⟨res, hres, f, hf, h.1.1, h.1.2, h.2⟩

theorem delivering_windows_cover : ∃ (a : Acc) (w : Window), a.units "AUSDT" ≠ 0 ∧ "AUSDT" ∈ w.symbols ∧
    Fed takerConfig deliveringRequest (deliveringMarket 0) .live [deliveringPieces[0]] ["AUSDT"] a ∧
    materialize deliveringRequest (deliveringMarket 0) deliveringPieces[1] ["AUSDT"]
      (requiredSymbols takerConfig a) = .ok w := by
  obtain ⟨w₀, a, w, y, b, hw₀, ha, hw, -, -, hheld, -⟩ := delivering_run
  have hfed := delivering_fed hw₀ ha
  have hcovers := (windows_cover_holdings deliveringPieces_eq).2 (deliveringCut 0) deliveringPieces_split hfed
    (fun _ h => h) hw
  exact ⟨a, w, hheld, hcovers _ hheld, hfed, hw⟩

def lateRequest : StreamRequest where
  columns := ["AUSDT"]
  decisions :=
    [⟨1000 * stepNs, 1000 * stepNs, fun _ => some (1 / 2)⟩, ⟨1004 * stepNs, 1004 * stepNs, fun _ => some (1 / 4)⟩,
      ⟨1007 * stepNs + minuteNs, 1007 * stepNs + minuteNs, fun _ => some 0⟩]
  start := 1000 * stepNs
  stop := 1008 * stepNs
  spec := oneDecision.spec
  columns_nodup := oneDecision.columns_nodup

/-- Pieces of five bars yield two of the three decisions, and raise nothing. -/
theorem late_decision_dropped : ∃ ps, pieces lateRequest (some (fun _ => 5)) = .ok ps ∧
    (yielded ps).length = 2 ∧ yielded ps ≠ lateRequest.decisions ∧
      ∃ qs, pieces lateRequest none = .ok qs ∧ (yielded qs).length = 3 := by
  obtain ⟨ps, hps, h⟩ := exists_ok (x := pieces lateRequest (some (fun _ => 5)))
    (p := fun ps => decide ((yielded ps).length = 2)) (by decide +kernel)
  obtain ⟨qs, hqs, h'⟩ := exists_ok (x := pieces lateRequest none)
    (p := fun ps => decide ((yielded ps).length = 3)) (by decide +kernel)
  have hlength := of_decide_eq_true h
  refine ⟨ps, hps, hlength, ?_, qs, hqs, of_decide_eq_true h'⟩
  intro hall
  rw [hall] at hlength; cases hlength

end Runs

end CryptoPilot.Engine
