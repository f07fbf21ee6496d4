/- # FinishedLifecycle — a delivery before the replay.

The registry keeps a symbol's old lifecycle when the symbol is listed again.  A piece emits every
record announced by its end, the end of trading of an admitted event is a cap on every later submit
bar, and neither looks at the replay start: a finished lifecycle cancels every order of the symbol.
-/
import CryptoPilot.Engine.Steps
import CryptoPilot.Engine.Pieces

namespace CryptoPilot.Engine

open CryptoPilot.Live (Exc)
open CryptoPilot.Lib (bind_eq_ok foldlM_invariant)

def Untraded (s : String) (acc : Acc) : Prop := acc.units s = 0 ∧ ∀ f ∈ acc.fills, f.symbol ≠ s

/-! ## A capped symbol is never traded -/

section Untraded

variable {cfg : ReplayConfig} {w : Window} {a b : Acc} {s : String} {start : ℤ}

/-- The invariant inside a window: the symbol is outside the roster, or its trading ended by the
start. -/
def Barred (w : Window) (s : String) (start : ℤ) (acc : Acc) : Prop :=
  Untraded s acc ∧ Capped acc ∧ (s ∈ w.symbols → ∃ t ∈ acc.lastTrade s, t ≤ start)

theorem bookFill_barred {bar : ℤ} {x : String} {quantity price feeBps equity : ℚ} {reason : FillReason}
    {mark : Option ℚ} (hx : x ≠ s) (h : bookFill bar x quantity price feeBps reason mark equity a = .ok b)
    (ha : Barred w s start a) : Barred w s start b := by
  obtain ⟨⟨hunits, hfills⟩, hcap, hroster⟩ := ha
  obtain ⟨-, f, hf, hb⟩ := bookFill_eq_ok h
  rw [hb]
  refine ⟨⟨?_, ?_⟩, hcap, hroster⟩
  · simp only
    rw [Function.update_of_ne hx.symm]; exact hunits
  · intro g hg
    rcases List.mem_append.mp hg with hg | hg
    · exact hfills g hg
    · rw [List.mem_singleton.mp hg, hf]; exact hx

theorem keeps_barred (hgrid : ∀ x ∈ w.grid, start ≤ x) : KeepsOn cfg w (fun _ => True) (Barred w s start) where
  quiet := by
    intro a b h ha
    unfold Barred Untraded Capped at ha ⊢
    rw [h.units, h.fills, h.admitted, h.lastTrade]; exact ha
  queue := fun _ ha => ha
  anchored := fun _ ha => ha
  override := fun _ ha => ha
  advance := by
    intro a b mark target onGrid preFill h ha
    rw [(advance_eq_ok h).2.1]; exact ha
  settle := by
    intro a b event bar price hs h ha
    apply bookFill_barred _ h ha
    rintro rfl; exact hs.held ha.1.1
  trade := by
    intro a₀ a b p o bar quantity price feeBps reason _ _ _ hx _ h ha
    apply bookFill_barred _ h ha
    rintro rfl
    -- its submit bar lies before an end of trading that is not after the start
    obtain ⟨t, ht, hle⟩ := ha.2.2 hx.roster
    have hlt := hx.last t ht
    have hmem : o.submit ∈ w.grid := by
      rw [hx.submit]; exact hx.point.submit_mem
    have := hgrid _ hmem; omega
  relabel := by
    intro a n _ ha
    refine ⟨⟨ha.1.1, ?_⟩, ha.2⟩
    intro f hf
    rcases List.mem_append.mp hf with hf | hf
    · exact ha.1.2 f (List.mem_of_mem_take hf)
    · obtain ⟨g, hg, rfl⟩ := List.mem_map.mp hf; exact ha.1.2 g (List.mem_of_mem_drop hg)

theorem consume_untraded (hgrid : ∀ x ∈ w.grid, start ≤ x)
    (hevent : s ∈ w.symbols → ∃ e ∈ w.settlementEvents, e.symbol = s ∧ e.lastTrade ≤ start)
    (h : consume cfg a w = .ok b) (ha : Untraded s a ∧ Capped a) : Untraded s b ∧ Capped b := by
  obtain ⟨-, c, d, hc, hd, rfl⟩ := consume_eq_ok h
  obtain ⟨e, ps, he, hrun, -⟩ := consumeIntents_run hc
  obtain ⟨hcap, -, hall, hunits, hfills⟩ := admissions_capped he ha.2
  have hbarred : Barred w s start e := by
    refine ⟨⟨?_, ?_⟩, hcap, ?_⟩
    · rw [hunits]; exact ha.1.1
    · rw [hfills]; exact ha.1.2
    · intro hs
      obtain ⟨x, hx, rfl, hle⟩ := hevent hs
      obtain ⟨t, ht, hlt⟩ := hcap x (hall x hx); exact ⟨t, ht, hlt.trans hle⟩
  have hend := (keeps_barred hgrid).run hrun (fun _ _ => trivial) hbarred
  rw [appendLedger_eq_ok hd]; exact ⟨hend.1, hend.2.1⟩

end Untraded

/-! ## The replay -/

section Replay

variable {cfg : ReplayConfig} {req : StreamRequest} {m : Market} {mode : RosterMode} {plan : Option (ℕ × ℕ → ℕ)}
  {r : SettlementRecord}

theorem replayStream_untraded (hr : r ∈ m.registry) (hfinished : r.deliveryAt ≤ req.start)
    (hlabels : ∀ d ∈ req.decisions, req.start ≤ d.label) {res : ReplayResult}
    (h : replayStream cfg req m mode plan = .ok res) : ∀ f ∈ res.fills, f.symbol ≠ r.symbol := by
  rw [replayStream, bind_eq_ok] at h
  obtain ⟨ps, hps, h⟩ := h
  obtain ⟨⟨acc, active⟩, hacc, h⟩ := bind_eq_ok.mp h
  have hend := foldlM_invariant
    (I := fun state : Acc × List String => Untraded r.symbol state.1 ∧ Capped state.1) ?_ hacc
    ⟨⟨rfl, by simp [Acc.init]⟩, by simp [Capped, Acc.init]⟩
  · rw [(finalize_eq_ok h).2.1]; exact hend.1.2
  · rintro p hp ⟨a, previous⟩ ⟨b, next⟩ hdrive hinv
    obtain ⟨requirement, w, hw, hconsume, -⟩ := drive_eq_ok hdrive
    have hgrid : ∀ x ∈ w.grid, req.start ≤ x := by
      rw [hw.grid]; exact (pieces_from_start hlabels hps p hp).1
    refine consume_untraded hgrid ?_ hconsume hinv
    intro hs
    -- the record was announced long before the piece, so the piece emits its event
    have hlength : 2 ≤ w.grid.length := by
      have := (consume_eq_ok hconsume).1
      simp only [acceptsWindow, Bool.and_eq_true, decide_eq_true_eq] at this; exact this.1.2
    have hlast : req.start ≤ w.last := by
      obtain ⟨x, hx⟩ := List.exists_mem_of_length_pos (by omega : 0 < w.grid.length)
      exact (hgrid x hx).trans (Window.mem_le_last hx)
    have hann : r.announcedAt ≤ p.grid.getLastD 0 := by
      rw [← hw.grid]; exact ((r.announced_le.trans r.lastTrade_le).trans hfinished).trans hlast
    refine ⟨r.event, ((settlementEventsForPiece_eq_ok hw.events).2 _).mpr ⟨r, hr, hs, hann, rfl⟩, rfl, ?_⟩
    exact r.lastTrade_le.trans hfinished

def SameReplay (x y : Except Exc ReplayResult) : Prop :=
  ∃ res res', x = .ok res ∧ y = .ok res' ∧ res.fills = res'.fills ∧ res.rows = res'.rows

def Trades (x : Except Exc ReplayResult) (s : String) : Prop :=
  ∃ res, x = .ok res ∧ ∃ f ∈ res.fills, f.symbol = s

/-- **A finished lifecycle changes every replay that trades the relisted symbol.**  Where the replay
without the record trades the symbol, the replay with the record never returns the same fills and
ledger. -/
theorem finished_lifecycle_never_neutral {before after : List SettlementRecord}
    (hregistry : m.registry = before ++ r :: after) (hfinished : r.deliveryAt ≤ req.start)
    (hlabels : ∀ d ∈ req.decisions, req.start ≤ d.label)
    (htrades : Trades (replayStream cfg req { m with registry := before ++ after } mode plan) r.symbol) :
    ¬ SameReplay (replayStream cfg req { m with registry := before ++ after } mode plan)
        (replayStream cfg req m mode plan) := by
  rintro ⟨res, res', hwithout, hwith, hfills, -⟩
  obtain ⟨res₀, h₀, f, hf, hsymbol⟩ := htrades
  rw [hwithout, Except.ok.injEq] at h₀
  subst h₀
  have hr : r ∈ m.registry := by
    rw [hregistry]; simp
  rw [hfills] at hf; exact replayStream_untraded hr hfinished hlabels hwith f hf hsymbol

def oldLifecycle : SettlementRecord where
  symbol := "AUSDT"
  eventId := "AUSDT:1"
  announcedAt := 900 * stepNs
  lastTradeAt := 980 * stepNs
  deliveryAt := 980 * stepNs
  settlementPrice := 1
  priceSource := .venue
  feeBps := 0
  digest := "d"
  announced_le := by decide
  lastTrade_le := by decide
  price_pos := by norm_num
  fee_nonneg := le_rfl

theorem trades_of_any {x : Except Exc ReplayResult} {s : String}
    (h : x.toOption.any (fun res => res.fills.any (fun f => decide (f.symbol = s))) = true) : Trades x s := by
  cases x with
  | error e => simp [Except.toOption] at h
  | ok res =>
    refine ⟨res, rfl, ?_⟩; simpa [Except.toOption] using h

theorem fills_eq_of_sameReplay {x y : Except Exc ReplayResult} (h : SameReplay x y) :
    x.toOption.map ReplayResult.fills = y.toOption.map ReplayResult.fills := by
  obtain ⟨res, res', rfl, rfl, hfills, -⟩ := h; simp [Except.toOption, hfills]

theorem oldLifecycle_changes_replay : oldLifecycle.deliveryAt ≤ oneDecision.start ∧
    ¬ SameReplay (replayStream takerConfig oneDecision (flatMarket []) .targets none)
        (replayStream takerConfig oneDecision (flatMarket [oldLifecycle]) .targets none) := by
  refine ⟨by decide, fun h => ?_⟩
  exact absurd (fills_eq_of_sameReplay h) (by decide +kernel)

theorem oldLifecycle_never_neutral :
    Trades (replayStream takerConfig oneDecision (flatMarket []) .targets none) "AUSDT" ∧
      ¬ SameReplay (replayStream takerConfig oneDecision (flatMarket []) .targets none)
          (replayStream takerConfig oneDecision (flatMarket [oldLifecycle]) .targets none) := by
  have htrades : Trades (replayStream takerConfig oneDecision (flatMarket []) .targets none) "AUSDT" :=
    trades_of_any (by decide +kernel)
  have hregistry : (flatMarket [oldLifecycle]).registry = [] ++ oldLifecycle :: [] := rfl
  have hnever := finished_lifecycle_never_neutral hregistry (by decide) (by decide) htrades
  exact ⟨htrades, hnever⟩

end Replay

end CryptoPilot.Engine
