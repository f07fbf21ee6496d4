/- # DeliveryRuns — deliveries over the windows of a stream.

`Lifecycles` is what holds of every symbol between two windows: an event that fell due left nothing
behind, one that has not is queued, and a settled symbol is flat in all three books. -/
import CryptoPilot.Engine.Delivery

namespace CryptoPilot.Engine

open List

open CryptoPilot.Live (Exc)
open CryptoPilot.Lib (bind_eq_ok foldlM_invariant)

/-! ## Admissions -/

section Opening

variable {cfg : ReplayConfig} {w : Window} {a c : Acc}

theorem admitEvent_queue {x y : Acc} {event : SettlementEvent} (h : admitEvent cfg x event = .ok y) :
    (∀ e ∈ x.pending, e ∈ y.pending) ∧ (event ∈ x.admitted ∨ event ∈ y.pending) := by
  unfold admitEvent at h
  split at h
  · cases h
  · split at h
    · next seen hseen =>
      split at h
      · next heq =>
        rw [Except.ok.injEq] at h
        subst h; exact ⟨fun _ h => h, .inl (heq ▸ mem_of_find?_eq_some hseen)⟩
      · cases h
    · split at h
      · cases h
      · rw [Except.ok.injEq] at h
        subst h; exact ⟨fun e he => mem_append_left _ he, .inr (by simp)⟩

structure Opening (w : Window) (a c : Acc) : Prop where
  eq : c = { a with
    admitted := c.admitted, pending := c.pending, admittedBySymbol := c.admittedBySymbol, lastTrade := c.lastTrade
    gridEnd := w.last }
  capped : Capped c
  new : ∀ e ∈ c.admitted, e ∈ a.admitted ∨ e ∈ w.settlementEvents
  events : ∀ e ∈ w.settlementEvents, e ∈ c.admitted
  kept : ∀ e ∈ a.admitted, e ∈ c.admitted
  pending : ∀ e ∈ c.pending, e ∈ c.admitted
  queued : ∀ e ∈ c.admitted, e ∈ c.pending ∨ e ∈ a.admitted ∧ e ∉ a.pending
  source : ∀ s, ∀ t ∈ c.lastTrade s, t ∈ a.lastTrade s ∨ ∃ e ∈ w.settlementEvents, e.symbol = s ∧ e.lastTrade = t

theorem admissions_opening (h : w.settlementEvents.foldlM (admitEvent cfg) { a with gridEnd := w.last } = .ok c)
    (hcap : Capped a) (hpending : ∀ e ∈ a.pending, e ∈ a.admitted) : Opening w a c := by
  obtain ⟨hcapped, hkept, hevents, -, -⟩ := admissions_capped h (show Capped { a with gridEnd := w.last } from hcap)
  have hinv := foldlM_invariant (I := fun x : Acc =>
      x = { a with
        admitted := x.admitted, pending := x.pending, admittedBySymbol := x.admittedBySymbol
        lastTrade := x.lastTrade, gridEnd := w.last } ∧
      (∀ e ∈ x.admitted, e ∈ a.admitted ∨ e ∈ w.settlementEvents) ∧
      ∀ e ∈ x.admitted, e ∈ x.pending ∨ e ∈ a.admitted ∧ e ∉ a.pending) ?_ h ⟨rfl, fun _ h => .inl h, ?_⟩
  · exact ⟨hinv.1, hcapped, hinv.2.1, hevents, hkept, (admissions_books h hpending).1, hinv.2.2,
      fun s t ht => admissions_source h ht⟩
  · rintro event hevent x y hy ⟨hx, hnew, hqueued⟩
    have hadmits := admitEvent_eq_ok hy
    obtain ⟨hqueue, hmem⟩ := admitEvent_queue hy
    refine ⟨?_, ?_, ?_⟩
    · rw [hadmits.eq, hx]
    · intro e he
      rcases hadmits.new e he with he | rfl
      · exact hnew e he
      · exact .inr hevent
    · intro e he
      rcases hadmits.new e he with he | rfl
      · exact (hqueued e he).imp (hqueue e) id
      · rcases hmem with hold | hnew
        · exact (hqueued e hold).imp (hqueue e) id
        · exact .inl hnew
  · intro e he
    by_cases hp : e ∈ a.pending
    · exact .inl hp
    · exact .inr ⟨he, hp⟩

end Opening

/-! ## Windows -/

def rowBars (a : Acc) : List ℤ := a.rows.map LedgerRow.bar

/-- **Lifecycles between two windows.** -/
structure Lifecycles (cfg : ReplayConfig) (known : SettlementEvent → Prop) (a : Acc) : Prop where
  capped : Capped a
  pending : ∀ e ∈ a.pending, e ∈ a.admitted
  registry : ∀ e ∈ a.admitted, known e
  source : ∀ s, ∀ t ∈ a.lastTrade s, ∃ e, known e ∧ e.symbol = s ∧ e.lastTrade = t
  queued : ∀ e ∈ a.admitted, e ∈ a.pending ∨ e.due ≤ a.gridEnd
  flat : ∀ e, known e → e.due ≤ a.gridEnd → a.units e.symbol = 0
  clock : a.admitted = [] ∧ rowBars a = [] ∨ ∃ t, a.ledgerStart = some t ∧ a.gridEnd < t
  rows : ∀ b ∈ rowBars a, b ≤ a.gridEnd
  traded : ∀ f ∈ a.fills, f.reason ≠ .delistSettlement → ∀ e, known e → e.symbol = f.symbol → f.bar < e.lastTrade
  accounts : ∀ s, Account cfg (rowBars a) a s
  queue : a.mirrorPending = []
  mirror : a.mirror.units = a.units
  closed : ∀ s e f, Delivered cfg (rowBars a) a s e f → a.ledgerUnits s = 0

/-- A window posts the events of its roster: what is known and announced by its end. -/
structure Posted (known : SettlementEvent → Prop) (w : Window) : Prop where
  events : ∀ e ∈ w.settlementEvents, known e
  announced : ∀ e, known e → e.symbol ∈ w.symbols → e.announced ≤ w.last → e ∈ w.settlementEvents

/-- **A fresh window.**  No signal before its decision, no submit bar the ledger has cut, and for a
ladder no trade after the end of trading. -/
structure Fresh (cfg : ReplayConfig) (known : SettlementEvent → Prop) (a : Acc) (w : Window) : Prop where
  signal : ∀ d ∈ w.decisions, d.label ≤ d.signal
  kept : ∀ p : Clock, p.Expected cfg w a → ∀ t ∈ a.ledgerStart, t ≤ p.submit
  ended : cfg.bound = .ladderedProxy → ∀ e, known e → e.symbol ∈ w.symbols → ∀ b ∈ w.grid, e.lastTrade ≤ b →
    ∀ qv ∈ w.quoteVolume b e.symbol, qv ≤ 0

section Windows

variable {cfg : ReplayConfig} {known : SettlementEvent → Prop} {w : Window} {a b c : Acc}

theorem Fresh.late (h : Fresh cfg known a w) {p : Clock} (hp : p.Expected cfg w a) : p.Late a.ledgerStart := by
  refine ⟨?_, h.kept p hp⟩
  rcases hp with ⟨d, hd, hdec, hsig, -⟩ | ⟨-, anchor, k, check, -, -, -, hdec, hsig, -⟩
  · rw [hdec, hsig]; exact h.signal d hd
  · rw [hdec, hsig]

theorem delivers_first (hbars : 2 ≤ w.grid.length)
    (hrows : ∀ b ∈ rowBars a, ∃ t, a.ledgerStart = some t ∧ b < t) {x : Acc} {event : SettlementEvent} {bar : ℤ}
    (hx : x.ledgerStart = a.ledgerStart) (h : Delivers w event bar x) :
    bar ∈ rowBars a ++ keptBars w a ∧ ∀ b ∈ rowBars a ++ keptBars w a, event.due ≤ b → bar ≤ b := by
  have hne : w.grid ≠ [] := by
    intro hnil
    rw [hnil] at hbars; simp at hbars
  have hkept := h.kept
  rw [hx] at hkept
  have hbar := h.bar_eq
  cases hfirst : w.firstFrom event.due with
  | none =>
    have hlast := Window.firstFrom_eq_none hfirst w.last (Window.last_mem hne)
    have hdue := h.due_le; omega
  | some c =>
    rw [hfirst] at hbar
    subst hbar
    obtain ⟨hmem, hle⟩ := Window.firstFrom_mem hfirst
    have hstart : ∀ t, a.ledgerStart = some t → t ≤ event.due := by
      intro t ht
      rw [ht] at hkept; exact hkept
    refine ⟨mem_append_right _ (mem_keptBars.mpr ⟨hmem, fun t ht => (hstart t ht).trans hle⟩), ?_⟩
    intro x hx hdue
    rcases mem_append.mp hx with hx | hx
    · obtain ⟨t, ht, hlt⟩ := hrows x hx
      have := hstart t ht; omega
    · exact Window.firstFrom_le hfirst (mem_keptBars.mp hx).1 hdue

theorem opening_announced (ha : Lifecycles cfg known a) (hf : Fresh cfg known a w) (hp : Posted known w)
    (hbars : 2 ≤ w.grid.length) (ho : Opening w a c) : Announced cfg w known (rowBars a ++ keptBars w a) c where
  capped := ho.capped
  admitted := fun e he hs hann => ho.events e (hp.announced e he hs hann)
  ended := by
    intro hbound s hs t ht
    obtain ⟨e, he, rfl, rfl⟩ : ∃ e, known e ∧ e.symbol = s ∧ e.lastTrade = t := by
      rcases ho.source s t ht with ht | ⟨e, he, hs, hl⟩
      · exact ha.source s t ht
      · exact ⟨e, hp.events e he, hs, hl⟩
    exact hf.ended hbound e he hs
  first := by
    intro x event bar hx hd
    have hstart : c.ledgerStart = a.ledgerStart := by rw [ho.eq]
    refine delivers_first hbars ?_ (hx.trans hstart) hd
    intro b hb
    rcases ha.clock with ⟨-, hnil⟩ | ⟨t, ht, hlt⟩
    · simp [hnil] at hb
    · exact ⟨t, ht, (ha.rows b hb).trans_lt hlt⟩

variable {s : String}

theorem Account.extend (ha : Lifecycles cfg known a) : Account cfg (rowBars a ++ keptBars w a) a s := by
  rcases ha.accounts s with h | ⟨e, f, hf⟩
  · exact .inl h
  · refine .inr ⟨e, f, { hf with bar := mem_append_left _ hf.bar, first := ?_ }⟩
    intro x hx hdue
    rcases mem_append.mp hx with hx | hx
    · exact hf.first x hx hdue
    · have hle := ha.rows f.bar hf.bar
      rcases ha.clock with ⟨-, hnil⟩ | ⟨t, ht, hlt⟩
      · have hbar := hf.bar; simp [hnil] at hbar
      · have := (mem_keptBars.mp hx).2 t ht; omega

theorem opening_course (ha : Lifecycles cfg known a) (ho : Opening w a c) :
    Course cfg known (rowBars a ++ keptBars w a) c c where
  registered := ⟨rfl, rfl, rfl⟩
  pending := ho.pending
  traded := by
    have hfills : c.fills = a.fills := by rw [ho.eq]
    rw [hfills]; exact ha.traded
  accounts := by
    intro s
    refine (Account.extend (w := w) (s := s) ha).congr ?_ ?_ ?_ ho.kept ?_
    · rw [ho.eq]
    · rw [ho.eq]
    · rw [ho.eq]
    · intro t ht
      refine ⟨t, ?_, le_rfl⟩
      rw [ho.eq]; exact ht

variable {e : SettlementEvent}

theorem opening_queued (ha : Lifecycles cfg known a) (ho : Opening w a c) (hkept : keptBars w a ≠ [])
    (he : e ∈ c.admitted) : Queued w a.ledgerStart e c := by
  rcases ho.queued e he with hq | ⟨hold, hq⟩
  · exact .inl hq
  · have hdue := (ha.queued e hold).resolve_left hq
    have hstart : c.ledgerStart = a.ledgerStart := by rw [ho.eq]
    have hunits : c.units = a.units := by rw [ho.eq]
    rcases ha.clock with ⟨hnil, -⟩ | ⟨t, ht, hlt⟩
    · rw [hnil] at hold; simp at hold
    · obtain ⟨x, hx⟩ := exists_mem_of_ne_nil _ hkept
      obtain ⟨hgrid, hle⟩ := mem_keptBars.mp hx
      have h1 := hle t ht
      have h2 := Window.mem_le_last hgrid
      refine .inr ⟨by omega, hstart, he, ho.capped, ?_, .inr ⟨t, hstart.trans ht, by omega⟩⟩
      rw [hunits]; exact ha.flat e (ha.registry e hold) hdue

/-! ## The fills of a window and of the windows before it -/

variable (cfg w) in
theorem keeps_silent (start : Option ℤ) (e : SettlementEvent) (n : ℕ) :
    KeepsOn cfg w (Clock.Late start)
      (fun x => Gone start e x ∧ n ≤ x.fills.length ∧ ∀ g ∈ recent n x, g.symbol ≠ e.symbol) where
  quiet := fun h hx => ⟨(keeps_gone cfg w start e).quiet h hx.1, by rw [h.fills]; exact hx.2.1,
    by rw [recent_of_fills h.fills]; exact hx.2.2⟩
  queue := fun h hx => ⟨(keeps_gone cfg w start e).queue h hx.1, hx.2⟩
  anchored := fun h hx => ⟨(keeps_gone cfg w start e).anchored h hx.1, hx.2⟩
  override := fun h hx => ⟨(keeps_gone cfg w start e).override h hx.1, hx.2⟩
  advance := by
    intro x y mark target onGrid preFill h hx
    have hfills : y.fills = x.fills := by rw [(advance_eq_ok h).2.1]
    exact ⟨(keeps_gone cfg w start e).advance h hx.1, by rw [hfills]; exact hx.2.1,
      by rw [recent_of_fills hfills]; exact hx.2.2⟩
  settle := by
    intro x y event bar price hs h hx
    obtain ⟨-, f, hf, hy⟩ := bookFill_eq_ok h
    have hfills : y.fills = x.fills ++ [f] := by rw [hy]
    refine ⟨(keeps_gone cfg w start e).settle hs h hx.1, by rw [hfills]; simp; omega, ?_⟩
    rw [recent_append hx.2.1 hfills]
    intro g hg
    rcases mem_append.mp hg with hg | hg
    · exact hx.2.2 g hg
    · rw [mem_singleton.mp hg]
      show f.symbol ≠ e.symbol
      rw [hf]
      intro hsame
      have hsame : event.symbol = e.symbol := hsame; exact hs.held (hsame ▸ hx.1.flat)
  trade := by
    intro x₀ x y p o bar quantity price feeBps reason hx₀ hp hwants hexec hreason h hx
    obtain ⟨-, f, hf, hy⟩ := bookFill_eq_ok h
    have hfills : y.fills = x.fills ++ [f] := by rw [hy]
    refine ⟨(keeps_gone cfg w start e).trade hx₀.1 hp hwants hexec hreason h hx.1, by rw [hfills]; simp; omega, ?_⟩
    rw [recent_append hx.2.1 hfills]
    intro g hg
    rcases mem_append.mp hg with hg | hg
    · exact hx.2.2 g hg
    · rw [mem_singleton.mp hg]
      show f.symbol ≠ e.symbol
      rw [hf]
      exact hexec.not_passed (by rw [hx.1.ledger]; exact hp) hx.1.capped hx.1.admitted hx.1.passed
  relabel := by
    intro x m h hx
    refine ⟨(keeps_gone cfg w start e).relabel h hx.1, ?_, ?_⟩
    · rw [length_relabelTrims]; exact hx.2.1
    · rw [recent_relabelTrims]; exact hx.2.2

variable (cfg w) in
theorem keeps_settled (n : ℕ) (s : String) : Keeps cfg w (fun x : Acc => n ≤ x.fills.length ∧
    ∀ g ∈ x.fills.take n, g.symbol = s → g.reason ≠ .delistSettlement) := by
  refine KeepsOn.of_book ?_ (fun _ h => h) (fun _ h => h) (fun _ h => h) ?_ ?_ ?_
  · intro x y h hx
    rw [h.fills]; exact hx
  · intro x y mark target onGrid preFill h hx
    rw [(advance_eq_ok h).2.1]; exact hx
  · intro x y f _ hy hx
    rw [hy]
    show n ≤ (x.fills ++ [f]).length ∧ ∀ g ∈ (x.fills ++ [f]).take n, _
    rw [take_append_of_le_length hx.1]; exact ⟨by simp; omega, hx.2⟩
  · intro x m _ hx
    refine ⟨by rw [length_relabelTrims]; exact hx.1, ?_⟩
    intro g hg hs
    unfold relabelTrims at hg
    simp only [take_append] at hg
    rcases mem_append.mp hg with hg | hg
    · rw [take_take] at hg; exact hx.2 g (take_subset_take_left _ (min_le_left _ _) hg) hs
    · obtain ⟨g', -, rfl⟩ := mem_map.mp (mem_of_mem_take hg); simp

theorem keeps_gridEnd (g : ℤ) : Keeps cfg w (fun x : Acc => x.gridEnd = g) := by
  refine KeepsOn.of_book ?_ (fun _ h => h) (fun _ h => h) (fun _ h => h) ?_ ?_ (fun _ h => h)
  · intro x y h hx
    rw [h.eq]; exact hx
  · intro x y mark target onGrid preFill h hx
    rw [(advance_eq_ok h).2.1]; exact hx
  · intro x y f _ hy hx
    rw [hy]; exact hx

/-! ## The last bars of a window -/

/-- Where the settlement of a symbol stands at the end of a window: in it, or before it, and then
the window books nothing of the symbol. -/
def SettledIn (n : ℕ) (y : Acc) (s : String) (f : Fill) : Prop :=
  f ∈ y.fills.drop n ∨ y.ledgerUnits s = 0 ∧ ∀ g ∈ y.fills.drop n, g.symbol ≠ s

section Settled

variable {bars : List ℤ} {y : Acc} {n : ℕ} {s : String} {e : SettlementEvent} {f : Fill}

section

variable (hcourse : Course cfg known bars c y) (hknown : ∀ e ∈ c.admitted,
  known e) (hd : Delivered cfg bars y s e f)

include hcourse hknown hd

theorem Course.bar_le {g : Fill} (hg : g ∈ y.fills) (hs : g.symbol = s) : g = f ∨ g.bar < f.bar := by
  have he : known e := hknown e (hcourse.registered.admitted ▸ hd.admitted)
  exact hd.bar_le (fun hr => hcourse.traded g hg hr e he (hd.symbol.trans hs.symm)) hg hs

section

variable (hin : SettledIn n y s f)

include hin

/-- **The ledger holds nothing of a settled symbol.** -/
theorem Course.level_eq_zero {cut : ℤ → Bool} (hcut : cut f.bar = true) :
    lastLevel (y.fills.drop n) s (y.ledgerUnits s) cut = 0 := by
  have hsymbol : f.symbol = s := (mem_deliveries.mp (by rw [hd.only]; exact mem_singleton_self f)).2.1
  apply lastLevel_eq_zero
  · rcases hin with hin | ⟨hzero, -⟩
    · exact .inr ⟨f, hin, hsymbol, hcut⟩
    · exact .inl hzero
  · intro g hg hs
    rcases hin with hin | ⟨-, hnone⟩
    · rcases hcourse.bar_le hknown hd (mem_of_mem_drop hg) hs with rfl | hlt
      · exact .inl hd.post
      · exact .inr ⟨f, hin, hsymbol, hcut, hlt⟩
    · exact absurd hs (hnone g hg)

theorem Course.chunkUnits_eq_zero {k : ℤ} (hk : f.bar ≤ k) :
    chunkUnits y (y.fills.drop n) s k = 0 :=
  hcourse.level_eq_zero hknown hd hin (decide_eq_true hk)

theorem Course.chunkBefore_eq_zero {k : ℤ} (hk : f.bar < k) :
    chunkBefore y (y.fills.drop n) s k = 0 :=
  hcourse.level_eq_zero hknown hd hin (decide_eq_true hk)

end

/-- **The mirror holds nothing of a settled symbol**: every queued quantity of it has joined the
inventory. -/
theorem Course.mirrorUnits_eq_zero (ht : Tracked w n y.mirror.units y) {k : ℤ} (hk : f.bar < k) :
    mirrorUnits y.mirrorPending y.mirror s k = 0 := by
  have hall : y.mirrorPending.filter (fun g => decide (g.symbol = s) && decide (g.bar < k)) =
      y.mirrorPending.filter (fun g => decide (g.symbol = s)) := by
    apply filter_congr
    intro g hg
    by_cases hs : g.symbol = s
    · -- a queued fill is a fill of the window up to its label
      have hmem : g.unlabelled ∈ recent n y := by
        rw [← ht.pending]; exact mem_map_of_mem hg
      obtain ⟨g', hg', heq⟩ := mem_map.mp hmem
      have hbar : g'.unlabelled.bar = g.unlabelled.bar := congrArg Fill.bar heq
      have hbar : g'.bar = g.bar := hbar
      have hsymbol : g'.unlabelled.symbol = g.unlabelled.symbol := congrArg Fill.symbol heq
      have hle : g'.bar ≤ f.bar := by
        rcases hcourse.bar_le hknown hd (mem_of_mem_drop hg') (hsymbol.trans hs) with rfl | hlt
        · exact le_rfl
        · exact hlt.le
      rw [hbar] at hle; simp [hs, hle.trans_lt hk]
    · simp [hs]
  have hunits := ht.units s
  rw [← ht.pending, hd.flat] at hunits
  unfold mirrorUnits
  rw [hall, hunits]
  show _ = _ + (((y.mirrorPending.map Fill.unlabelled).filter (fun g => decide (g.symbol = s))).map
    Fill.quantity).sum
  rw [sum_unlabelled (fun _ => rfl) (fun _ => rfl)]

end

end Settled

/-! ## One window -/

/-- What the intents of a window leave to its ledger; `c` is the state after the admissions. -/
structure Closes (cfg : ReplayConfig) (known : SettlementEvent → Prop) (w : Window) (a c y : Acc) : Prop where
  opening : Opening w a c
  registry : ∀ e ∈ c.admitted, known e
  course : Course cfg known (rowBars a ++ keptBars w a) c y
  tracked : Tracked w a.fills.length a.units y
  ledger : SameLedger a y
  gridEnd : y.gridEnd = w.last
  queued : ∀ e ∈ c.admitted, e ∈ y.pending ∨ e.due ≤ w.last
  flat : ∀ e, known e → e.due ≤ w.last → y.units e.symbol = 0
  settled : ∀ s e f, Delivered cfg (rowBars a ++ keptBars w a) y s e f → SettledIn a.fills.length y s f

theorem Tracked.off_roster {n : ℕ} {start : String → ℚ} (h : Tracked w n start b) (hs : s ∉ w.symbols) :
    b.units s = start s := by
  have hnone : (recent n b).filter (fun f => decide (f.symbol = s)) = [] := by
    rw [filter_eq_nil_iff]
    intro f hf hsymbol; exact hs (of_decide_eq_true hsymbol ▸ h.roster f hf)
  rw [h.units s]
  unfold Engine.traded
  rw [hnone]; simp

theorem settledIn_of_run {y : Acc} {ps : List Clock} (ha : Lifecycles cfg known a) (ho : Opening w a c)
    (hps : ∀ p ∈ ps, p.Late a.ledgerStart) (hrun : WindowRun cfg w ps c y) (hledger : SameLedger a y)
    {f : Fill} (hd : Delivered cfg (rowBars a ++ keptBars w a) y s e f) : SettledIn a.fills.length y s f := by
  have hfills : c.fills = a.fills := by rw [ho.eq]
  obtain ⟨hmem, hs, hr⟩ := mem_deliveries.mp (by rw [hd.only]; exact mem_singleton_self f)
  rcases ha.accounts s with ⟨hnone, -⟩ | ⟨e₀, f₀, hd₀⟩
  · left
    have hstart : a.fills.length ≤ c.fills.length ∧
        ∀ g ∈ c.fills.take a.fills.length, g.symbol = s → g.reason ≠ .delistSettlement := by
      rw [hfills]
      refine ⟨le_rfl, fun g hg hgs hgr => ?_⟩
      have : g ∈ deliveries a.fills s := mem_deliveries.mpr ⟨mem_of_mem_take hg, hgs, hgr⟩
      rw [hnone] at this; simp at this
    have hold := ((keeps_settled cfg w a.fills.length s).run hrun hstart).2
    rw [← take_append_drop a.fills.length y.fills] at hmem
    rcases mem_append.mp hmem with hmem | hmem
    · exact absurd hr (hold f hmem hs)
    · exact hmem
  · right
    have hgone : Gone a.ledgerStart e₀ c := by
      have hsymbol : e₀.symbol = s := hd₀.symbol
      refine ⟨by rw [ho.eq], ho.kept e₀ hd₀.admitted, ho.capped, ?_, ?_⟩
      · rw [ho.eq, hsymbol]; exact hd₀.flat
      · rw [ho.eq]; exact hd₀.passed
    have hsilent := (keeps_silent cfg w a.ledgerStart e₀ a.fills.length).run hrun hps
      ⟨hgone, by rw [hfills], by simp [recent, hfills]⟩
    refine ⟨hledger.ledgerUnits ▸ ha.closed s e₀ f₀ hd₀, ?_⟩
    intro g hg hgs; exact hsilent.2.2 g.unlabelled (mem_map_of_mem hg) (hgs.trans hd₀.symbol.symm)

/-- **The intents of a fresh window.** -/
theorem consumeIntents_closes {y : Acc} (ha : Lifecycles cfg known a) (hf : Fresh cfg known a w)
    (hp : Posted known w)
    (hroster : ∀ s, a.units s ≠ 0 → s ∈ w.symbols) (hbars : 2 ≤ w.grid.length) (hkept : keptBars w a ≠ [])
    (h : consumeIntents cfg w { a with gridEnd := w.last } = .ok y) : ∃ c, Closes cfg known w a c y := by
  have hledger : SameLedger a y := by
    have hsame := consumeIntents_sameLedger h
    exact ⟨hsame.1, hsame.2, hsame.3, hsame.4, hsame.5, hsame.6, hsame.7, hsame.8, hsame.9⟩
  obtain ⟨c, z, ps, hc, hvisits, hsettle, hexp⟩ := consumeIntents_visits h
  have ho := admissions_opening hc ha.capped ha.pending
  have hps : ∀ p ∈ ps, p.Late a.ledgerStart := fun p hp => hf.late (hexp p hp)
  have hstart : c.ledgerStart = a.ledgerStart := by rw [ho.eq]
  have hrun : WindowRun cfg w ps c y := by
    have hall := (opened_run cfg c).trans (hvisits.run.trans (settleEventsThrough_run hsettle))
    rwa [append_nil] at hall
  have hcourse := (keeps_course (opening_announced ha hf hp hbars ho)).run hrun (by rw [hstart]; exact hps)
    (opening_course ha ho)
  have htracked : Tracked w a.fills.length a.units y := by
    refine (keeps_tracked _ _).run hrun (fun _ _ => trivial) (tracked_start ?_ ?_ ?_)
    · rw [ho.eq]
    · rw [ho.eq]
    · rw [ho.eq]; exact ha.queue
  have hregistry : ∀ e ∈ c.admitted, known e := by
    intro e he
    rcases ho.new e he with he | he
    · exact ha.registry e he
    · exact hp.events e he
  -- an event at the end of the window: it waits for a later one, or it is due and flat
  have hend : ∀ e ∈ c.admitted, (e ∈ y.pending ∧ Waits w w.last e) ∨ (e.due ≤ w.last ∧ y.units e.symbol = 0) := by
    intro e he
    have hq : Queued w c.ledgerStart e (c.opened cfg w) := by
      rw [hstart]
      rcases opening_queued ha ho hkept he with hq | ⟨hdue, hgone⟩
      · exact .inl ((mem_insertionSort _).mpr hq)
      · exact .inr ⟨hdue, (keeps_gone cfg w a.ledgerStart e).run (opened_run cfg c) (by simp) hgone⟩
    have hz := hvisits.queued (by rw [hstart]; exact hps) ho.capped he ⟨rfl, rfl, rfl⟩ hq
    have hzstart : z.ledgerStart = c.ledgerStart :=
      ((keeps_registered c).run ((opened_run cfg c).trans hvisits.run) ⟨rfl, rfl, rfl⟩).ledgerStart
    rw [← hzstart] at hz
    rcases settleEventsThrough_queued hsettle hz with hwaits | ⟨hdue, hflat, -⟩
    · exact .inl hwaits
    · exact .inr ⟨hdue, hflat⟩
  have hgrid : y.gridEnd = w.last := (keeps_gridEnd w.last).run hrun (by rw [ho.eq])
  refine ⟨c, ho, hregistry, hcourse, htracked, hledger, hgrid, ?_, ?_, ?_⟩
  · intro e he
    rcases hend e he with ⟨hq, -⟩ | ⟨hdue, -⟩
    · exact .inl hq
    · exact .inr hdue
  · intro e he hdue
    by_cases hs : e.symbol ∈ w.symbols
    · have hann : e.announced ≤ e.lastTrade := e.announced_le
      have hlast := e.lastTrade_le_due
      have hadmitted := ho.events e (hp.announced e he hs (by omega))
      rcases hend e hadmitted with ⟨-, hlt | hout⟩ | ⟨-, hflat⟩
      · omega
      · exact absurd hs hout
      · exact hflat
    · rw [htracked.off_roster hs]
      by_contra hheld; exact hs (hroster _ hheld)
  · intro s e f hd; exact settledIn_of_run ha ho hps hrun hledger hd

theorem Closes.lifecycles {y d : Acc} (h : Closes cfg known w a c y) (ha : Lifecycles cfg known a)
    (hbars : 2 ≤ w.grid.length) (hd : appendLedger w a.fills.length y = .ok d) : Lifecycles cfg known d := by
  have hd' := appendLedger_eq_ok hd
  obtain ⟨r, hr, hmirror, -, hunits, -, hrows⟩ := appendLedger_books hd
  have hkept : keptBars w y = keptBars w a := by
    unfold keptBars
    rw [h.ledger.ledgerStart]
  have hbarsEq : rowBars d = rowBars a ++ keptBars w a := by
    unfold rowBars
    rw [hrows, map_append, h.ledger.rows, chunkRows, map_map, hkept]
    congr 1; exact map_id _
  have hpos := Window.barNs_pos hbars
  have hcap : Capped y := h.course.registered.capped h.opening.capped
  have hgrid : d.gridEnd = w.last := by
    rw [hd']; exact h.gridEnd
  -- rows of earlier windows lie before the first bar that this one keeps
  have hle : ∀ b ∈ rowBars a ++ keptBars w a, b ≤ w.last := by
    intro b hb
    rcases mem_append.mp hb with hb | hb
    · rcases ha.clock with ⟨-, hnil⟩ | ⟨t, ht, hlt⟩
      · simp [hnil] at hb
      · obtain ⟨x, hx⟩ := exists_mem_of_ne_nil _ (hkept ▸ (settleWindow_eq_ok hr).1)
        obtain ⟨hmem, hstart⟩ := mem_keptBars.mp hx
        have h1 := ha.rows b hb
        have h2 := hstart t ht
        have h3 := Window.mem_le_last hmem; omega
    · exact Window.mem_le_last (mem_keptBars.mp hb).1
  have haccount : ∀ s, Account cfg (rowBars d) d s := by
    intro s
    rw [hbarsEq]
    refine (h.course.accounts s).congr ?_ ?_ ?_ ?_ ?_
    · rw [hd']
    · rw [hd']
    · rw [hd']
    · rw [hd']; exact fun _ h => h
    · intro t ht
      refine ⟨t, ?_, le_rfl⟩
      rw [hd']; exact ht
  -- the mirror is settled on what the track held at the opening
  have hmirrorUnits : y.mirror.units = a.units := by rw [h.ledger.mirror, ha.mirror]
  exact
    { capped := by rw [hd']; exact hcap
      pending := by rw [hd']; exact h.course.pending
      registry := by
        rw [hd']
        show ∀ e ∈ y.admitted, known e
        rw [h.course.registered.admitted]; exact h.registry
      source := by
        rw [hd']
        show ∀ s, ∀ t ∈ y.lastTrade s, _
        rw [h.course.registered.lastTrade]
        intro s t ht
        rcases h.opening.source s t ht with ht | ⟨e, he, hs, hl⟩
        · exact ha.source s t ht
        · exact ⟨e, h.registry e (h.opening.events e he), hs, hl⟩
      queued := by
        rw [hgrid, hd']
        show ∀ e ∈ y.admitted, e ∈ y.pending ∨ e.due ≤ w.last
        rw [h.course.registered.admitted]; exact h.queued
      flat := by
        rw [hgrid, hd']; exact h.flat
      clock := by
        right
        rw [hgrid, hd']; exact ⟨w.last + w.barNs, rfl, by omega⟩
      rows := by
        rw [hbarsEq, hgrid]; exact hle
      traded := by rw [hd']; exact h.course.traded
      accounts := haccount
      queue := by rw [hd']
      mirror := by
        have hdunits : d.units = y.units := by rw [hd']
        obtain ⟨-, -, -, hr, -⟩ := settleWindow_eq_ok hr
        rw [hdunits, hmirror, hr, hmirrorUnits]
        funext s
        rw [h.tracked.units s, ← h.tracked.pending]
        congr 1; exact (sum_unlabelled (fun _ => rfl) (fun _ => rfl) _).symm
      closed := by
        intro s e f hdel
        rw [hbarsEq] at hdel
        have hy : Delivered cfg (rowBars a ++ keptBars w a) y s e f := by
          rw [hd'] at hdel
          exact hdel.congr rfl rfl rfl (fun _ h => h) (fun t ht => ⟨t, ht, le_rfl⟩)
        have hin := h.settled s e f hy
        rw [hunits]
        show (if s ∈ w.symbols then _ else _) = (0 : ℚ)
        split
        · exact h.course.chunkUnits_eq_zero h.registry hy hin (hle f.bar hy.bar)
        · next hs =>
          rcases hin with hin | ⟨hzero, -⟩
          · have hroster := h.tracked.roster f.unlabelled (mem_map_of_mem hin)
            have hsymbol := (mem_deliveries.mp (by rw [hy.only]; exact mem_singleton_self f)).2.1
            exact absurd (hsymbol ▸ hroster) hs
          · exact hzero }

/-- **One fresh window keeps the lifecycles**, and what its ledger and its mirror charge after a
settlement is on no inventory. -/
theorem consume_delivers (ha : Lifecycles cfg known a) (hf : Fresh cfg known a w) (hp : Posted known w)
    (hroster : ∀ s, a.units s ≠ 0 → s ∈ w.symbols) (h : consume cfg a w = .ok b) : Lifecycles cfg known b := by
  obtain ⟨hbars, -, -, -, -, hkept⟩ := consume_rows h
  obtain ⟨-, y, d, hy, hd, rfl⟩ := consume_eq_ok h
  obtain ⟨c, hcloses⟩ := consumeIntents_closes ha hf hp hroster hbars hkept hy
  have hl := hcloses.lifecycles ha hbars hd
  exact
    { capped := hl.capped, pending := hl.pending, registry := hl.registry, source := hl.source, queued := hl.queued
      flat := hl.flat, clock := hl.clock, rows := hl.rows, traded := hl.traded
      accounts := fun s => (hl.accounts s).congr rfl rfl rfl (fun _ h => h) (fun t ht => ⟨t, ht, le_rfl⟩)
      queue := hl.queue, mirror := hl.mirror
      closed := fun s e f hdel => hl.closed s e f
        (hdel.congr rfl rfl rfl (fun _ h => h) (fun t ht => ⟨t, ht, le_rfl⟩)) }

/-- **After a settlement nothing is charged**: the ledger and the mirror hold nothing of the symbol.
-/
theorem Closes.uncharged {y : Acc} (h : Closes cfg known w a c y) (ha : Lifecycles cfg known a)
    {f : Fill} (hd : Delivered cfg (rowBars a ++ keptBars w a) y s e f) (k : ℤ) :
    (f.bar ≤ k → chunkUnits y (y.fills.drop a.fills.length) s k = 0) ∧
      (f.bar < k → chunkFunding w y (y.fills.drop a.fills.length) s k = 0 ∧
        mirrorUnits y.mirrorPending y.mirror s k = 0) := by
  have hin := h.settled s e f hd
  have htracked : Tracked w a.fills.length y.mirror.units y := by
    rw [h.ledger.mirror, ha.mirror]; exact h.tracked
  refine ⟨h.course.chunkUnits_eq_zero h.registry hd hin, fun hk => ⟨?_, ?_⟩⟩
  · unfold chunkFunding fundingTerm
    rw [h.course.chunkBefore_eq_zero h.registry hd hin hk]; simp
  · exact h.course.mirrorUnits_eq_zero h.registry hd htracked hk

theorem lifecycles_init (cfg : ReplayConfig) (known : SettlementEvent → Prop) :
    Lifecycles cfg known (Acc.init cfg) where
  capped := by simp [Capped, Acc.init]
  pending := by simp [Acc.init]
  registry := by simp [Acc.init]
  source := by simp [Acc.init]
  queued := by simp [Acc.init]
  flat := fun _ _ _ => rfl
  clock := .inl ⟨rfl, rfl⟩
  rows := by simp [rowBars, Acc.init]
  traded := by simp [Acc.init]
  accounts := fun _ => .inl ⟨rfl, rfl⟩
  queue := rfl
  mirror := rfl
  closed := fun _ _ _ _ => rfl

end Windows

end CryptoPilot.Engine
