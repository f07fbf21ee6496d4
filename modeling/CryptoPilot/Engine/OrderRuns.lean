/- # OrderRuns — what one order can do to the books.

The books are the fill track, the ledger and the mirror.  Whatever the fill rule, an order books
fills on later and later bars of its window, each on a bar that trades (`OrderRun`); `fillOrder_run`
says so of the five rules. -/
import CryptoPilot.Engine.TrancheContracts
import CryptoPilot.Engine.WindowLedger

namespace CryptoPilot.Engine

open List Option Except

open CryptoPilot.Live (Exc)
open CryptoPilot.Lib (bind_eq_ok)

/-! ## The books -/

/-- `b` has the books of `a`. -/
structure SameBooks (a b : Acc) : Prop where
  eq : b =
    { a with
      lastPrices := b.lastPrices, spread := b.spread, exitClock := b.exitClock
      equityFloorBreaches := b.equityFloorBreaches, valid := b.valid }
  valid : b.valid = true → a.valid = true

namespace SameBooks

variable {a b c : Acc}

theorem refl (a : Acc) : SameBooks a a := ⟨rfl, fun h => h⟩

theorem trans (hab : SameBooks a b) (hbc : SameBooks b c) : SameBooks a c where
  eq := by
    have h := hbc.eq
    rw [hab.eq] at h; exact h
  valid := fun h => hab.valid (hbc.valid h)

variable (h : SameBooks a b)

include h

theorem units : b.units = a.units := by rw [h.eq]
theorem fills : b.fills = a.fills := by rw [h.eq]
theorem lastTime : b.lastTime = a.lastTime := by rw [h.eq]
theorem mirrorPending : b.mirrorPending = a.mirrorPending := by rw [h.eq]
theorem admitted : b.admitted = a.admitted := by rw [h.eq]
theorem pending : b.pending = a.pending := by rw [h.eq]
theorem lastTrade : b.lastTrade = a.lastTrade := by rw [h.eq]
theorem ledgerStart : b.ledgerStart = a.ledgerStart := by rw [h.eq]
theorem trimAnchor : b.trimAnchor = a.trimAnchor := by rw [h.eq]
theorem overrides : b.overrides = a.overrides := by rw [h.eq]

end SameBooks

/-! ## Orders -/

/-- What a fill at a bar rests on. -/
structure Fillable (cfg : ReplayConfig) (w : Window) (o : Order) (bar : ℤ) (price : ℚ) (a : Acc) : Prop where
  bar_mem : bar ∈ w.grid
  signal_le : o.signal ≤ o.submit
  submit_le : o.submit ≤ bar
  bar_le : bar ≤ deadlineBar w (o.timeout cfg.spec)
  liquid : ∃ qv, w.quoteVolume bar o.symbol = some qv ∧ 0 < qv
  trading : w.halted bar = false
  known : w.fundingKnown bar o.symbol = true
  bar_lt : ∀ t ∈ a.lastTrade o.symbol, bar < t ∨ cfg.bound = .ladderedProxy ∧ price < 0

inductive OrderRun (cfg : ReplayConfig) (w : Window) (o : Order) : ℤ → Acc → Acc → Prop
  | quiet {floor : ℤ} {a b : Acc} (h : SameBooks a b) : OrderRun cfg w o floor a b
  | fill {floor bar : ℤ} {quantity price feeBps : ℚ} {reason : FillReason} {a a' b c : Acc}
      (hquiet : SameBooks a a') (hfloor : floor ≤ bar) (hfill : Fillable cfg w o bar price a')
      (hreason : reason ≠ .delistSettlement)
      (hbook : bookFill bar o.symbol quantity price feeBps reason (w.mark bar o.symbol) o.equity a' = .ok b)
      (rest : OrderRun cfg w o (bar + 1) b c) : OrderRun cfg w o floor a c

section OrderRun

variable {cfg : ReplayConfig} {w : Window} {o : Order} {floor floor' : ℤ} {a b c : Acc}

theorem OrderRun.of_quiet (hab : SameBooks a b) (h : OrderRun cfg w o floor b c) : OrderRun cfg w o floor a c := by
  cases h with
  | quiet h => exact .quiet (hab.trans h)
  | fill hquiet hfloor hfill hreason hbook rest => exact .fill (hab.trans hquiet) hfloor hfill hreason hbook rest

theorem OrderRun.mono (hle : floor' ≤ floor) (h : OrderRun cfg w o floor a b) : OrderRun cfg w o floor' a b := by
  cases h with
  | quiet h => exact .quiet h
  | fill hquiet hfloor hfill hreason hbook rest =>
    exact .fill hquiet (hle.trans hfloor) hfill hreason hbook rest

theorem bookFill_eq_ok {bar : ℤ} {s : String} {quantity price feeBps equity : ℚ} {reason : FillReason}
    {mark : Option ℚ} (h : bookFill bar s quantity price feeBps reason mark equity a = .ok b) :
    0 < equity ∧ ∃ f : Fill, f = ⟨bar, s, quantity, price, feeBps, a.units s + quantity, reason, equity⟩ ∧
      b = { a with
        lastPrices := b.lastPrices, exitClock := b.exitClock, cash := a.cash + f.flow
        units := Function.update a.units s f.postUnits, fills := a.fills ++ [f]
        mirrorPending := a.mirrorPending ++ [f] } := by
  unfold bookFill at h
  split at h
  · cases h
  · next hpos =>
    rw [ok.injEq] at h
    refine ⟨not_le.mp hpos, _, rfl, ?_⟩
    rw [← h]

end OrderRun

/-! ## Blocked fills -/

section Block

variable {cfg : ReplayConfig} {w : Window} {o : Order} {a b : Acc} {bar : ℤ}

theorem viabilityGap_eq_none (h : viabilityGap w o bar = none) :
    o.signal ≤ o.submit ∧ (∃ qv, w.quoteVolume bar o.symbol = some qv ∧ 0 < qv) ∧ w.halted bar = false ∧
      w.fundingKnown bar o.symbol = true := by
  unfold viabilityGap at h
  split at h
  · cases h
  · next htime =>
    split at h
    · cases h
    · next hzero =>
      split at h
      · cases h
      · next hvol =>
        split at h
        · cases h
        · next hknown =>
          have hqv : ∃ qv, w.quoteVolume bar o.symbol = some qv ∧ 0 < qv := by
            cases hq : w.quoteVolume bar o.symbol with
            | none => simp [hq] at hvol
            | some qv => exact ⟨qv, rfl, by simpa [hq] using hvol⟩
          simp only [not_or, Bool.not_eq_true] at hzero
          simp only [Bool.not_eq_false] at hknown
          exact ⟨(not_not.mp htime).1, hqv, hzero.2, hknown⟩

theorem viabilityGap_zeroVolume (h : viabilityGap w o bar = some .knownZeroVolume) : o.signal ≤ o.submit := by
  unfold viabilityGap at h
  split at h
  · cases h
  · next htime => exact (not_not.mp htime).1

theorem firstViableRetryBar_eq_some {s : String} {after deadline retry : ℤ} {lastTrade : Option ℤ}
    (h : firstViableRetryBar w s after deadline lastTrade = some retry) :
    retry ∈ w.grid ∧ after < retry ∧ retry ≤ deadline ∧ w.halted retry = false ∧
      (∃ qv, w.quoteVolume retry s = some qv ∧ 0 < qv) ∧ w.fundingKnown retry s = true ∧
      ∀ t ∈ lastTrade, retry < t := by
  have hmem := mem_of_find?_eq_some h
  have hp := find?_some h
  simp only [Bool.and_eq_true, decide_eq_true_eq, Bool.not_eq_true', Option.any_eq_true, Option.all_eq_true] at hp
  obtain ⟨⟨⟨⟨⟨⟨h1, h2⟩, h3⟩, qv, hqv, hpos⟩, hknown⟩, -⟩, hlast⟩ := hp
  exact ⟨hmem, h1, h2, h3, ⟨qv, hqv, hpos⟩, hknown, hlast⟩

theorem deadlineBar_mono {x y : ℤ} (h : x ≤ y) : deadlineBar w x ≤ deadlineBar w y := by
  unfold deadlineBar
  cases hy : w.firstFrom y with
  | none =>
    cases hx : w.firstFrom x with
    | none => exact le_refl _
    | some c => exact Window.mem_le_last (Window.firstFrom_mem hx).1
  | some c =>
    obtain ⟨hc, hyc⟩ := Window.firstFrom_mem hy
    cases hx : w.firstFrom x with
    | none => exact absurd (Window.firstFrom_eq_none hx c hc) (by omega)
    | some d => exact Window.firstFrom_le hx hc (h.trans hyc)

theorem le_deadlineBar {x : ℤ} (hbar : bar ∈ w.grid) (h : bar ≤ x) : bar ≤ deadlineBar w x := by
  unfold deadlineBar
  cases hx : w.firstFrom x with
  | none => exact Window.mem_le_last hbar
  | some c => exact h.trans (Window.firstFrom_mem hx).2

theorem deferBlockedExit_run {deadline : ℤ} {net : ℚ} (hsignal : o.signal ≤ o.submit) (hsubmit : o.submit ≤ bar)
    (hdeadline : deadline ≤ deadlineBar w (o.timeout cfg.spec))
    (h : deferBlockedExit cfg w o bar deadline net a = .ok b) : OrderRun cfg w o (bar + 1) a b := by
  unfold deferBlockedExit at h
  split at h
  · rw [ok.injEq] at h; exact .quiet (h ▸ SameBooks.refl a)
  · next retry hretry =>
    obtain ⟨hmem, hafter, hle, hopen, hliquid, hknown, hlast⟩ := firstViableRetryBar_eq_some hretry
    exact .fill (SameBooks.refl a) (by omega)
      ⟨hmem, hsignal, by omega, by omega, hliquid, hopen, hknown, fun t ht => .inl (hlast t ht)⟩ (by simp) h
      (.quiet (SameBooks.refl b))

theorem blockFill_run {gap : ViabilityGap} {deadline : ℤ} {net : ℚ} (hgap : viabilityGap w o bar = some gap)
    (hsubmit : o.submit ≤ bar) (hdeadline : deadline ≤ deadlineBar w (o.timeout cfg.spec))
    (h : blockFill cfg w o gap bar deadline net a = .ok b) : OrderRun cfg w o (bar + 1) a b := by
  have invalidated : SameBooks a { a with valid := false } := ⟨rfl, by simp⟩
  unfold blockFill at h
  simp only at h
  split at h
  · next hzero =>
    have hzero : gap = .knownZeroVolume := by
      split at hzero
      · cases hzero
      · exact hzero
    subst hzero
    split at h
    · split at h
      · rw [bind_eq_ok] at h
        obtain ⟨⟨admitted, clock⟩, -, h⟩ := h
        have hclock : SameBooks a { a with exitClock := clock } := ⟨rfl, fun h => h⟩
        split at h
        · exact (deferBlockedExit_run (viabilityGap_zeroVolume hgap) hsubmit hdeadline h).of_quiet hclock
        · rw [ok.injEq] at h
          subst h; exact .quiet ⟨rfl, by simp⟩
      · rw [ok.injEq] at h; exact .quiet (h ▸ invalidated)
    · rw [ok.injEq] at h; exact .quiet (h ▸ SameBooks.refl a)
  · rw [ok.injEq] at h
    subst h
    split
    · exact .quiet invalidated
    · exact .quiet (SameBooks.refl a)
  all_goals rw [ok.injEq] at h; exact .quiet (h ▸ invalidated)

end Block

/-! ## The fill rules -/

section Rules

variable {cfg : ReplayConfig} {w : Window} {o : Order} {a b : Acc} {bar : ℤ}

/-- One fill of a schedule: cancelled, booked at its bar, or blocked there, which ends the order. -/
inductive Attempt (cfg : ReplayConfig) (w : Window) (o : Order) (bar : ℤ) (a : Acc) : Bool × Acc → Prop
  | cancelled : Attempt cfg w o bar a (false, a)
  | booked {quantity price feeBps : ℚ} {reason : FillReason} {b : Acc} (hfill : Fillable cfg w o bar price a)
      (hreason : reason ≠ .delistSettlement)
      (hbook : bookFill bar o.symbol quantity price feeBps reason (w.mark bar o.symbol) o.equity a = .ok b) :
      Attempt cfg w o bar a (false, b)
  | blocked {b : Acc} (h : OrderRun cfg w o (bar + 1) a b) : Attempt cfg w o bar a (true, b)

theorem bookFill_lastTrade {s : String} {quantity price feeBps equity : ℚ} {reason : FillReason}
    {mark : Option ℚ} (h : bookFill bar s quantity price feeBps reason mark equity a = .ok b) :
    b.lastTrade = a.lastTrade := by
  obtain ⟨-, f, -, hb⟩ := bookFill_eq_ok h
  rw [hb]

theorem runSchedule_run {step : Tranche → Acc → Except Exc (Bool × Acc)} (barOf : ℕ → ℤ)
    {ends : String → Option ℤ} :
    ∀ {ts : List Tranche} {floor : ℤ} {a b : Acc}, a.lastTrade = ends →
      ts.Pairwise (fun t u => barOf t.rel < barOf u.rel) → (∀ t ∈ ts, floor ≤ barOf t.rel) →
      (∀ t ∈ ts, ∀ a r, a.lastTrade = ends → step t a = .ok r → Attempt cfg w o (barOf t.rel) a r) →
      runSchedule step ts a = .ok b → OrderRun cfg w o floor a b
  | [], floor, a, b, _, _, _, _, h => by
    rw [runSchedule, ok.injEq] at h; exact .quiet (h ▸ SameBooks.refl a)
  | t :: ts, floor, a, b, hends, hsorted, hfloor, hstep, h => by
    rw [runSchedule, bind_eq_ok] at h
    obtain ⟨⟨stop, c⟩, hc, h⟩ := h
    have hattempt := hstep t mem_cons_self a _ hends hc
    have hrest := pairwise_cons.mp hsorted
    have hstep' := fun u hu => hstep u (mem_cons_of_mem t hu)
    have ht := hfloor t mem_cons_self
    cases hattempt with
    | cancelled =>
      exact runSchedule_run barOf hends hrest.2 (fun u hu => hfloor u (mem_cons_of_mem t hu)) hstep' h
    | booked hfill hreason hbook =>
      have hlater : ∀ u ∈ ts, barOf t.rel + 1 ≤ barOf u.rel := fun u hu => hrest.1 u hu
      exact .fill (SameBooks.refl a) ht hfill hreason hbook
        (runSchedule_run barOf ((bookFill_lastTrade hbook).trans hends) hrest.2 hlater hstep' h)
    | blocked hrun =>
      simp only [if_true, ok.injEq] at h; exact (h ▸ hrun).mono (by omega)

theorem scheduledFill_attempt {entry : ℚ} {t : Tranche} {r : Bool × Acc} (hbar : bar ∈ w.grid)
    (hsubmit : o.submit ≤ bar) (hle : bar ≤ o.timeout cfg.spec)
    (hlast : ∀ e ∈ a.lastTrade o.symbol, bar < e ∨ cfg.bound = .ladderedProxy ∧ t.price < 0)
    (h : scheduledFill cfg w o entry t bar a = .ok r) : Attempt cfg w o bar a r := by
  unfold scheduledFill at h
  split at h
  · next gap hgap =>
    obtain ⟨c, hc, h⟩ := bind_eq_ok.mp h
    rw [ok.injEq] at h
    subst h
    have hcap : o.cappedLimit cfg.spec a ≤ o.timeout cfg.spec := by
      unfold Order.cappedLimit
      split
      · exact le_refl _
      · exact min_le_left _ _
    exact .blocked (blockFill_run hgap hsubmit (deadlineBar_mono hcap) hc)
  · next hgap =>
    obtain ⟨c, hc, h⟩ := bind_eq_ok.mp h
    rw [ok.injEq] at h
    subst h
    obtain ⟨hsignal, hliquid, hopen, hknown⟩ := viabilityGap_eq_none hgap
    refine .booked ⟨hbar, hsignal, hsubmit, le_deadlineBar hbar hle, hliquid, hopen, hknown, hlast⟩ ?_ hc
    split <;> simp

theorem Order.submit_le_timeout : o.submit ≤ o.timeout cfg.spec := by
  have := cfg.spec.timeoutNs_pos
  rw [Order.timeout]; omega

theorem Order.mem_bars : bar ∈ o.bars w cfg.spec ↔ bar ∈ w.grid ∧ o.submit ≤ bar ∧ bar < o.timeout cfg.spec := by
  simp [Order.bars]

theorem Order.mem_cappedBars : bar ∈ o.cappedBars w cfg.spec a ↔
    bar ∈ o.bars w cfg.spec ∧ ∀ t ∈ a.lastTrade o.symbol, bar < t := by
  simp [Order.cappedBars, Option.all_eq_true]

theorem Order.side_eq : o.side = 1 ∨ o.side = -1 := by
  unfold Order.side
  split
  · exact .inl rfl
  · exact .inr rfl

theorem Order.side_beq_one : (o.side == 1) = o.buy := by
  unfold Order.side
  cases o.buy <;> rfl

variable (cfg w o) in
theorem Order.bars_sorted : (o.bars w cfg.spec).Pairwise (· < ·) := w.grid_sorted.filter _

theorem getD_mem {xs : List ℤ} {i : ℕ} (h : i < xs.length) : xs.getD i 0 ∈ xs := by
  rw [getD_eq_getElem?_getD, getElem?_eq_getElem h]; exact getElem_mem h

theorem getD_lt_getD {xs : List ℤ} (hs : xs.Pairwise (· < ·)) {i j : ℕ} (hij : i < j) (hj : j < xs.length) :
    xs.getD i 0 < xs.getD j 0 := by
  rw [getD_eq_getElem?_getD, getD_eq_getElem?_getD, getElem?_eq_getElem hj, getElem?_eq_getElem (hij.trans hj)]
  exact pairwise_iff_getElem.mp hs i j _ _ hij

variable (cfg w o a) in
theorem Order.cappedBars_first : o.cappedBars w cfg.spec a <+: o.bars w cfg.spec := by
  unfold Order.cappedBars
  have hs := Order.bars_sorted cfg w o
  generalize o.bars w cfg.spec = xs at hs ⊢
  induction xs with
  | nil => simp
  | cons x xs ih =>
    obtain ⟨hx, hxs⟩ := pairwise_cons.mp hs
    by_cases hp : (a.lastTrade o.symbol).all (fun t => decide (x < t)) = true
    · rw [filter_cons, if_pos hp]; exact prefix_cons_inj x |>.mpr (ih hxs)
    · rw [filter_cons, if_neg hp, filter_eq_nil_iff.mpr]
      · exact nil_prefix
      · intro y hy hall
        apply hp
        simp only [Option.all_eq_true, decide_eq_true_eq] at hall ⊢
        intro t ht; exact (hx y hy).trans (hall t ht)

theorem getD_first {xs ys : List ℤ} (h : xs <+: ys) {i : ℕ} (hi : i < xs.length) : ys.getD i 0 = xs.getD i 0 := by
  obtain ⟨zs, rfl⟩ := h
  rw [getD_eq_getElem?_getD, getD_eq_getElem?_getD, getElem?_append_left hi]

theorem mapM_length {α β : Type} {f : α → Option β} {xs : List α} {ys : List β} (h : xs.mapM f = some ys) :
    ys.length = xs.length := by
  induction xs generalizing ys with
  | nil =>
    cases h; rfl
  | cons x xs ih =>
    rw [mapM_cons] at h
    simp only [Option.bind_eq_bind, Option.bind_eq_some_iff, Option.pure_def, Option.some.injEq] at h
    obtain ⟨y, -, zs, hzs, rfl⟩ := h
    rw [length_cons, length_cons, ih hzs]

theorem crossed_padding {buy : Bool} {adverse : List ℚ} {n rel : ℕ} {price : ℚ}
    (h : crossed buy true price ((padAdverse buy n adverse).getD rel none) = true) (hrel : adverse.length ≤ rel) :
    price < 0 := by
  unfold padAdverse at h
  rw [getD_eq_getElem?_getD, getElem?_append_right (by simpa using hrel), getElem?_replicate] at h
  cases buy with
  | true => split at h <;> simp [crossed] at h
  | false =>
    split at h
    · simpa [crossed] using h
    · simp [crossed] at h

theorem cappedBars_of_takerAllowed (h : o.takerAllowed cfg.spec a = true) :
    o.cappedBars w cfg.spec a = o.bars w cfg.spec := by
  rw [Order.cappedBars, filter_eq_self]
  intro x hx
  unfold Order.takerAllowed at h
  simp only [Option.all_eq_true, decide_eq_true_eq] at h ⊢
  intro t ht; exact (Order.mem_bars.mp hx).2.2.trans (h t ht)

theorem ladderAdverse_length {adverse : List ℚ}
    (h : (o.cappedBars w cfg.spec a).mapM (adverseAt w o.buy o.symbol) = some adverse) :
    (padAdverse o.buy (if o.takerAllowed cfg.spec a = true then 0
      else (o.bars w cfg.spec).length - (o.cappedBars w cfg.spec a).length) adverse).length =
        (o.bars w cfg.spec).length := by
  have hle := (Order.cappedBars_first cfg w o a).length_le
  unfold padAdverse
  rw [length_append, length_map, length_replicate, mapM_length h]
  split
  · next htaker =>
    rw [cappedBars_of_takerAllowed htaker]; omega
  · omega

def ladderBar (w : Window) (spec : ExecutionSpec) (o : Order) (rel : ℕ) : ℤ :=
  if rel = (o.bars w spec).length then o.timeout spec else (o.bars w spec).getD rel 0

theorem ladderBar_lt {i j : ℕ} (hij : i < j) (hj : j < (o.bars w cfg.spec).length + 1) :
    ladderBar w cfg.spec o i < ladderBar w cfg.spec o j := by
  unfold ladderBar
  rw [if_neg (by omega)]
  split
  · exact (Order.mem_bars.mp (getD_mem (by omega))).2.2
  · exact getD_lt_getD (Order.bars_sorted cfg w o) hij (by omega)

theorem submit_le_ladderBar {i : ℕ} (hi : i < (o.bars w cfg.spec).length + 1) :
    o.submit ≤ ladderBar w cfg.spec o i := by
  unfold ladderBar
  split
  · exact Order.submit_le_timeout
  · exact (Order.mem_bars.mp (getD_mem (by omega))).2.1

theorem ladderFill_attempt {c : Acc} {entry : ℚ} {t : Tranche} {r : Bool × Acc} (hends : c.lastTrade = a.lastTrade)
    (hbound : cfg.bound = .ladderedProxy) (hrel : t.rel < (o.bars w cfg.spec).length + 1)
    (hprice : t.rel < (o.bars w cfg.spec).length → (o.cappedBars w cfg.spec a).length ≤ t.rel → t.price < 0)
    (h : ladderFill cfg w o entry (o.takerAllowed cfg.spec a) (o.bars w cfg.spec) t c = .ok r) :
    Attempt cfg w o (ladderBar w cfg.spec o t.rel) c r := by
  have cancelled : ∀ {bar : ℤ}, (ok (false, c) : Except Exc (Bool × Acc)) = .ok r → Attempt cfg w o bar c r :=
    fun hc => ok.inj hc ▸ .cancelled
  unfold ladderFill at h
  unfold ladderBar
  split at h
  · next hn =>
    rw [if_pos hn]
    split at h
    · exact cancelled h
    · next htaker =>
      split at h
      · exact cancelled h
      · next hgrid =>
        rw [not_or, not_not] at hgrid
        refine scheduledFill_attempt hgrid.1 Order.submit_le_timeout le_rfl ?_ h
        intro e he
        rw [hends] at he
        unfold Order.takerAllowed at htaker
        simp only [Bool.not_eq_false, Option.all_eq_true, decide_eq_true_eq] at htaker
        exact .inl (htaker e he)
  · next hn =>
    rw [if_neg hn]
    obtain ⟨hmem, hsub, hto⟩ := Order.mem_bars.mp
      (getD_mem (show t.rel < (o.bars w cfg.spec).length by omega))
    refine scheduledFill_attempt hmem hsub hto.le ?_ h
    intro e he
    rw [hends] at he
    by_cases hin : t.rel < (o.cappedBars w cfg.spec a).length
    · left
      rw [getD_first (Order.cappedBars_first cfg w o a) hin]
      exact (Order.mem_cappedBars.mp (getD_mem hin)).2 e he
    · exact .inr ⟨hbound, hprice (by omega) (by omega)⟩

/-- **The ladder** fills bars of its order, and past the end of trading at a negative limit only. -/
theorem fillLaddered_run (hbound : cfg.bound = .ladderedProxy) (h : fillLaddered cfg w o a = .ok b) :
    OrderRun cfg w o o.submit a b := by
  have quiet : ∀ {c : Acc}, (ok a : Except Exc Acc) = .ok c → OrderRun cfg w o o.submit a c :=
    fun hc => .quiet (ok.inj hc ▸ SameBooks.refl a)
  unfold fillLaddered at h
  simp only at h
  split at h
  · exact quiet h
  · next adverse hadverse =>
    split at h
    · exact quiet h
    · next closes hcloses =>
      split at h
      · exact quiet h
      · obtain ⟨hsched, hsorted⟩ := Microstructure.ladderSchedule_sorted o.decisionPrice o.side
          (padAdverse o.buy (if o.takerAllowed cfg.spec a = true then 0
            else (o.bars w cfg.spec).length - (o.cappedBars w cfg.spec a).length) adverse)
          ((if o.takerAllowed cfg.spec a = true then closes
            else padEdge ((if o.takerAllowed cfg.spec a = true then 0
              else (o.bars w cfg.spec).length - (o.cappedBars w cfg.spec a).length) + 1) closes).map some)
          cfg.spec true cfg.spec.tranches_pos
        rw [ladderAdverse_length hadverse, Order.side_beq_one] at hsched
        apply runSchedule_run (ladderBar w cfg.spec o) rfl ?_ ?_ ?_ h
        · apply List.Pairwise.imp_of_mem _ hsorted
          intro t u _ hu htu; exact ladderBar_lt htu (hsched u hu).1
        · intro t ht; exact submit_le_ladderBar (hsched t ht).1
        · intro t ht c r hends hstep
          refine ladderFill_attempt hends hbound (hsched t ht).1 ?_ hstep
          intro hlt hcap
          exact crossed_padding ((hsched t ht).2 hlt) (by rwa [mapM_length hadverse])

/-- **The peg chase** fills bars of its order before the end of trading. -/
theorem fillPegChase_run (h : fillPegChase cfg w o a = .ok b) : OrderRun cfg w o o.submit a b := by
  have quiet : ∀ {c : Acc}, (ok a : Except Exc Acc) = .ok c → OrderRun cfg w o o.submit a c :=
    fun hc => .quiet (ok.inj hc ▸ SameBooks.refl a)
  unfold fillPegChase at h
  simp only at h
  split at h
  · exact quiet h
  · next adverse hadverse =>
    split at h
    · exact quiet h
    · next closes hcloses =>
      split at h
      · exact quiet h
      · next hcapped =>
        have hle := (Order.cappedBars_first cfg w o a).length_le
        have hlength : (padAdverse o.buy ((o.bars w cfg.spec).length - (o.cappedBars w cfg.spec a).length)
            adverse).length = (o.bars w cfg.spec).length := by
          unfold padAdverse
          rw [length_append, length_map, length_replicate, mapM_length hadverse]; omega
        have hbars : 0 < (o.bars w cfg.spec).length := (length_pos_iff.mpr hcapped).trans_le hle
        obtain ⟨hrel, hsorted⟩ := Microstructure.pegSchedule_sorted o.decisionPrice cfg.spec
          (some (cfg.spec.takerFeeBps + takerCostBps cfg.spec a o.symbol)) cfg.linspace Order.side_eq
          (length_pos_iff.mp (hlength ▸ hbars))
          ((padEdge ((o.bars w cfg.spec).length - (o.cappedBars w cfg.spec a).length) closes).map some)
        rw [hlength] at hrel
        have hmem := fun i (hi : i < (o.bars w cfg.spec).length) =>
          Order.mem_bars.mp (getD_mem hi)
        apply runSchedule_run (fun i => (o.bars w cfg.spec).getD i 0) rfl ?_ ?_ ?_ h
        · apply List.Pairwise.imp_of_mem _ hsorted
          intro t u _ hu htu; exact getD_lt_getD (Order.bars_sorted cfg w o) htu (hrel u hu)
        · intro t ht; exact (hmem t.rel (hrel t ht)).2.1
        · intro t ht c r hends hstep
          unfold pegFill at hstep
          split at hstep
          · exact ok.inj hstep ▸ .cancelled
          · next hcut =>
            obtain ⟨hgrid, hsub, hto⟩ := hmem t.rel (hrel t ht)
            refine scheduledFill_attempt hgrid hsub hto.le ?_ hstep
            intro e he
            rw [hends] at he
            left
            have hin : t.rel < (o.cappedBars w cfg.spec a).length := by
              have := hrel t ht; simp only [decide_eq_true_eq, ne_eq] at hcut; omega
            rw [getD_first (Order.cappedBars_first cfg w o a) hin]
            exact (Order.mem_cappedBars.mp (getD_mem hin)).2 e he

theorem bookResolved_run {r : Resolved} (hbar : r.bar ∈ w.grid) (hsubmit : o.submit ≤ r.bar)
    (hle : r.bar ≤ o.timeout cfg.spec) (hlast : ∀ e ∈ a.lastTrade o.symbol, r.bar < e)
    (hreason : r.reason ≠ .delistSettlement) (h : bookResolved cfg w o r a = .ok b) :
    OrderRun cfg w o o.submit a b := by
  unfold bookResolved at h
  split at h
  · next gap hgap => exact (blockFill_run hgap hsubmit le_rfl h).mono (by omega)
  · next hgap =>
    obtain ⟨hsignal, hliquid, hopen, hknown⟩ := viabilityGap_eq_none hgap
    exact .fill (SameBooks.refl a) hsubmit
      ⟨hbar, hsignal, hsubmit, le_deadlineBar hbar hle, hliquid, hopen, hknown, fun e he => .inl (hlast e he)⟩
      hreason h (.quiet (SameBooks.refl b))

theorem resolveStrictTouch_eq_some {r : Resolved} (h : resolveStrictTouch cfg w o a = some r) :
    r.bar ∈ w.grid ∧ o.submit ≤ r.bar ∧ r.bar ≤ o.timeout cfg.spec ∧ (∀ e ∈ a.lastTrade o.symbol, r.bar < e) ∧
      r.reason ≠ .delistSettlement := by
  unfold resolveStrictTouch at h
  simp only at h
  split at h
  · cases h
  · next adverse hadverse =>
    split at h
    · cases h
    · split at h
      · next hit hfind =>
        rw [Option.some.injEq] at h
        subst h
        have hlt : hit < (o.cappedBars w cfg.spec a).length := by
          rw [findIdx?_eq_some_iff_getElem] at hfind
          obtain ⟨hlt, -⟩ := hfind
          rw [length_map, mapM_length hadverse] at hlt; exact hlt
        obtain ⟨hbars, hends⟩ := Order.mem_cappedBars.mp (getD_mem hlt)
        obtain ⟨hgrid, hsub, hto⟩ := Order.mem_bars.mp hbars
        exact ⟨hgrid, hsub, hto.le, hends, by simp⟩
      · split at h
        · cases h
        · next hgrid =>
          rw [not_or, not_not] at hgrid
          rw [map_eq_some_iff] at h
          obtain ⟨close, -, rfl⟩ := h
          refine ⟨hgrid.2, Order.submit_le_timeout, le_rfl, ?_, by simp⟩
          have htaker := hgrid.1
          unfold Order.takerAllowed at htaker
          simp only [Bool.not_eq_false, Option.all_eq_true, decide_eq_true_eq] at htaker
          exact htaker

/-- **Every fill rule is an order run.** -/
theorem fillOrder_run (hsubmit : o.submit ∈ w.grid) (hlast : ∀ e ∈ a.lastTrade o.symbol, o.submit < e)
    (h : fillOrder cfg w o a = .ok b) : OrderRun cfg w o o.submit a b := by
  have quiet : ∀ {c : Acc}, (ok a : Except Exc Acc) = .ok c → OrderRun cfg w o o.submit a c :=
    fun hc => .quiet (ok.inj hc ▸ SameBooks.refl a)
  unfold fillOrder at h
  split at h
  · next hbound => exact fillLaddered_run hbound h
  · exact fillPegChase_run h
  · split at h
    · exact quiet h
    · next r hr =>
      unfold resolveImmediateTaker at hr
      rw [map_eq_some_iff] at hr
      obtain ⟨close, -, rfl⟩ := hr
      exact bookResolved_run hsubmit le_rfl Order.submit_le_timeout hlast (by simp) h
  all_goals
    split at h
    · exact quiet h
    · next r hr =>
      obtain ⟨hgrid, hsub, hto, hends, hreason⟩ := resolveStrictTouch_eq_some hr
      exact bookResolved_run hgrid hsub hto hends hreason h

end Rules

end CryptoPilot.Engine
