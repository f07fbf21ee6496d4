/- # Mirror — the causal mirror and the streamed ledger.

The ledger rebuilds the inventory of a bar from the last post-fill level in bar order; the mirror
adds the queued quantities; the fill track runs. -/
import CryptoPilot.Engine.Booking
import CryptoPilot.Engine.WindowStream

namespace CryptoPilot.Engine

open List

open CryptoPilot.Live (Exc)
open CryptoPilot.Lib (bind_eq_ok exists_ok foldlM_invariant sum_by_key eq_filter_append_filter)

/-! ## Agreement -/

def carriedValue (cfg : ReplayConfig) (a : Acc) : ℚ :=
  (cfg.columns.map (fun s => a.units s * (a.lastValidMark s).getD 0)).sum

/-- Between two windows the mirror, the ledger and the fill track have the same books. -/
structure Agrees (cfg : ReplayConfig) (a : Acc) : Prop where
  cash : a.mirror.cash = a.ledgerCash
  units : a.mirror.units = a.ledgerUnits
  track : a.ledgerUnits = a.units
  marks : a.mirror.lastMarks = a.lastValidMark
  queue : a.mirrorPending = []
  overrides : a.overrides = fun _ _ => none
  capped : Capped a
  pending : ∀ e ∈ a.pending, e ∈ a.admitted
  equity : ∀ row ∈ a.rows.getLast?, row.equity = a.ledgerCash + carriedValue cfg a

/-- **What keeps the three books together.**  Orders are resolved before the next one, an unknown
rate is zero, a mark the mirror does not see is the carried one, what is held is on the roster, and
a ladder cut short by a delivery finds no later trade. -/
structure Orderly (cfg : ReplayConfig) (a : Acc) (w : Window) : Prop where
  spaced : Spaced cfg w a
  unknown : ∀ b ∈ w.grid, ∀ s ∈ w.symbols, w.fundingKnown b s = false → w.fundingRate b s = 0
  marked : ∀ s ∈ w.symbols, (∀ b ∈ keptBars w a, w.mark b s = none) →
    ∀ b, (w.grid.filter (fun c => (w.mark c s).isSome)).getLast? = some b → w.mark b s = a.lastValidMark s
  roster : ∀ s ∈ cfg.columns, a.units s ≠ 0 → s ∈ w.symbols
  ended : cfg.bound = .ladderedProxy → ∀ s t,
    (t ∈ a.lastTrade s ∨ ∃ e ∈ w.settlementEvents, e.symbol = s ∧ e.lastTrade = t) →
    ∀ b ∈ w.grid, t ≤ b → ∀ qv ∈ w.quoteVolume b s, qv ≤ 0

/-! ## One window, bar by bar -/

section Bars

variable {cfg : ReplayConfig} {w : Window} {n : ℕ} {start : String → ℚ} {a c : Acc}

theorem level_eq {cut : ℤ → Bool} (hcut : ∀ b d, b ≤ d → cut d = true → cut b = true) (ht : Tracked w n start c)
    (ho : BarOrdered (recent n c)) (hledger : c.ledgerUnits = start) (s : String) :
    lastLevel (c.fills.drop n) s (c.ledgerUnits s) cut =
      start s + ((c.mirrorPending.filter (fun f => decide (f.symbol = s) && cut f.bar)).map Fill.quantity).sum := by
  have hsum := lastLevel_eq_sum (s := s) hcut ht.levels ho
  rw [recent, lastLevel_unlabelled, ← recent, ← ht.pending] at hsum
  rw [hledger, hsum, sum_unlabelled (fun f => rfl) (fun f => rfl)]

section

variable (ht : Tracked w n start c) (ho : BarOrdered (recent n c)) (hledger : c.ledgerUnits = start)
  (hmirror : c.mirror.units = start)

include ht ho hledger hmirror

theorem chunkBefore_eq (s : String) (b : ℤ) :
    chunkBefore c (c.fills.drop n) s b = mirrorUnits c.mirrorPending c.mirror s b := by
  unfold chunkBefore mirrorUnits
  rw [level_eq _ ht ho hledger, hmirror]
  intro d e hde he; simp only [decide_eq_true_eq] at he ⊢; omega

theorem mirrorCharge_eq
    (hunknown : ∀ b ∈ w.grid, ∀ s ∈ w.symbols, w.fundingKnown b s = false → w.fundingRate b s = 0) {b : ℤ}
    (hb : b ∈ w.grid) :
    mirrorCharge w (c.patchedMarks w) c.mirrorPending c.mirror b = fundingAt w c (c.fills.drop n) b := by
  unfold mirrorCharge fundingAt
  congr 1
  apply map_congr_left
  intro s hs
  unfold chunkFunding fundingTerm
  rw [chunkBefore_eq ht ho hledger hmirror]
  by_cases hknown : w.fundingKnown b s = true
  · rw [if_pos hknown, if_neg (by simp [hknown])]
  · have hzero := hunknown b hb s hs (by simpa using hknown)
    rw [if_neg hknown, hzero, ite_self]; ring

end

variable {marks : ℤ → String → Option ℚ} {r : CausalState × Bool} {state : CausalState}

theorem settleWindow_eq_ok {kept : List ℤ} {pending : List Fill}
    (h : settleWindow w marks kept pending state = .ok r) :
    kept ≠ [] ∧ (∀ f ∈ pending, kept.headD 0 ≤ f.bar → f.bar ∈ kept ∧ f.symbol ∈ w.symbols) ∧
      r.1.cash = state.cash - (kept.map (mirrorCharge w marks pending state)).sum +
        ((pending.filter (fun f => decide (kept.headD 0 ≤ f.bar))).map Fill.flow).sum ∧
      r.1.units = (fun s => state.units s + traded pending s) ∧
      r.1.lastMarks = fun s =>
        if s ∈ w.symbols then
          match (kept.filter (fun b => (marks b s).isSome)).getLast? with
          | some b => marks b s
          | none => state.lastMarks s
        else state.lastMarks s := by
  unfold settleWindow at h
  simp only at h
  split at h
  · cases h
  · next hkept =>
    split at h
    · cases h
    · next hall =>
      rw [Except.ok.injEq] at h
      subst h
      refine ⟨fun hnil => hkept (.inl hnil), ?_, rfl, rfl, rfl⟩
      intro f hf hstart
      by_contra hcon
      apply hall
      rw [any_eq_true]
      refine ⟨f, hf, ?_⟩
      simp only [hstart, decide_true, Bool.true_and, Bool.not_eq_true', Bool.and_eq_false_iff,
        decide_eq_false_iff_not]
      exact not_and_or.mp hcon

theorem keptBars_sorted : (keptBars w c).Pairwise (· < ·) := w.grid_sorted.filter _

theorem head_le_kept {b : ℤ} (hb : b ∈ keptBars w c) : (keptBars w c).headD 0 ≤ b := by
  have hs := keptBars_sorted (w := w) (c := c)
  cases hk : keptBars w c with
  | nil => simp [hk] at hb
  | cons x xs =>
    rw [hk] at hs hb
    rcases mem_cons.mp hb with rfl | hb
    · simp
    · exact (rel_of_pairwise_cons hs hb).le

theorem pending_le_last (h : settleWindow w marks (keptBars w c) c.mirrorPending state = .ok r) :
    ∀ f ∈ c.mirrorPending, f.bar ≤ w.last := by
  intro f hf
  obtain ⟨hne, hall, -⟩ := settleWindow_eq_ok h
  by_cases hstart : (keptBars w c).headD 0 ≤ f.bar
  · exact Window.mem_le_last (mem_keptBars.mp (hall f hf hstart).1).1
  · obtain ⟨x, hx⟩ := exists_mem_of_ne_nil _ hne
    have h1 := head_le_kept hx
    have h2 := Window.mem_le_last (mem_keptBars.mp hx).1; omega

theorem sum_flowAt (ht : Tracked w n start c)
    (hall : ∀ f ∈ c.mirrorPending, (keptBars w c).headD 0 ≤ f.bar → f.bar ∈ keptBars w c ∧ f.symbol ∈ w.symbols) :
    ((keptBars w c).map (fun b => flowAt (c.fills.drop n) b)).sum =
      ((c.mirrorPending.filter (fun f => decide ((keptBars w c).headD 0 ≤ f.bar))).map Fill.flow).sum := by
  have hnodup : (keptBars w c).Nodup := (keptBars_sorted (w := w) (c := c)).imp (fun h => h.ne)
  have hfilter : c.mirrorPending.filter (fun f => decide ((keptBars w c).headD 0 ≤ f.bar)) =
      c.mirrorPending.filter (fun f => decide (f.bar ∈ keptBars w c)) := by
    apply filter_congr
    intro f hf
    rw [decide_eq_decide]; exact ⟨fun h => (hall f hf h).1, head_le_kept⟩
  calc ((keptBars w c).map (fun b => flowAt (c.fills.drop n) b)).sum
      = (((c.fills.drop n).filter (fun f => decide (f.bar ∈ keptBars w c))).map Fill.flow).sum :=
        sum_by_key Fill.flow Fill.bar hnodup _
    _ = (((recent n c).filter (fun f => decide (f.bar ∈ keptBars w c))).map Fill.flow).sum :=
        (sum_unlabelled (fun _ => rfl) (fun _ => rfl) _).symm
    _ = ((c.mirrorPending.filter (fun f => decide (f.bar ∈ keptBars w c))).map Fill.flow).sum := by
        rw [← ht.pending]; exact sum_unlabelled (fun _ => rfl) (fun _ => rfl) _
    _ = _ := by rw [hfilter]

section

variable (ht : Tracked w n start c) (ho : BarOrdered (recent n c)) (hledger : c.ledgerUnits = start)
  (hmirror : c.mirror.units = start)

include ht ho hledger hmirror

/-- **Cash.** -/
theorem settleWindow_cash (hcash : c.mirror.cash = c.ledgerCash)
    (hunknown : ∀ b ∈ w.grid, ∀ s ∈ w.symbols, w.fundingKnown b s = false → w.fundingRate b s = 0)
    (h : settleWindow w (c.patchedMarks w) (keptBars w c) c.mirrorPending c.mirror = .ok r) :
    r.1.cash = cashAfter w c (c.fills.drop n) w.last := by
  obtain ⟨-, hall, hr, -⟩ := settleWindow_eq_ok h
  have hkept : (keptBars w c).filter (fun b => decide (b ≤ w.last)) = keptBars w c := by
    rw [filter_eq_self]
    intro b hb; exact decide_eq_true (Window.mem_le_last (mem_keptBars.mp hb).1)
  have hcharge : (keptBars w c).map (mirrorCharge w (c.patchedMarks w) c.mirrorPending c.mirror) =
      (keptBars w c).map (fundingAt w c (c.fills.drop n)) := by
    apply map_congr_left
    intro b hb; exact mirrorCharge_eq ht ho hledger hmirror hunknown (mem_keptBars.mp hb).1
  have hsplit := sum_map_add (l := keptBars w c)
    (f := fun b => flowAt (c.fills.drop n) b - fundingAt w c (c.fills.drop n) b)
    (g := fundingAt w c (c.fills.drop n))
  simp only [sub_add_cancel] at hsplit
  rw [hr, hcash, hcharge, ← sum_flowAt ht hall, hsplit]
  unfold cashAfter
  rw [hkept]; ring

/-- **Units.** -/
theorem settleWindow_units (h : settleWindow w (c.patchedMarks w) (keptBars w c) c.mirrorPending c.mirror = .ok r)
    (s : String) :
    r.1.units s = c.units s ∧
      (if s ∈ w.symbols then chunkUnits c (c.fills.drop n) s w.last else c.ledgerUnits s) = c.units s := by
  have hunits : c.units s = start s + traded c.mirrorPending s := by
    rw [ht.units s, ← ht.pending]
    congr 1; exact sum_unlabelled (fun _ => rfl) (fun _ => rfl) _
  obtain ⟨-, -, -, hr, -⟩ := settleWindow_eq_ok h
  refine ⟨by rw [hr, hmirror, hunits], ?_⟩
  split
  · unfold chunkUnits
    rw [level_eq _ ht ho hledger, hunits]
    · congr 3
      apply filter_congr
      intro f hf
      rw [decide_eq_true (pending_le_last h f hf), Bool.and_true]
    · intro d e hde he; simp only [decide_eq_true_eq] at he ⊢; omega
  · next hout =>
    -- nothing of the symbol was booked
    have hnone : c.mirrorPending.filter (fun f => decide (f.symbol = s)) = [] := by
      rw [filter_eq_nil_iff]
      intro f hf hs
      apply hout
      have hmem : f.unlabelled ∈ recent n c := by
        rw [← ht.pending]; exact mem_map_of_mem hf
      have hroster := ht.roster _ hmem; exact of_decide_eq_true hs ▸ hroster
    rw [hunits, hledger, traded, hnone]; simp

end

theorem filter_grid_append (p : ℤ → Bool) :
    w.grid.filter p = (w.grid.filter (fun b => !c.ledgerStart.all (fun t => decide (t ≤ b)))).filter p ++
      (keptBars w c).filter p := by
  have hsorted : w.grid.Pairwise (fun a b => id a ≤ id b) := w.grid_sorted.imp le_of_lt
  have hsplit := eq_filter_append_filter (p := fun b => !c.ledgerStart.all (fun t => decide (t ≤ b))) hsorted (by
    intro b d hbd hd
    cases hl : c.ledgerStart with
    | none => simp [hl] at hd
    | some t =>
      simp only [hl, Option.all_some, Bool.not_eq_true', decide_eq_false_iff_not, not_le] at hd ⊢
      exact lt_of_le_of_lt hbd hd)
  simp only [Bool.not_not] at hsplit
  nth_rewrite 1 [hsplit]
  rw [filter_append]; rfl

theorem patchedMarks_eq_none {b : ℤ} {s : String} :
    c.patchedMarks w b s = none ↔ c.overrides b s = none ∧ w.mark b s = none := by
  unfold Acc.patchedMarks
  cases c.overrides b s <;> simp

/-- **Marks.** -/
theorem filledMark_last (hover : ∀ b s, c.overrides b s ≠ none → b ∈ w.grid → b ∈ keptBars w c) {s : String}
    (hmarked : (∀ b ∈ keptBars w c, w.mark b s = none) →
      ∀ b, (w.grid.filter (fun d => (w.mark d s).isSome)).getLast? = some b → w.mark b s = c.lastValidMark s) :
    filledMark w c s w.last =
      match ((keptBars w c).filter (fun b => (c.patchedMarks w b s).isSome)).getLast? with
      | some b => c.patchedMarks w b s
      | none => c.lastValidMark s := by
  have hlast : w.grid.filter (fun b => decide (b ≤ w.last) && (c.patchedMarks w b s).isSome) =
      w.grid.filter (fun b => (c.patchedMarks w b s).isSome) := by
    apply filter_congr
    intro b hb
    rw [decide_eq_true (Window.mem_le_last hb), Bool.true_and]
  unfold filledMark
  rw [hlast]
  cases hk : ((keptBars w c).filter (fun b => (c.patchedMarks w b s).isSome)).getLast? with
  | some b =>
    rw [filter_grid_append (c := c), getLast?_append, hk, Option.some_or]
  | none =>
    -- no mark on the kept bars, so that the window's last mark is the carried one
    have hnone : ∀ b ∈ keptBars w c, c.patchedMarks w b s = none := by
      intro b hb
      have := filter_eq_nil_iff.mp (getLast?_eq_none_iff.mp hk) b hb; simpa using this
    have hsame : w.grid.filter (fun b => (c.patchedMarks w b s).isSome) =
        w.grid.filter (fun b => (w.mark b s).isSome) := by
      apply filter_congr
      intro b hb
      by_cases hin : b ∈ keptBars w c
      · rw [hnone b hin, (patchedMarks_eq_none.mp (hnone b hin)).2]
      · have hfree : c.overrides b s = none := by
          by_contra hsome; exact hin (hover b s hsome hb)
        unfold Acc.patchedMarks
        rw [hfree]; rfl
    rw [hsame]
    cases hg : (w.grid.filter (fun b => (w.mark b s).isSome)).getLast? with
    | none => rfl
    | some b =>
      simp only
      have hb : b ∈ w.grid := mem_of_mem_filter (mem_of_getLast? hg)
      have hmark : (w.mark b s).isSome = true := by
        have := of_mem_filter (mem_of_getLast? hg); simpa using this
      have hout : b ∉ keptBars w c := by
        intro hin
        rw [(patchedMarks_eq_none.mp (hnone b hin)).2] at hmark; simp at hmark
      have hfree : c.overrides b s = none := by
        by_contra hsome; exact hout (hover b s hsome hb)
      have hcarried := hmarked (fun d hd => (patchedMarks_eq_none.mp (hnone d hd)).2) b hg
      unfold Acc.patchedMarks
      rw [hfree, ← hcarried]; rfl

theorem chunkRows_last (fills : List Fill) (hkept : keptBars w c ≠ []) :
    ∃ row, (chunkRows w c fills).getLast? = some row ∧ row.equity = chunkEquity w c fills w.last := by
  unfold chunkRows
  rw [getLast?_map, keptBars_getLast hkept]; exact ⟨_, rfl, rfl⟩

theorem units_mul_valuation (fills : List Fill) (hne : w.grid ≠ []) (s : String) :
    chunkUnits c fills s w.last * (valuation w c fills s w.last).getD 0 =
      chunkUnits c fills s w.last * (filledMark w c s w.last).getD 0 := by
  unfold valuation
  cases hm : c.patchedMarks w w.last s with
  | some m =>
    -- the last bar has a mark, which is its own forward fill
    have hgrid : w.grid = w.grid.dropLast ++ [w.last] := by
      unfold Window.last
      rw [getLastD_eq_getLast?, getLast?_eq_some_getLast hne, Option.getD_some, dropLast_append_getLast hne]
    have hlast : (w.grid.filter (fun b => decide (b ≤ w.last) && (c.patchedMarks w b s).isSome)).getLast? =
        some w.last := by
      nth_rewrite 1 [hgrid]
      rw [filter_append, filter_cons, if_pos (by simp [hm]), filter_nil, getLast?_concat]
    unfold filledMark
    rw [hlast]; simp only [hm]
  | none =>
    simp only
    split
    · rfl
    · next hzero =>
      rw [not_not.mp hzero]; ring

end Bars

/-! ## One window -/

section Window

variable {cfg : ReplayConfig} {w : Window} {a b : Acc}

theorem keeps_overrides (start : Option ℤ) :
    Keeps cfg w (fun x => x.ledgerStart = start ∧ ∀ b s, x.overrides b s ≠ none → ∀ t ∈ start, t ≤ b) := by
  refine KeepsOn.of_book ?_ (fun _ h => h) (fun _ h => h) ?_ ?_ ?_ (fun _ h => h)
  · intro x y h hx
    rw [h.ledgerStart, h.overrides]; exact hx
  · rintro x event bar price h ⟨hstart, hx⟩
    refine ⟨hstart, ?_⟩
    intro d s hd t ht
    by_cases hbar : d = bar
    · subst hbar
      have hkept := h.kept
      rw [hstart, Option.mem_def.mp ht] at hkept; exact hkept.trans h.due_le_bar
    · simp only [Acc.override, Function.update_of_ne hbar] at hd; exact hx d s hd t ht
  · intro x y mark target onGrid preFill h hx
    rw [(advance_eq_ok h).2.1]; exact hx
  · intro x y f _ hy hx
    rw [hy]; exact hx

structure Closing (w : Window) (a c : Acc) : Prop where
  tracked : Tracked w a.fills.length a.units c
  ordered : BarOrdered (recent a.fills.length c)
  ledger : SameLedger a c
  capped : Capped c
  pending : ∀ e ∈ c.pending, e ∈ c.admitted
  overrides : ∀ b s, c.overrides b s ≠ none → ∀ t ∈ a.ledgerStart, t ≤ b

theorem keeps_admitted : Keeps cfg w (fun x => Capped x ∧ ∀ e ∈ x.pending, e ∈ x.admitted) := by
  refine KeepsOn.of_book ?_ ?_ (fun _ h => h) (fun _ h => h) ?_ ?_ (fun _ h => h)
  · intro x y h hx
    unfold Capped
    rw [h.admitted, h.lastTrade, h.pending]; exact hx
  · rintro x pending booked h ⟨hcap, hx⟩; exact ⟨hcap, fun e he => hx e (h e he)⟩
  · intro x y mark target onGrid preFill h hx
    rw [(advance_eq_ok h).2.1]; exact hx
  · intro x y f _ hy hx
    rw [hy]; exact hx

theorem admissions_books {events : List SettlementEvent} {x : Acc} (h : events.foldlM (admitEvent cfg) a = .ok x)
    (hpending : ∀ e ∈ a.pending, e ∈ a.admitted) :
    (∀ e ∈ x.pending, e ∈ x.admitted) ∧ x.mirrorPending = a.mirrorPending ∧ x.overrides = a.overrides ∧
      x.ledgerStart = a.ledgerStart := by
  refine foldlM_invariant (I := fun x : Acc => (∀ e ∈ x.pending, e ∈ x.admitted) ∧
    x.mirrorPending = a.mirrorPending ∧ x.overrides = a.overrides ∧ x.ledgerStart = a.ledgerStart) ?_ h
    ⟨hpending, rfl, rfl, rfl⟩
  rintro event - y z hz ⟨hy, hrest⟩
  have hadmits := admitEvent_eq_ok hz
  refine ⟨?_, ?_⟩
  · intro e he
    rcases hadmits.pending e he with he | rfl
    · exact hadmits.kept e (hy e he)
    · exact hadmits.mem
  · rw [hadmits.eq]; exact hrest

/-- **The intents of an orderly window book each symbol in bar order.** -/
theorem consumeIntents_closing {c : Acc} (ho : Orderly cfg a w) (ha : Agrees cfg a) (hbars : 2 ≤ w.grid.length)
    (h : consumeIntents cfg w { a with gridEnd := w.last } = .ok c) : Closing w a c := by
  have hopened : ∀ {anchor k c}, DueCheck cfg w { a with gridEnd := w.last } anchor k c →
      DueCheck cfg w a anchor k c := fun h => ⟨h.bar, h.later, h.after, h.inside, h.apart⟩
  have hspaced : Spaced cfg w { a with gridEnd := w.last } :=
    ⟨ho.spaced.signal, ho.spaced.decisions, ho.spaced.regular, fun hcap anchor hanchor =>
      have h := ho.spaced.checks hcap anchor hanchor
      ⟨fun d hd k c hdue => h.decisions d hd k c (hopened hdue),
        fun k c j e hdue hdue' => h.checks k c j e (hopened hdue) (hopened hdue')⟩⟩
  obtain ⟨x, z, ps, hx, hvisits, hsettle, hps⟩ := consumeIntents_points hspaced hbars h
  have hrun : WindowRun cfg w ps x c := by
    have hall := (opened_run cfg x).trans (hvisits.run.trans (settleEventsThrough_run hsettle))
    rwa [append_nil] at hall
  obtain ⟨hcap, -, -, hunits, hfills⟩ := admissions_capped hx ha.capped
  obtain ⟨hpending, hqueue, hover, hstart⟩ := admissions_books hx ha.pending
  have hqueue : x.mirrorPending = [] := hqueue.trans ha.queue
  have hnil : recent a.fills.length x = [] := by
    unfold recent
    rw [hfills]; simp
  have htracked : Tracked w a.fills.length a.units x := tracked_start hfills hunits hqueue
  have horder : InOrder a.fills.length (fun _ u => ∃ q ∈ ps, u = q.submit) x :=
    ⟨by rw [hfills], by rw [hnil]; exact .nil, by simp [hnil], hcap, hpending⟩
  have hends : EndsTrading cfg w x.lastTrade := by
    intro hbound s t ht; exact ho.ended hbound s t (admissions_source hx ht)
  have hsame := consumeIntents_sameLedger h
  have hadmitted := keeps_admitted.run hrun ⟨hcap, hpending⟩
  refine ⟨(keeps_tracked _ _).run hrun (fun _ _ => trivial) htracked, horder.run ho.spaced.signal hps hends hrun,
    ⟨hsame.1, hsame.2, hsame.3, hsame.4, hsame.5, hsame.6, hsame.7, hsame.8, hsame.9⟩, hadmitted.1, hadmitted.2, ?_⟩
  refine ((keeps_overrides a.ledgerStart).run hrun ⟨hstart, ?_⟩).2
  intro b s hb
  rw [hover, ha.overrides] at hb; exact absurd rfl hb

theorem sum_columns {columns symbols : List String} (hcolumns : columns.Nodup) (hsymbols : symbols.Nodup)
    (hsub : ∀ s ∈ symbols, s ∈ columns) {v : String → ℚ} (hflat : ∀ s ∈ columns, s ∉ symbols → v s = 0) :
    (columns.map v).sum = (symbols.map v).sum := by
  have hperm : (columns.filter (fun s => decide (s ∈ symbols))).Perm symbols := by
    rw [perm_ext_iff_of_nodup (hcolumns.filter _) hsymbols]
    intro s
    simp only [mem_filter, decide_eq_true_eq]; exact ⟨fun h => h.2, fun h => ⟨hsub s h, h⟩⟩
  rw [← (hperm.map v).sum_eq]
  have hall : ∀ l : List String, (∀ s ∈ l, s ∉ symbols → v s = 0) →
      (l.map v).sum = ((l.filter (fun s => decide (s ∈ symbols))).map v).sum := by
    intro l hl
    induction l with
    | nil => rfl
    | cons x l ih =>
      have hrest := ih (fun s hs => hl s (mem_cons_of_mem x hs))
      by_cases hx : x ∈ symbols
      · simp [hx, hrest]
      · simp [hx, hrest, hl x mem_cons_self hx]
  exact hall columns hflat

theorem appendLedger_books {n : ℕ} {c d : Acc} (h : appendLedger w n c = .ok d) :
    ∃ r, settleWindow w (c.patchedMarks w) (keptBars w c) c.mirrorPending c.mirror = .ok r ∧ d.mirror = r.1 ∧
      d.ledgerCash = cashAfter w c (c.fills.drop n) w.last ∧
      (d.ledgerUnits = fun s => if s ∈ w.symbols then chunkUnits c (c.fills.drop n) s w.last else c.ledgerUnits s) ∧
      (d.lastValidMark = fun s => if s ∈ w.symbols then filledMark w c s w.last else c.lastValidMark s) ∧
      d.rows = c.rows ++ chunkRows w c (c.fills.drop n) := by
  rw [appendLedger, bind_eq_ok] at h
  obtain ⟨e, he, h⟩ := h
  obtain ⟨f, hf, h⟩ := bind_eq_ok.mp h
  rw [settleMirrorWindow, bind_eq_ok] at hf
  obtain ⟨r, hr, hf⟩ := hf
  rw [Except.ok.injEq] at h hf
  unfold appendChunk at he
  split at he
  · cases he
  · rw [Except.ok.injEq] at he
    subst he
    refine ⟨r, hr, ?_⟩
    subst hf
    subst h; exact ⟨rfl, rfl, rfl, rfl, rfl⟩

theorem chunkEquity_last {c : Acc} {fills : List Fill} {columns : List String} (hcolumns : w.columns = columns)
    (hne : w.grid ≠ []) (hlevel : ∀ s ∈ w.symbols, chunkUnits c fills s w.last = c.units s)
    (hflat : ∀ s ∈ columns, s ∉ w.symbols → c.units s = 0) :
    chunkEquity w c fills w.last = cashAfter w c fills w.last + (columns.map (fun s =>
      c.units s * (if s ∈ w.symbols then filledMark w c s w.last else c.lastValidMark s).getD 0)).sum := by
  subst hcolumns
  unfold chunkEquity notionalAt
  congr 1
  rw [sum_columns w.columns_nodup w.symbols_nodup w.symbols_sub]
  · congr 1
    apply map_congr_left
    intro s hs
    rw [units_mul_valuation _ hne, if_pos hs, hlevel s hs]
  · intro s hs hout
    rw [hflat s hs hout, zero_mul]

theorem closing_marks {c : Acc} {r : CausalState × Bool} (ho : Orderly cfg a w) (ha : Agrees cfg a)
    (hclosing : Closing w a c)
    (hr : settleWindow w (c.patchedMarks w) (keptBars w c) c.mirrorPending c.mirror = .ok r) :
    r.1.lastMarks = fun s => if s ∈ w.symbols then filledMark w c s w.last else c.lastValidMark s := by
  have hledger := hclosing.ledger
  obtain ⟨hkept, -, -, -, hmarks⟩ := settleWindow_eq_ok hr
  have hcarry : c.mirror.lastMarks = c.lastValidMark := by rw [hledger.mirror, ha.marks, hledger.lastValidMark]
  have hkeptEq : keptBars w c = keptBars w a := by
    unfold keptBars
    rw [hledger.ledgerStart]
  rw [hmarks, hcarry]
  funext s
  by_cases hs : s ∈ w.symbols
  · rw [filledMark_last]
    · intro x y hx hgrid
      refine mem_keptBars.mpr ⟨hgrid, ?_⟩
      rw [hledger.ledgerStart]; exact hclosing.overrides x y hx
    · rw [hkeptEq, hledger.lastValidMark]; exact ho.marked s hs
  · simp only [hs, if_false]

/-- **One orderly window keeps the three books together.** -/
theorem consume_agrees (ho : Orderly cfg a w) (h : consume cfg a w = .ok b) (ha : Agrees cfg a) : Agrees cfg b := by
  obtain ⟨haccepts, c, d, hc, hd, hb⟩ := consume_eq_ok h
  simp only [acceptsWindow, Bool.and_eq_true, decide_eq_true_eq] at haccepts
  obtain ⟨⟨⟨hcolumns, -⟩, hbars⟩, -⟩ := haccepts
  have hclosing := consumeIntents_closing ho ha hbars hc
  have hledger := hclosing.ledger
  have hstart : c.ledgerUnits = a.units := hledger.ledgerUnits.trans ha.track
  have hmirror : c.mirror.units = a.units := by rw [hledger.mirror, ha.units, ha.track]
  have hcash : c.mirror.cash = c.ledgerCash := by rw [hledger.mirror, ha.cash, hledger.ledgerCash]
  have hne : w.grid ≠ [] := by
    intro hnil
    rw [hnil] at hbars; simp at hbars
  obtain ⟨r, hr, hdmirror, hdcash, hdunits, hdmarks, hdrows⟩ := appendLedger_books hd
  have hkept := (settleWindow_eq_ok hr).1
  have hunits := settleWindow_units hclosing.tracked hclosing.ordered hstart hmirror hr
  have hcashAfter := settleWindow_cash hclosing.tracked hclosing.ordered hstart hmirror hcash ho.unknown hr
  have hmarks := closing_marks ho ha hclosing hr
  -- a column that is not among the symbols is held by none of the books
  have hflat : ∀ s ∈ cfg.columns, s ∉ w.symbols → c.units s = 0 := by
    intro s hs hout
    have hsame := (hunits s).2
    rw [if_neg hout, hstart] at hsame
    by_contra hheld; exact hout (ho.roster s hs (hsame ▸ hheld))
  have hd' := appendLedger_eq_ok hd
  have hdtrack : d.units = c.units := by rw [hd']
  have hdledger : d.ledgerUnits = c.units := by
    rw [hdunits]
    funext s; exact (hunits s).2
  rw [hb]
  refine ⟨?_, ?_, ?_, ?_, ?_, ?_, ?_, ?_, ?_⟩
  · rw [hdmirror, hcashAfter, hdcash]
  · rw [hdmirror, hdledger]
    funext s; exact (hunits s).1
  · rw [hdledger, hdtrack]
  · rw [hdmirror, hmarks, hdmarks]
  · rw [hd']
  · rw [hd']
  · rw [hd']; exact hclosing.capped
  · rw [hd']; exact hclosing.pending
  · intro row hrow
    have hrow : d.rows.getLast? = some row := hrow
    obtain ⟨last, hlast, hequity⟩ := chunkRows_last (c.fills.drop a.fills.length) hkept
    rw [hdrows, getLast?_append, hlast, Option.some_or, Option.some.injEq] at hrow
    rw [← hrow, hequity, hdcash, hdtrack, hdmarks]
    refine chunkEquity_last hcolumns hne ?_ hflat
    intro s hs
    have hlevel := (hunits s).2; rwa [if_pos hs] at hlevel

end Window

/-! ## Streams -/

section Streams

variable {cfg : ReplayConfig} {a : Acc}

theorem agrees_init (cfg : ReplayConfig) : Agrees cfg (Acc.init cfg) :=
  ⟨rfl, rfl, rfl, rfl, rfl, rfl, by simp [Capped, Acc.init], by simp [Acc.init], by simp [Acc.init]⟩

theorem reaches_agrees (h : Reaches cfg (Orderly cfg) a) : Agrees cfg a := by
  induction h with
  | init => exact agrees_init cfg
  | step _ hok hstep ih => exact consume_agrees hok hstep ih

theorem Agrees.reconciles (h : Agrees cfg a) (hrows : a.rows ≠ []) : reconciles cfg a = true := by
  unfold Engine.reconciles
  cases hlast : a.rows.getLast? with
  | none => exact absurd (getLast?_eq_none_iff.mp hlast) hrows
  | some row =>
    have hequity := h.equity row hlast
    have hmirror : a.mirror.equity cfg = row.equity := by
      unfold CausalState.equity
      rw [hequity, h.cash, h.units, h.track, h.marks]; rfl
    simp only [hmirror, sub_self, abs_zero]
    apply decide_eq_true; positivity

/-- **The causal mirror does not diverge in an orderly stream.**  In every state reached, the
mirror, the ledger and the fill track hold the same books, and `finalize` does not raise once a
window is consumed. -/
theorem mirror_never_diverges (h : Reaches cfg (Orderly cfg) a) :
    a.mirror.cash = a.ledgerCash ∧ a.mirror.units = a.ledgerUnits ∧ a.ledgerUnits = a.units ∧
      (a.rows ≠ [] → ∃ res, finalize cfg a = .ok res) := by
  have hagrees := reaches_agrees h
  refine ⟨hagrees.cash, hagrees.units, hagrees.track, ?_⟩
  intro hrows
  unfold finalize
  rw [if_neg (by simp [hagrees.reconciles hrows])]; exact ⟨_, rfl⟩

/-! ### A calm window and a hurried stream -/

/-- Every hour a name above a quarter of the equity is trimmed. -/
def trimmingConfig : ReplayConfig :=
  { takerConfig with
    spec := { oneDecision.spec with
      nameDriftTrimMaxWeight := some (1 / 4)
      nameDriftTrimIntervalHours := 1
      interval_pos := le_refl 1 } }

/-- A decision at the first bar, and a drift check twenty bars later. -/
def calmWindow : Window where
  columns := ["AUSDT"]
  symbols := ["AUSDT"]
  grid := (range 24).map (fun n : ℕ => (1000 + n) * stepNs)
  high := fun _ _ => some 1
  low := fun _ _ => some 1
  close := fun _ _ => some 1
  mark := fun _ _ => some 1
  fundingRate := fun _ _ => 0
  fundingKnown := fun _ _ => true
  quoteVolume := fun _ _ => some 1
  availableAt := some (fun b => b + stepNs)
  venueHalts := []
  decisions := [⟨1000 * stepNs, 1000 * stepNs, fun _ => some (1 / 2)⟩]
  settlementEvents := []
  logicalPartition := some (0, 1)
  grid_sorted := by decide
  symbols_nodup := oneDecision.columns_nodup
  symbols_sub := by decide
  columns_nodup := oneDecision.columns_nodup

/-- One check is due: the next one would stand behind the window. -/
theorem calmWindow_due {a : Acc} {k c : ℤ}
    (h : DueCheck trimmingConfig calmWindow a (1000 * stepNs) k c) : k = 1 := by
  have hlast : ∀ b ∈ calmWindow.grid, b ≤ 1023 * stepNs := by decide
  obtain ⟨hgrid, hle⟩ := Window.firstFrom_mem h.bar
  have hc := hlast c hgrid
  have hstep : driftStep trimmingConfig.spec = 20 * stepNs := rfl
  have hlater := h.later
  rw [hstep] at hle
  unfold stepNs minuteNs at hle hc; omega

theorem calmWindow_orderly : Orderly trimmingConfig (Acc.init trimmingConfig) calmWindow where
  spaced := by
    refine ⟨by simp [calmWindow], pairwise_singleton _ _, ?_, ?_⟩
    · have hnext : ∀ c ∈ calmWindow.grid, (calmWindow.firstFrom (c + 1)).all
          (fun b => decide (b ≤ c + calmWindow.barNs)) = true := by decide
      intro c hc b hb
      have := hnext c hc
      rw [hb] at this; simpa using this
    · rintro - anchor hanchor
      obtain rfl : 1000 * stepNs = anchor := Option.some.inj hanchor
      constructor
      · rintro d hd k c hdue - b hb
        obtain rfl := mem_singleton.mp hd
        obtain rfl := calmWindow_due hdue
        obtain rfl : 1000 * stepNs = b := Option.some.inj hb; decide
      · intro k c j e hdue hdue' hlt
        rw [calmWindow_due hdue, calmWindow_due hdue'] at hlt; exact absurd hlt (lt_irrefl _)
  unknown := by
    intro b _ s _ hknown; cases hknown
  marked := by
    intro s _ hnone
    have h := hnone (1000 * stepNs) (by decide); cases h
  roster := by
    intro s _ hheld; exact absurd rfl hheld
  ended := by
    intro hbound; cases hbound

/-- The books agree after a decision and a trim at the check. -/
theorem calm_mirror_agrees : ∃ a, Reaches trimmingConfig (Orderly trimmingConfig) a ∧ a.fills.length = 2 ∧
    a.rows ≠ [] ∧ a.mirror.cash = a.ledgerCash ∧ a.mirror.units = a.ledgerUnits ∧ a.ledgerUnits = a.units ∧
      ∃ res, finalize trimmingConfig a = .ok res := by
  obtain ⟨a, ha, hrun⟩ := exists_ok (x := consume trimmingConfig (Acc.init trimmingConfig) calmWindow)
    (p := fun a => !a.rows.isEmpty && a.fills.length == 2) (by decide +kernel)
  have hreaches : Reaches trimmingConfig (Orderly trimmingConfig) a := .step .init calmWindow_orderly ha
  obtain ⟨hrows, hfills⟩ : a.rows ≠ [] ∧ a.fills.length = 2 := by simpa using hrun
  obtain ⟨hcash, hunits, htrack, hfinal⟩ := mirror_never_diverges hreaches
  exact ⟨a, hreaches, hfills, hrows, hcash, hunits, htrack, hfinal hrows⟩

def hurriedRequest : StreamRequest where
  columns := ["AUSDT"]
  decisions :=
    [⟨1000 * stepNs, 1000 * stepNs, fun _ => some (1 / 2)⟩, ⟨1001 * stepNs, 1001 * stepNs, fun _ => some (1 / 2)⟩]
  start := 1000 * stepNs
  stop := 1006 * stepNs
  spec := { proxySpec with passiveTimeoutMinutes := 6, timeout_pos := by decide }
  columns_nodup := oneDecision.columns_nodup

def hurriedConfig : ReplayConfig := { takerConfig with bound := .strictProxy, spec := hurriedRequest.spec }

/-- The price doubles after the first decision, and the second bar trades above it. -/
def doublingMarket : Market where
  high := fun b _ => some (if b = 1001 * stepNs then 3 else 2)
  low := fun _ _ => some 1
  close := fun b _ => some (if b ≤ 1000 * stepNs then 1 else 2)
  fundingRate := fun _ _ => 0
  fundingKnown := fun _ _ => true
  quoteVolume := fun _ _ => some 1
  halts := []
  registry := []

/-- The first order times out at the third bar, the second one fills the second bar: the ledger
takes the level of the third bar for the last one. -/
theorem hurried_mirror_diverges : ∃ windows a, windowStream hurriedRequest doublingMarket none = .ok windows ∧
    consumeAll hurriedConfig windows = .ok a ∧ a.mirror.units "AUSDT" = a.units "AUSDT" ∧
      a.ledgerUnits "AUSDT" ≠ a.units "AUSDT" ∧ finalize hurriedConfig a = .error .dataIntegrityError := by
  obtain ⟨windows, hw, hrun⟩ := exists_ok (x := windowStream hurriedRequest doublingMarket none)
    (p := fun ws => (consumeAll hurriedConfig ws).toOption.any (fun a : Acc =>
      decide (a.mirror.units "AUSDT" = a.units "AUSDT" ∧ a.ledgerUnits "AUSDT" ≠ a.units "AUSDT") &&
        !reconciles hurriedConfig a)) (by decide +kernel)
  obtain ⟨a, ha, htest⟩ := exists_ok hrun
  simp only [Bool.and_eq_true, decide_eq_true_eq, Bool.not_eq_true'] at htest
  refine ⟨windows, a, hw, ha, htest.1.1, htest.1.2, ?_⟩
  unfold finalize
  rw [if_pos htest.2]

end Streams

end CryptoPilot.Engine
