/- # AccountConserves — the cash of a replayed account and the placeholder for missing marks.

Every entry adds to the equity what the quantities it found earned since the anchor before, and what
its fills gained against the anchor, less what it cost.  A placeholder enters through quantities
only (`replayAccount_conserves`). -/
import CryptoPilot.Engine.AccountRuns
import Mathlib.Data.List.Find

namespace CryptoPilot.Engine

open CryptoPilot.Lib CryptoPilot.Strategy List

variable {n : ℕ} {c : AccountRules n} {h : Holding n} {e : AccountEntry n}

/-! ## Cash -/

/-- What an entry adds to an equity marked at `prior`: the pnl of what it holds, the gain of the
fills against the anchor, less fees, impact and funding. -/
def entryGain (c : AccountRules n) (prior : Fin n → ℚ) (d : Holding n × AccountEntry n) : ℚ :=
  ∑ i, d.1.quantities i * (c.price d.2 i - prior i) + ∑ i,
    c.delta d.1 d.2 i * (c.price d.2 i - (c.fill d.1 d.2 i).1) -
    c.fee d.1 d.2 - c.impact d.1 d.2 - c.charge d.1 d.2

/-- The gains of the entries in turn, each against the anchor before it. -/
def entryGains (c : AccountRules n) : (Fin n → ℚ) → List (Holding n × AccountEntry n) → List ℚ
  | _, [] => []
  | prior, d :: rest => entryGain c prior d :: entryGains c (c.price d.2) rest

theorem postEquity_eq (prior : Fin n → ℚ) :
    c.postEquity h e = h.cash + ∑ i, h.quantities i * prior i + entryGain c prior (h, e) := by
  have hheld : ∑ i, h.quantities i * (c.price e i - prior i) =
      ∑ i, h.quantities i * c.price e i - ∑ i, h.quantities i * prior i := by
    rw [← Finset.sum_sub_distrib]; exact Finset.sum_congr rfl fun i _ => mul_sub _ _ _
  have hfills : ∑ i, c.delta h e i * (c.price e i - (c.fill h e i).1) =
      ∑ i, c.delta h e i * c.price e i - ∑ i, c.delta h e i * (c.fill h e i).1 := by
    rw [← Finset.sum_sub_distrib]; exact Finset.sum_congr rfl fun i _ => mul_sub _ _ _
  have hafter : ∑ i, (c.after h e).quantities i * c.price e i =
      ∑ i, h.quantities i * c.price e i + ∑ i, c.delta h e i * c.price e i := by
    rw [← Finset.sum_add_distrib]; exact Finset.sum_congr rfl fun i _ => add_mul _ _ _
  rw [AccountRules.postEquity, hafter, entryGain, hheld, hfills]
  simp only [AccountRules.after]; ring

/-- **Cash is conserved along the entries.** -/
theorem postEquity_trajectory : ∀ (entries : List (AccountEntry n)) (h : Holding n) (prior : Fin n → ℚ),
    (trajectory c h entries).map (fun d => c.postEquity d.1 d.2) =
      ((entryGains c prior (trajectory c h entries)).scanl (· + ·) (h.cash + ∑ i, h.quantities i * prior i)).tail
  | [], _, _ => rfl
  | e :: rest, h, prior => by
    have ih := postEquity_trajectory rest (c.after h e) (c.price e)
    have hhead : ∀ (l : List ℚ) (a : ℚ), l.scanl (· + ·) a = a :: (l.scanl (· + ·) a).tail := by
      intro l a
      cases l <;> simp
    rw [trajectory, map_cons, entryGains, scanl_cons, hhead, ih, ← postEquity_eq prior]; rfl

theorem entered_eq_trajectory : ∀ (entries : List (AccountEntry n)) (h : Holding n) (dd : ℚ × ℚ),
    (replayEntries c h dd entries).liquidatedAt = none →
    (replayEntries c h dd entries).entered = trajectory c h entries
  | [], _, _, _ => rfl
  | e :: rest, h, dd, hnone => by
    rw [replayEntries] at hnone ⊢
    cases hfind : e.segment.find? (c.liquidates (c.after h e)) with
    | some bar =>
      rw [hfind] at hnone; cases hnone
    | none =>
      rw [hfind] at hnone; simp only [trajectory, entered_eq_trajectory rest _ _ hnone]

/-! ## The placeholder -/

def AccountRules.substitute (c : AccountRules n) (p : ℚ) : AccountRules n := { c with placeholder := p }

/-- The marks of a bar that the segment reads for a holding: the close of what is held, the low of
what is long and the high of what is short. -/
def BarMarked (h : Holding n) (bar : MarkBar n) : Prop :=
  ∀ i, (h.quantities i ≠ 0 → (bar.close i).isSome) ∧ (0 < h.quantities i → (bar.low i).isSome) ∧
    (h.quantities i < 0 → (bar.high i).isSome)

instance : DecidablePred (BarMarked h) := fun bar => by
  unfold BarMarked
  infer_instance

/-- No quantity held meets a missing mark at an entry, and a missing close has a zero target. -/
structure Marked (c : AccountRules n) (d : Holding n × AccountEntry n) : Prop where
  unweighted : ∀ i, d.2.anchor.close i = none → d.2.weights i = 0
  found : ∀ i, d.2.anchor.close i = none → d.1.quantities i = 0
  held : ∀ bar ∈ d.2.segment, BarMarked (c.after d.1 d.2) bar

instance : DecidablePred (Marked c) := fun d =>
  decidable_of_iff ((∀ i, d.2.anchor.close i = none → d.2.weights i = 0) ∧
      (∀ i, d.2.anchor.close i = none → d.1.quantities i = 0) ∧
      ∀ bar ∈ d.2.segment, BarMarked (c.after d.1 d.2) bar)
    ⟨fun hm => ⟨hm.1, hm.2.1, hm.2.2⟩, fun hm => ⟨hm.unweighted, hm.found, hm.held⟩⟩

section Substitute

variable {p : ℚ}

variable {i : Fin n}

theorem mul_price_substitute {q : ℚ} (hq : e.anchor.close i = none → q = 0) :
    q * (c.substitute p).price e i = q * c.price e i := by
  unfold AccountRules.price
  cases hclose : e.anchor.close i with
  | none => rw [hq hclose, zero_mul, zero_mul]
  | some price => rfl

section

variable (hm : Marked c (h, e))

include hm

theorem held_substitute : (c.substitute p).held h e = c.held h e := by
  funext i; exact mul_price_substitute (hm.found i)

theorem target_substitute : (c.substitute p).target h e = c.target h e := by
  funext i
  simp only [AccountRules.target, AccountRules.exposure, AccountRules.equity, AccountRules.charge,
    AccountRules.funding,
    held_substitute hm]
  rfl

theorem target_eq_zero (hclose : e.anchor.close i = none) : c.target h e i = 0 := by
  rw [AccountRules.target, hm.unweighted i hclose, mul_zero]

theorem skip_substitute : (c.substitute p).skip h e = c.skip h e := by
  funext i
  simp only [AccountRules.skip, AccountRules.intendedDelta, held_substitute hm, target_substitute hm]
  rfl

theorem quotient_substitute (i : Fin n) :
    c.target h e i / (c.substitute p).price e i = c.target h e i / c.price e i := by
  unfold AccountRules.price
  cases hclose : e.anchor.close i with
  | none => rw [target_eq_zero hm hclose, zero_div, zero_div]
  | some price => rfl

theorem delta_substitute : (c.substitute p).delta h e = c.delta h e := by
  funext i
  unfold AccountRules.delta
  rw [skip_substitute hm, target_substitute hm, quotient_substitute hm]; rfl

theorem delta_eq_zero (hclose : e.anchor.close i = none) : c.delta h e i = 0 := by
  have hround : ∀ step : ℚ, roundTo .down step 0 = 0 := fun step => by simp [roundTo, toIntegralValue]
  have hq : h.quantities i = 0 := hm.found i hclose
  unfold AccountRules.delta
  rw [target_eq_zero hm hclose, zero_div, hround, hq]
  split_ifs <;> simp

end

theorem fill_of_some {price : ℚ} (hm : Marked c (h, e)) (hclose : e.anchor.close i = some price) :
    (c.substitute p).fill h e i = c.fill h e i := by
  have hprice : (c.substitute p).price e i = c.price e i := by
    unfold AccountRules.price
    rw [hclose]; rfl
  unfold AccountRules.fill
  rw [hprice, delta_substitute hm]; rfl

section

variable (hm : Marked c (h, e))

include hm

theorem fill_snd_substitute (i : Fin n) : ((c.substitute p).fill h e i).2 = (c.fill h e i).2 := by
  cases hclose : e.anchor.close i with
  | some price => rw [fill_of_some hm hclose]
  | none =>
    have hpassive : ∀ (window : List (MarkBar n)) (price : ℚ), (passiveFill window none price 0 i).2 = false := by
      intro window price
      rw [passiveFill, if_pos rfl]
    have hnone : ∀ c' : AccountRules n, c'.delta h e i = 0 → (c'.fill h e i).2 = false := by
      intro c' hdelta
      unfold AccountRules.fill
      cases c'.windowBars with
      | none => rfl
      | some bars =>
        simp only [hclose, hdelta]
        split_ifs
        · rfl
        · exact hpassive _ _
    rw [hnone c (delta_eq_zero hm hclose),
      hnone (c.substitute p) (by rw [delta_substitute hm, delta_eq_zero hm hclose])]

theorem delta_mul_fill_substitute (f : ℚ → ℚ) (hf : f 0 = 0) (i : Fin n) :
    f (c.delta h e i) * ((c.substitute p).fill h e i).1 = f (c.delta h e i) * (c.fill h e i).1 := by
  cases hclose : e.anchor.close i with
  | some price => rw [fill_of_some hm hclose]
  | none => rw [delta_eq_zero hm hclose, hf, zero_mul, zero_mul]

theorem sent_substitute : (c.substitute p).sent h e = c.sent h e := by
  funext i
  rw [AccountRules.sent, delta_substitute hm]
  exact mul_price_substitute fun hclose => by rw [delta_eq_zero hm hclose, abs_zero]

theorem fee_substitute : (c.substitute p).fee h e = c.fee h e := by
  refine Finset.sum_congr rfl fun i _ => ?_
  rw [delta_substitute hm, delta_mul_fill_substitute hm (fun q => |q|) abs_zero, fill_snd_substitute hm]
  rfl

theorem after_substitute : (c.substitute p).after h e = c.after h e := by
  have hcharge : (c.substitute p).charge h e = c.charge h e := by
    simp only [AccountRules.charge, AccountRules.funding, held_substitute hm]
  have himpact : (c.substitute p).impact h e = c.impact h e := by
    simp only [AccountRules.impact, sent_substitute hm]; rfl
  have hfills : ∑ i, c.delta h e i * ((c.substitute p).fill h e i).1 = ∑ i, c.delta h e i * (c.fill h e i).1 :=
    Finset.sum_congr rfl fun i _ => delta_mul_fill_substitute hm id rfl i
  simp only [AccountRules.after, hcharge, himpact, fee_substitute hm, delta_substitute hm, hfills]

theorem postEquity_substitute : (c.substitute p).postEquity h e = c.postEquity h e := by
  rw [AccountRules.postEquity, after_substitute hm]
  refine congrArg _ (Finset.sum_congr rfl fun i _ => mul_price_substitute fun hclose => ?_)
  have hq : h.quantities i = 0 := hm.found i hclose
  show h.quantities i + c.delta h e i = 0
  rw [hq, delta_eq_zero hm hclose, add_zero]

end

theorem bar_substitute {bar : MarkBar n} (hbar : BarMarked h bar) :
    (c.substitute p).liquidates h bar = c.liquidates h bar ∧
    ∀ acc, (c.substitute p).drawdown h acc bar = c.drawdown h acc bar := by
  have hmark : ∀ {i : Fin n} {m : Option ℚ} {q : ℚ}, (h.quantities i ≠ 0 → m.isSome) →
      h.quantities i * m.getD p = h.quantities i * m.getD q := by
    intro i m q hm
    by_cases hq : h.quantities i = 0
    · rw [hq, zero_mul, zero_mul]
    · obtain ⟨v, rfl⟩ := Option.isSome_iff_exists.mp (hm hq); rfl
  have hadverse : ∀ i, h.quantities i * (c.substitute p).adverse h i bar = h.quantities i * c.adverse h i bar := by
    intro i
    refine hmark fun hq => ?_
    split_ifs with hlong
    · exact (hbar i).2.1 hlong
    · exact (hbar i).2.2 (lt_of_le_of_ne (not_lt.mp hlong) hq)
  have hclose : ∀ i, h.quantities i * (bar.close i).getD (c.substitute p).placeholder =
      h.quantities i * (bar.close i).getD c.placeholder := fun i => hmark (hbar i).1
  constructor
  · simp only [AccountRules.liquidates, hadverse]; rfl
  · intro acc; simp only [AccountRules.drawdown, hclose]

/-- **The replay does not depend on the placeholder while no quantity held meets a missing mark.**
-/
theorem replayEntries_substitute : ∀ (entries : List (AccountEntry n)) (h : Holding n) (dd : ℚ × ℚ),
    (∀ d ∈ (replayEntries c h dd entries).entered, Marked c d) →
    replayEntries (c.substitute p) h dd entries = replayEntries c h dd entries
  | [], _, _, _ => rfl
  | e :: rest, h, dd, hmarked => by
    have hhead : Marked c (h, e) := by
      refine hmarked _ ?_
      rw [replayEntries]
      split <;> exact mem_cons_self
    have hfind : e.segment.find? ((c.substitute p).liquidates (c.after h e)) =
        e.segment.find? (c.liquidates (c.after h e)) :=
      find?_congr fun bar hbar => (bar_substitute (hhead.held bar hbar)).1
    have hfold : e.segment.foldl ((c.substitute p).drawdown (c.after h e)) dd =
        e.segment.foldl (c.drawdown (c.after h e)) dd :=
      foldl_ext _ _ _ fun acc bar hbar => (bar_substitute (hhead.held bar hbar)).2 acc
    rw [replayEntries] at hmarked ⊢
    rw [replayEntries, after_substitute hhead, hfind]
    cases hhit : e.segment.find? (c.liquidates (c.after h e)) with
    | some bar => rfl
    | none =>
      rw [hhit] at hmarked
      simp only [hfold, replayEntries_substitute rest _ _ fun d hd => hmarked d (mem_cons_of_mem _ hd)]

theorem entryReport_substitute (hm : Marked c (h, e)) : (c.substitute p).entryReport h e = c.entryReport h e := by
  have hfunding : (c.substitute p).funding h e = c.funding h e := by
    funext i
    rw [AccountRules.funding, held_substitute hm]; rfl
  have hequity : (c.substitute p).equity h e = c.equity h e := by
    simp only [AccountRules.equity, AccountRules.charge, hfunding, held_substitute hm]
  have hexposure : (c.substitute p).exposure h e = c.exposure h e := by
    simp only [AccountRules.exposure, hequity, held_substitute hm]; rfl
  have hintended : (c.substitute p).intendedDelta h e = c.intendedDelta h e := by
    funext i
    rw [AccountRules.intendedDelta, target_substitute hm, held_substitute hm]; rfl
  have hbreach : (c.substitute p).marginBreach h e = c.marginBreach h e := by
    simp only [AccountRules.marginBreach, hequity, target_substitute hm]; rfl
  have himpact : (c.substitute p).impact h e = c.impact h e := by
    simp only [AccountRules.impact, sent_substitute hm]; rfl
  simp only [AccountRules.entryReport, postEquity_substitute hm, hexposure, skip_substitute hm, hintended, hbreach,
    fee_substitute hm, himpact, AccountRules.charge, hfunding, fill_snd_substitute hm, sent_substitute hm]

theorem report_substitute {x : ReplayInput n} {fallback : List String} {r : Replay n}
    (hmarked : ∀ d ∈ r.entered, Marked c d) : x.report (c.substitute p) fallback r = x.report c fallback r := by
  have hentered : r.entered.map (fun d => (c.substitute p).entryReport d.1 d.2) =
      r.entered.map fun d => c.entryReport d.1 d.2 :=
    map_congr_left fun d hd => entryReport_substitute (hmarked d hd)
  rw [ReplayInput.report, hentered]; rfl

end Substitute

/-- **Without a liquidation the daily equity is the capital with the gains of the entries so far,
and where no quantity held meets a missing mark any other placeholder gives the same result.** -/
theorem replayAccount_conserves {x : ReplayInput n} {root : ℚ → ℚ} {result : AccountLedgerResult n}
    (hresult : x.replayAccount root 1 = .ok result) :
    ∃ ladders fallback entries, x.prepare root = .ok (ladders, fallback, entries) ∧
      (result.liquidatedAt = none → result.dailyEquity =
        ((entryGains (x.accountRules root 1 ladders) (fun _ => 0)
          (trajectory (x.accountRules root 1 ladders) x.start entries)).scanl (· + ·) x.capital).tail) ∧
      ((∀ d ∈ (replayEntries (x.accountRules root 1 ladders) x.start (x.capital, 0) entries).entered,
          Marked (x.accountRules root 1 ladders) d) →
        ∀ p, 0 < p → x.replayAccount root p = .ok result) := by
  obtain ⟨ladders, fallback, entries, hprepare, rfl⟩ := replayAccount_eq_ok.mp hresult
  refine ⟨ladders, fallback, entries, hprepare, fun hnone => ?_, fun hmarked p _ => ?_⟩
  · have hentered := entered_eq_trajectory entries x.start (x.capital, 0) hnone
    have hequity := postEquity_trajectory (c := x.accountRules root 1 ladders) entries x.start fun _ => 0
    have hlength : (trajectory (x.accountRules root 1 ladders) x.start entries).length = x.rows.length := by
      rw [← length_map (f := Prod.snd), map_snd_trajectory, prepare_length hprepare]
    have hnone' : (replayEntries (x.accountRules root 1 ladders) x.start (x.capital,
      0) entries).liquidatedAt = none :=
      hnone
    simp only [ReplayInput.report, hnone', Option.isSome_none, Bool.false_eq_true, if_false, hentered, map_map,
      length_map, hlength, Nat.sub_self, replicate_zero, append_nil]
    rw [Function.comp_def]; simpa [AccountRules.entryReport, ReplayInput.start] using hequity
  · refine replayAccount_eq_ok.mpr ⟨ladders, fallback, entries, hprepare, ?_⟩
    have hsubstitute : x.accountRules root p ladders = (x.accountRules root 1 ladders).substitute p := rfl
    rw [hsubstitute, replayEntries_substitute entries x.start (x.capital, 0) hmarked, report_substitute hmarked]

/-- One symbol is bought on the first bar and has no mark on the second. -/
def lostInput : ReplayInput 1 where
  symbols := fun _ => "AAAUSDT"
  rows := [⟨fun _ => 1, fun _ => 0, fun _ => none, fun _ => none⟩,
    ⟨fun _ => 0, fun _ => 0, fun _ => none, fun _ => none⟩]
  panel := [⟨0, fun _ => some 10, fun _ => some 10, fun _ => some 10⟩,
    ⟨180, fun _ => none, fun _ => none, fun _ => none⟩]
  labels_nodup := by decide
  rules := crashInput.rules
  policy := ⟨.fixed, 1, 1, 0, 1, 2, 0, 0, 1, 0⟩
  anchorTimes := [0, 180]
  capital := 100
  takerFeeBps := 0
  applyOrderFilters := false
  unitEquity := none
  execution := .taker

theorem replayAccount_reads_placeholder :
    (lostInput.prepare Rat.sqrt).map (fun found =>
      decide (∀ e ∈ found.2.2, ∀ i, e.anchor.close i = none → e.weights i = 0)) = .ok true ∧
    (lostInput.replayAccount Rat.sqrt 1).map AccountLedgerResult.dailyEquity = .ok [100, 10] ∧
    (lostInput.replayAccount Rat.sqrt 2).map AccountLedgerResult.dailyEquity = .ok [100, 20] := by
  decide +kernel

/-- One symbol is held long over two bars and has no high on the second; the other has no marks. -/
def keptInput : ReplayInput 2 where
  symbols := ![ "AAAUSDT", "BBBUSDT"]
  rows := [⟨![1, 0], fun _ => 0, fun _ => none, fun _ => none⟩, ⟨![0, 0], fun _ => 0, fun _ => none, fun _ => none⟩]
  panel := [⟨0, ![some 10, none], ![some 10, none], ![some 10, none]⟩,
    ⟨180, ![some 12, none], ![none, none], ![some 9, none]⟩]
  labels_nodup := by decide
  rules := lostInput.rules
  policy := lostInput.policy
  anchorTimes := [0, 180]
  capital := 100
  takerFeeBps := 100
  applyOrderFilters := false
  unitEquity := none
  execution := .taker

theorem replayAccount_conserves_kept : ∃ result, keptInput.replayAccount Rat.sqrt 1 = .ok result ∧
    ∀ p, 0 < p → keptInput.replayAccount Rat.sqrt p = .ok result := by
  have hmarked : (keptInput.prepare Rat.sqrt).map (fun (ladders, _, entries) =>
      decide (∀ d ∈ (replayEntries (keptInput.accountRules Rat.sqrt 1 ladders) keptInput.start
        (keptInput.capital, 0)
        entries).entered, Marked (keptInput.accountRules Rat.sqrt 1 ladders) d)) = .ok true := by decide +kernel
  cases hresult : keptInput.replayAccount Rat.sqrt 1 with
  | error err =>
    have hok : (keptInput.replayAccount Rat.sqrt 1).isOk = true := by decide +kernel
    rw [hresult] at hok; cases hok
  | ok result =>
    obtain ⟨ladders, fallback, entries, hprepare, -, hsame⟩ := replayAccount_conserves hresult
    rw [hprepare] at hmarked
    have hall := of_decide_eq_true (Except.ok.inj hmarked); exact ⟨result, rfl, hsame hall⟩

end CryptoPilot.Engine
