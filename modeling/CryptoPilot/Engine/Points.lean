/- # Points — the points of a window in the order of their orders.

The fills of a symbol are booked in bar order when every order is resolved before the next one is
submitted.  `Spaced` says so of the inputs of a window: each timeout is over by the next signal and
by the next drift check. -/
import CryptoPilot.Engine.Steps

namespace CryptoPilot.Engine

open List Option

open CryptoPilot.Live (Exc)
open CryptoPilot.Lib (bind_eq_ok foldlM_invariant)

def Clock.resolve (spec : ExecutionSpec) (p : Clock) : ℤ := p.submit + spec.timeoutNs

/-- A drift check that runs in the window: it comes after the last decision before it, it resolves
inside the window, and it does not overlap a decision of the window. -/
structure DueCheck (cfg : ReplayConfig) (w : Window) (a : Acc) (anchor k check : ℤ) : Prop where
  bar : w.firstFrom (anchor + k * driftStep cfg.spec) = some check
  later : 0 < k
  after : ∀ t ∈ a.lastTime, t < anchor + k * driftStep cfg.spec
  inside : check + w.barNs + cfg.spec.timeoutNs ≤ w.last
  apart : ∀ e ∈ w.decisions, e.label < anchor + k * driftStep cfg.spec ∨
    check + w.barNs + cfg.spec.timeoutNs < e.label

/-- The drift checks are resolved in time: an order of a decision by the due checks after it, an
order of a check by the due checks after that. -/
structure SpacedChecks (cfg : ReplayConfig) (w : Window) (a : Acc) (anchor : ℤ) : Prop where
  decisions : ∀ d ∈ w.decisions, ∀ k c, DueCheck cfg w a anchor k c → d.label < anchor + k * driftStep cfg.spec →
    ∀ b, w.firstFrom d.signal = some b → b + cfg.spec.timeoutNs ≤ anchor + k * driftStep cfg.spec
  checks : ∀ k c j e, DueCheck cfg w a anchor k c → DueCheck cfg w a anchor j e → k < j →
    ∀ b, w.firstFrom (c + 1) = some b → b + cfg.spec.timeoutNs ≤ anchor + j * driftStep cfg.spec

/-- **Every order is resolved before the next one is submitted.** -/
structure Spaced (cfg : ReplayConfig) (w : Window) (a : Acc) : Prop where
  signal : ∀ d ∈ w.decisions, d.label ≤ d.signal
  decisions : w.decisions.Pairwise (fun d e =>
    ∀ b, w.firstFrom d.signal = some b → b + cfg.spec.timeoutNs ≤ e.signal)
  regular : ∀ c ∈ w.grid, ∀ b, w.firstFrom (c + 1) = some b → b ≤ c + w.barNs
  checks : cfg.spec.nameDriftTrimMaxWeight.isSome = true → ∀ anchor, anchorOf w a = some anchor →
    SpacedChecks cfg w a anchor

/-! ## The due checks -/

section Checks

variable {cfg : ReplayConfig} {w : Window} {a b : Acc} {anchor : ℤ}

/-- A drift check of `driftChecks` with its multiple of the interval. -/
structure Due (cfg : ReplayConfig) (w : Window) (a : Acc) (anchor : ℤ) (stop : Option ℤ) (k check : ℤ) : Prop where
  bar : w.firstFrom (anchor + k * driftStep cfg.spec) = some check
  later : 0 < k
  after : ∀ t ∈ a.lastTime, t < anchor + k * driftStep cfg.spec
  inside : check + w.barNs + cfg.spec.timeoutNs ≤ w.last
  before : ∀ t ∈ stop, check + w.barNs + cfg.spec.timeoutNs < t

theorem due_of_range {stop : Option ℤ} {k₀ : ℤ} {test : ℤ → Bool} (hlater : 0 < k₀)
    (hafter : ∀ n : ℕ, ∀ t ∈ a.lastTime, t < anchor + (k₀ + n) * driftStep cfg.spec)
    (htest : ∀ c, test c = true → c + w.barNs + cfg.spec.timeoutNs ≤ w.last ∧
      ∀ t ∈ stop, c + w.barNs + cfg.spec.timeoutNs < t) :
    ∀ {ns : List ℕ}, ns.Pairwise (· < ·) →
      ∃ ks : List ℤ, ks.Pairwise (· < ·) ∧ (∀ k ∈ ks, ∃ n ∈ ns, k = k₀ + (n : ℤ)) ∧
        List.Forall₂ (Due cfg w a anchor stop) ks
          ((ns.filterMap (fun n : ℕ => w.firstFrom (anchor + (k₀ + n) * driftStep cfg.spec))).takeWhile test)
  | [], _ => ⟨[], by simp, by simp, by simp⟩
  | n :: ns, hns => by
    obtain ⟨hn, hns⟩ := pairwise_cons.mp hns
    obtain ⟨ks, hsorted, hmem, hall⟩ := due_of_range hlater hafter htest hns
    cases hg : w.firstFrom (anchor + (k₀ + n) * driftStep cfg.spec) with
    | none =>
      refine ⟨ks, hsorted, ?_, ?_⟩
      · intro k hk
        obtain ⟨m, hm, rfl⟩ := hmem k hk; exact ⟨m, mem_cons_of_mem _ hm, rfl⟩
      · rw [filterMap_cons, hg]; exact hall
    | some c =>
      simp only [filterMap_cons, hg]
      by_cases hc : test c = true
      · rw [takeWhile_cons_of_pos hc]
        have hdue : Due cfg w a anchor stop (k₀ + n) c :=
          ⟨hg, by omega, hafter n, (htest c hc).1, (htest c hc).2⟩
        refine ⟨(k₀ + n) :: ks, ?_, ?_, .cons hdue hall⟩
        · refine pairwise_cons.mpr ⟨?_, hsorted⟩
          intro k hk
          obtain ⟨m, hm, rfl⟩ := hmem k hk
          have := hn m hm; omega
        · intro k hk
          rcases mem_cons.mp hk with rfl | hk
          · exact ⟨n, mem_cons_self, rfl⟩
          · obtain ⟨m, hm, rfl⟩ := hmem k hk; exact ⟨m, mem_cons_of_mem _ hm, rfl⟩
      · rw [takeWhile_cons_of_neg hc]; exact ⟨[], by simp, by simp, by simp⟩

variable (cfg w anchor a) in
theorem driftChecks_due (stop : Option ℤ) :
    ∃ ks : List ℤ, ks.Pairwise (· < ·) ∧
      List.Forall₂ (Due cfg w a anchor stop) ks (driftChecks cfg.spec w anchor a stop) := by
  have htest : ∀ c, (decide (c + w.barNs + cfg.spec.timeoutNs ≤ w.last) &&
      stop.all (fun t => decide (c + w.barNs + cfg.spec.timeoutNs < t))) = true →
        c + w.barNs + cfg.spec.timeoutNs ≤ w.last ∧ ∀ t ∈ stop, c + w.barNs + cfg.spec.timeoutNs < t := by
    intro c hc; simpa [Option.all_eq_true] using hc
  have hlater : ∀ t : ℤ, anchor ≤ t → 0 < (t - anchor) / driftStep cfg.spec + 1 := by
    intro t ht
    have := Int.ediv_nonneg (sub_nonneg.mpr ht) (driftStep_pos cfg.spec).le; omega
  refine (@due_of_range cfg w a anchor _ _ _ (hlater _ ?floor) ?after htest _ pairwise_lt_range).imp
    fun ks h => ⟨h.1, h.2.2⟩
  case floor =>
    split
    · exact le_rfl
    · exact le_max_left _ _
  case after =>
    intro n t ht
    rw [mem_def.mp ht]; exact lt_driftStep cfg.spec anchor t n

end Checks

/-! ## Points one after another -/

section Points

variable {cfg : ReplayConfig} {w : Window} {a : Acc} {anchor : ℤ}

/-- The points visited so far are resolved by every decision to come and by every due check after
the track, which has passed the decisions visited. -/
structure Ahead (cfg : ReplayConfig) (w : Window) (a : Acc) (anchor : ℤ) (x : Acc) (ps : List Clock)
    (ds : List Decision) : Prop where
  ordered : ps.Pairwise (fun p q => p.resolve cfg.spec ≤ q.submit)
  decisions : ∀ p ∈ ps, ∀ e ∈ ds, p.resolve cfg.spec ≤ e.signal
  checks : cfg.spec.nameDriftTrimMaxWeight.isSome = true → ∀ p ∈ ps, ∃ t, x.lastTime = some t ∧
    ∀ k c, DueCheck cfg w a anchor k c → t < anchor + k * driftStep cfg.spec →
      p.resolve cfg.spec ≤ anchor + k * driftStep cfg.spec
  begun : ∀ t ∈ a.lastTime, ∃ u, x.lastTime = some u ∧ t ≤ u
  passed : ∀ e ∈ w.decisions, e ∈ ds ∨ ∃ u, x.lastTime = some u ∧ e.label ≤ u

variable {ps : List Clock} {x y : Acc} {ds : List Decision}

theorem Ahead.later (h : Ahead cfg w a anchor x ps ds)
    (htime : ∀ t ∈ x.lastTime, ∃ u, y.lastTime = some u ∧ t ≤ u) : Ahead cfg w a anchor y ps ds where
  ordered := h.ordered
  decisions := h.decisions
  checks := by
    intro hcap p hp
    obtain ⟨t, ht, hall⟩ := h.checks hcap p hp
    obtain ⟨u, hu, hle⟩ := htime t ht
    exact ⟨u, hu, fun k c hdue hk => hall k c hdue (hle.trans_lt hk)⟩
  begun := by
    intro t ht
    obtain ⟨u, hu, htu⟩ := h.begun t ht
    obtain ⟨v, hv, huv⟩ := htime u hu; exact ⟨v, hv, htu.trans huv⟩
  passed := by
    intro e he
    rcases h.passed e he with hin | ⟨u, hu, heu⟩
    · exact .inl hin
    · obtain ⟨v, hv, huv⟩ := htime u hu; exact .inr ⟨v, hv, heu.trans huv⟩

theorem Ahead.snoc {ps qs : List Clock} {ds ds' : List Decision} (h : Ahead cfg w a anchor x ps ds)
    (htime : ∀ t ∈ x.lastTime, ∃ u, y.lastTime = some u ∧ t ≤ u) (hds : ∀ e ∈ ds', e ∈ ds)
    (hpassed : ∀ e ∈ ds, e ∈ ds' ∨ ∃ u, y.lastTime = some u ∧ e.label ≤ u) (hlength : qs.length ≤ 1)
    (hbefore : ∀ q ∈ qs, ∀ p ∈ ps, p.resolve cfg.spec ≤ q.submit)
    (hafter : ∀ q ∈ qs, ∀ e ∈ ds', q.resolve cfg.spec ≤ e.signal)
    (hchecks : cfg.spec.nameDriftTrimMaxWeight.isSome = true → ∀ q ∈ qs, ∃ t, y.lastTime = some t ∧
      ∀ k c, DueCheck cfg w a anchor k c → t < anchor + k * driftStep cfg.spec →
        q.resolve cfg.spec ≤ anchor + k * driftStep cfg.spec) :
    Ahead cfg w a anchor y (ps ++ qs) ds' where
  ordered := by
    refine pairwise_append.mpr ⟨h.ordered, ?_, fun p hp q hq => hbefore q hq p hp⟩
    match qs, hlength with
    | [], _ => exact List.Pairwise.nil
    | [q], _ => exact pairwise_singleton _ _
  decisions := by
    intro p hp e he
    rcases mem_append.mp hp with hp | hp
    · exact h.decisions p hp e (hds e he)
    · exact hafter p hp e he
  checks := by
    intro hcap p hp
    rcases mem_append.mp hp with hp | hp
    · exact (h.later htime).checks hcap p hp
    · exact hchecks hcap p hp
  begun := (h.later htime).begun
  passed := by
    intro e he
    rcases (h.later htime).passed e he with hin | hpast
    · exact hpassed e hin
    · exact .inr hpast

theorem WindowRun.time (h : WindowRun cfg w ps x y) : ∀ t ∈ x.lastTime, ∃ u, y.lastTime = some u ∧ t ≤ u := by
  intro t ht; exact (keeps_time t).run h ⟨t, ht, le_rfl⟩

variable {stop : Option ℤ} {k c : ℤ}

/-- A check of the list that runs before `stop` is due in the window: the decisions are behind it or
after `stop`. -/
theorem Due.dueCheck (h : Due cfg w x anchor stop k c) (hahead : Ahead cfg w a anchor x ps ds)
    (hstop : ∀ e ∈ ds, ∃ t ∈ stop, t ≤ e.label) : DueCheck cfg w a anchor k c where
  bar := h.bar
  later := h.later
  after := by
    intro t ht
    obtain ⟨u, hu, hle⟩ := hahead.begun t ht; exact hle.trans_lt (h.after u hu)
  inside := h.inside
  apart := by
    intro e he
    rcases hahead.passed e he with hin | ⟨u, hu, hle⟩
    · obtain ⟨t, ht, hle⟩ := hstop e hin; exact .inr ((h.before t ht).trans_le hle)
    · exact .inl (hle.trans_lt (h.after u hu))

theorem check_point {cap : ℚ} (hregular : ∀ c ∈ w.grid, ∀ b, w.firstFrom (c + 1) = some b → b ≤ c + w.barNs)
    (hcap : cfg.spec.nameDriftTrimMaxWeight.isSome = true) (hspaced : SpacedChecks cfg w a anchor)
    (hsignals : ∀ e ∈ ds, e.label ≤ e.signal) (hstop : ∀ e ∈ ds, ∃ t ∈ stop, t ≤ e.label)
    (hdue : DueCheck cfg w a anchor k c) (hbefore : ∀ t ∈ stop, c + w.barNs + cfg.spec.timeoutNs < t)
    (hafter : ∀ t ∈ x.lastTime, t < anchor + k * driftStep cfg.spec)
    (hahead : Ahead cfg w a anchor x ps ds) (h : driftTrimAt cfg w cap x c = .ok y) :
    y.lastTime = some c ∧ ∃ qs, Visits cfg w qs x y ∧ Ahead cfg w a anchor y (ps ++ qs) ds := by
  obtain ⟨hgrid, hmul⟩ := Window.firstFrom_mem hdue.bar
  obtain ⟨htime, qs, hrun, hlength, hqs⟩ := driftTrimAt_visits hgrid h
  have hpos := driftStep_pos cfg.spec
  refine ⟨htime, qs, hrun, hahead.snoc hrun.run.time (fun _ h => h) (fun _ h => .inl h) hlength ?_ ?_ ?_⟩
  · intro q hq p hp
    obtain ⟨t, ht, hall⟩ := hahead.checks hcap p hp
    have h1 := hall k c hdue (hafter t ht)
    have h2 := (Window.firstFrom_mem (hqs q hq).2.2.2).2; omega
  · intro q hq e he
    obtain ⟨t, ht, hle⟩ := hstop e he
    have h1 := hbefore t ht
    have h2 := hregular c hgrid q.submit (hqs q hq).2.2.2
    have h3 := hsignals e he
    unfold Clock.resolve; omega
  · intro _ q hq
    refine ⟨c, htime, fun j e hdue' hj => ?_⟩
    have hkj : k < j := by
      by_contra hle
      have := mul_le_mul_of_nonneg_right (not_lt.mp hle) hpos.le; omega
    exact hspaced.checks k c j e hdue hdue' hkj q.submit (hqs q hq).2.2.2

theorem DueCheck.lt_next {j e : ℤ} (hdue : DueCheck cfg w a anchor k c) (hdue' : DueCheck cfg w a anchor j e)
    (hbars : 2 ≤ w.grid.length) (hspaced : SpacedChecks cfg w a anchor) (hkj : k < j) :
    c < anchor + j * driftStep cfg.spec := by
  have htimeout := cfg.spec.timeoutNs_pos
  have hgrid := (Window.firstFrom_mem hdue.bar).1
  cases hsubmit : w.firstFrom (c + 1) with
  | none =>
    -- the window goes on for a timeout after the check, so the check has a submit bar
    have h1 := Window.firstFrom_eq_none hsubmit w.last (Window.last_mem (ne_nil_of_mem hgrid))
    have h2 := hdue.inside
    have h3 := Window.barNs_pos hbars; omega
  | some b =>
    have h1 := hspaced.checks k c j e hdue hdue' hkj b hsubmit
    have h2 := (Window.firstFrom_mem hsubmit).2; omega

/-- **The drift checks** up to a decision, or to the end of the window. -/
theorem checks_points {cap : ℚ} {ks cs : List ℤ} (hbars : 2 ≤ w.grid.length)
    (hregular : ∀ c ∈ w.grid, ∀ b, w.firstFrom (c + 1) = some b → b ≤ c + w.barNs)
    (hcap : cfg.spec.nameDriftTrimMaxWeight.isSome = true) (hspaced : SpacedChecks cfg w a anchor)
    (hsignals : ∀ e ∈ ds, e.label ≤ e.signal) (hstop : ∀ e ∈ ds, ∃ t ∈ stop, t ≤ e.label)
    (hsorted : ks.Pairwise (· < ·))
    (hdue : List.Forall₂ (fun k c => DueCheck cfg w a anchor k c ∧
      ∀ t ∈ stop, c + w.barNs + cfg.spec.timeoutNs < t) ks cs)
    (hafter : ∀ k ∈ ks, ∀ t ∈ x.lastTime, t < anchor + k * driftStep cfg.spec)
    (hahead : Ahead cfg w a anchor x ps ds) (h : cs.foldlM (driftTrimAt cfg w cap) x = .ok y) :
    ∃ qs, Visits cfg w qs x y ∧ Ahead cfg w a anchor y (ps ++ qs) ds := by
  induction hdue generalizing x ps with
  | nil =>
    rw [← Except.ok.inj h]; exact ⟨[], .done x, by rw [append_nil]; exact hahead⟩
  | cons hk hrest ih =>
    rw [foldlM_cons, bind_eq_ok] at h
    obtain ⟨z, hz, h⟩ := h
    obtain ⟨hlt, hks⟩ := pairwise_cons.mp hsorted
    obtain ⟨htime, qs, hrun, hahead'⟩ :=
      check_point hregular hcap hspaced hsignals hstop hk.1 hk.2 (hafter _ mem_cons_self) hahead hz
    have hrest := (forall₂_and_left (p := fun j => ∃ e, DueCheck cfg w a anchor j e) _ _).mp
      (hrest.imp fun j e h => ⟨⟨e, h.1⟩, h⟩)
    obtain ⟨rs, hrun', hahead''⟩ := ih hks (fun j hj t ht => by
      obtain ⟨e, hdue⟩ := hrest.1 j hj
      rw [htime, mem_def, Option.some.injEq] at ht
      exact ht ▸ hk.1.lt_next hdue hbars hspaced (hlt j hj)) hahead' h
    exact ⟨qs ++ rs, hrun.trans hrun', by rw [← append_assoc]; exact hahead''⟩

section

variable (hs : Spaced cfg w a) (hbars : 2 ≤ w.grid.length)

include hs hbars

theorem consumeDriftTrims_points (hds : ∀ e ∈ ds, e ∈ w.decisions) (hstop : ∀ e ∈ ds, ∃ t ∈ stop, t ≤ e.label)
    (hanchor : anchorOf w x = anchorOf w a) (hahead : Ahead cfg w a ((anchorOf w a).getD 0) x ps ds)
    (h : consumeDriftTrims cfg w stop x = .ok y) :
    ∃ qs, Visits cfg w qs x y ∧ Ahead cfg w a ((anchorOf w a).getD 0) y (ps ++ qs) ds := by
  have none : ∀ {z : Acc}, (Except.ok x : Except Exc Acc) = .ok z →
      ∃ qs, Visits cfg w qs x z ∧ Ahead cfg w a ((anchorOf w a).getD 0) z (ps ++ qs) ds := by
    intro z hz
    rw [← Except.ok.inj hz]; exact ⟨[], .done x, by rw [append_nil]; exact hahead⟩
  unfold consumeDriftTrims at h
  split at h
  · exact none h
  · next cap hcap =>
    have hcap : cfg.spec.nameDriftTrimMaxWeight.isSome = true := by rw [hcap]; rfl
    split at h
    · exact none h
    · next anchor hsome =>
      have hsome : anchorOf w x = some anchor := hsome
      have hspaced := hs.checks hcap anchor (hanchor.symm.trans hsome)
      rw [← hanchor, hsome] at hahead ⊢
      set z : Acc := { x with trimAnchor := some anchor }
      have hahead' : Ahead cfg w a anchor z ps ds := hahead.later (fun t ht => ⟨t, ht, le_rfl⟩)
      obtain ⟨ks, hsorted, hdue⟩ := driftChecks_due cfg w z anchor stop
      have hafter := (forall₂_and_left (p := fun k => ∀ t ∈ z.lastTime, t < anchor + k * driftStep cfg.spec) _ _).mp
        (hdue.imp fun k c hc => ⟨hc.after, hc⟩)
      obtain ⟨qs, hrun, hend⟩ := checks_points hbars hs.regular hcap hspaced (fun e he =>
        hs.signal e (hds e he)) hstop
        hsorted (hdue.imp fun k c hc => ⟨hc.dueCheck hahead' hstop, hc.before⟩) hafter.1 hahead' h
      exact ⟨qs, .anchored hsome hrun, hend⟩

theorem decisions_points (hsuffix : ds <:+ w.decisions)
    (hanchor : anchorOf w x = anchorOf w a) (hahead : Ahead cfg w a ((anchorOf w a).getD 0) x ps ds)
    (h : ds.foldlM (consumeDecision cfg w) x = .ok y) :
    ∃ qs, Visits cfg w qs x y ∧ Ahead cfg w a ((anchorOf w a).getD 0) y (ps ++ qs) [] := by
  induction ds generalizing x ps with
  | nil =>
    rw [← Except.ok.inj h]; exact ⟨[], .done x, by rw [append_nil]; exact hahead⟩
  | cons d ds ih =>
    have hmem : ∀ e ∈ d :: ds, e ∈ w.decisions := fun e he => hsuffix.subset he
    have hlabels := (decisions_sorted hmem h).2
    rw [foldlM_cons, bind_eq_ok] at h
    obtain ⟨z, hz, h⟩ := h
    rw [consumeDecision, bind_eq_ok] at hz
    obtain ⟨v, hv, hz⟩ := hz
    have hstop : ∀ e ∈ d :: ds, ∃ t ∈ some d.label, t ≤ e.label := by
      intro e he
      refine ⟨d.label, rfl, ?_⟩
      rcases mem_cons.mp he with rfl | hin
      · exact le_rfl
      · exact rel_of_pairwise_cons hlabels hin
    obtain ⟨qs, hrun, hahead'⟩ := consumeDriftTrims_points hs hbars hmem hstop hanchor hahead hv
    obtain ⟨htime, rs, hrun', hlength, hrs⟩ := singleIntent_visits (hmem d mem_cons_self) hz
    have hpairs := hs.decisions.sublist hsuffix.sublist
    have hpassed : ∀ e ∈ d :: ds, e ∈ ds ∨ ∃ u, z.lastTime = some u ∧ e.label ≤ u := by
      intro e he
      rcases mem_cons.mp he with rfl | hin
      · exact .inr ⟨_, htime, le_rfl⟩
      · exact .inl hin
    have hahead'' : Ahead cfg w a ((anchorOf w a).getD 0) z ((ps ++ qs) ++ rs) ds := by
      refine hahead'.snoc hrun'.run.time (fun e he => mem_cons_of_mem d he) hpassed hlength ?_ ?_ ?_
      · intro q hq p hp
        exact (hahead'.decisions p hp d mem_cons_self).trans (Window.firstFrom_mem (hrs q hq).2.2).2
      · intro q hq e he; exact rel_of_pairwise_cons hpairs he q.submit (hrs q hq).2.2
      · intro hcap q hq
        refine ⟨d.label, htime, fun k c hdue hk => ?_⟩
        have hsome : ∃ anchor, anchorOf w a = some anchor := by
          unfold anchorOf
          cases hd : w.decisions with
          | nil =>
            have := hmem d mem_cons_self; simp [hd] at this
          | cons e rest => cases a.trimAnchor <;> simp
        obtain ⟨anchor, hanchor'⟩ := hsome
        rw [hanchor'] at hdue hk ⊢
        exact (hs.checks hcap anchor hanchor').decisions d (hmem d mem_cons_self) k c hdue hk
          q.submit (hrs q hq).2.2
    have hanchor' : anchorOf w z = anchorOf w a :=
      (keeps_anchorOf (anchorOf w a)).run (hrun.trans hrun').run hanchor
    obtain ⟨us, hrun'', hend⟩ := ih ((suffix_cons d ds).trans hsuffix) hanchor' hahead'' h
    refine ⟨qs ++ (rs ++ us), hrun.trans (hrun'.trans hrun''), ?_⟩
    rw [← append_assoc, ← append_assoc]; exact hend

/-- **The points of a spaced window are resolved one after another.** -/
theorem consumeIntents_points (h : consumeIntents cfg w a = .ok y) :
    ∃ c z ps, w.settlementEvents.foldlM (admitEvent cfg) a = .ok c ∧ Visits cfg w ps (c.opened cfg w) z ∧
      settleEventsThrough cfg w w.last z = .ok y ∧ ps.Pairwise (fun p q => p.resolve cfg.spec ≤ q.submit) := by
  obtain ⟨c, d, e, hc, hd, he, h⟩ := consumeIntents_eq_ok h
  obtain ⟨hanchor, htime⟩ : anchorOf w c = anchorOf w a ∧ c.lastTime = a.lastTime := by
    refine foldlM_invariant (I := fun x => anchorOf w x = anchorOf w a ∧ x.lastTime = a.lastTime) ?_ hc ⟨rfl, rfl⟩
    intro event _ u v hv hu
    rw [(admitEvent_eq_ok hv).eq]; exact hu
  have hsame : anchorOf w (c.opened cfg w) = anchorOf w a := hanchor
  have hbegun : ∀ t ∈ a.lastTime, ∃ u, (c.opened cfg w).lastTime = some u ∧ t ≤ u := by
    intro t ht; exact ⟨t, htime.trans ht, le_rfl⟩
  obtain ⟨ps, hps, hahead⟩ := decisions_points hs hbars (suffix_refl _) hsame
    (show Ahead cfg w a _ _ [] _ from ⟨.nil, by simp, by simp, hbegun, fun _ he => .inl he⟩) hd
  have hanchor' := (keeps_anchorOf (anchorOf w a)).run hps.run hsame
  obtain ⟨qs, hqs, hend⟩ := consumeDriftTrims_points hs hbars (by simp) (by simp) hanchor' hahead he
  exact ⟨c, e, ps ++ qs, hc, hps.trans hqs, h, hend.ordered⟩

end

end Points

end CryptoPilot.Engine
