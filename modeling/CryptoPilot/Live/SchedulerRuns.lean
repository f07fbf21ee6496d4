/- # SchedulerRuns — the law of the daemon's decision days, over every run.

The invariant says where the daemon *stands*: at one day, with a number of failed attempts for it.
Every target so far is not after that day, every recorded day is before it, later days have no
failed attempt, and every day between a persisted day and this one was processed or has its alert.
-/
import CryptoPilot.Live.Scheduler
import Mathlib.Data.List.Pairwise

namespace CryptoPilot.Live

open CryptoPilot.Lib List

/-! ## The grid -/

theorem secondsPerDay_pos : 0 < secondsPerDay := by norm_num [secondsPerDay]

theorem onGrid_dayStart (k : ℤ) : OnDayGrid (dayStart k) := by
  unfold OnDayGrid normalize
  rw [dayOf_dayStart]

theorem OnDayGrid.eq_dayStart {t : ℚ} (h : OnDayGrid t) : t = dayStart (dayOf t) := h.symm

theorem normalize_mono {t u : ℚ} (h : t ≤ u) : normalize t ≤ normalize u :=
  dayStart_le_dayStart.mpr (dayOf_mono h)

theorem dayStart_add_day (k : ℤ) : dayStart k + secondsPerDay = dayStart (k + 1) := by
  unfold dayStart
  push_cast; ring

theorem OnDayGrid.eq_of_lt {t u : ℚ} (ht : OnDayGrid t) (hu : OnDayGrid u) (hle : t ≤ u)
    (hlt : u < t + secondsPerDay) : t = u := by
  rw [ht.eq_dayStart, hu.eq_dayStart] at hle hlt ⊢
  rw [dayStart_add_day] at hlt
  have h₁ := dayStart_le_dayStart.mp hle
  have h₂ := dayStart_lt_dayStart.mp hlt
  have heq : dayOf t = dayOf u := by omega
  rw [heq]

theorem dayOf_add_day (t : ℚ) : dayOf (t + secondsPerDay) = dayOf t + 1 := by
  unfold dayOf
  rw [add_div, div_self secondsPerDay_pos.ne', Int.floor_add_one]

theorem lt_normalize_add_day (t : ℚ) : t < normalize (t + secondsPerDay) := by
  unfold normalize dayStart
  rw [dayOf_add_day]
  have h := Int.lt_floor_add_one (t / secondsPerDay)
  rw [div_lt_iff₀ secondsPerDay_pos] at h
  push_cast; exact h

theorem OnDayGrid.normalize_add_day {t : ℚ} (h : OnDayGrid t) :
    normalize (t + secondsPerDay) = t + secondsPerDay := by
  nth_rewrite 2 [h.eq_dayStart]
  unfold normalize
  rw [dayOf_add_day, dayStart_add_day]

theorem dayOf_lt_of_lt {l t : ℚ} (ht : OnDayGrid t) (h : l < t) : dayOf l < dayOf t := by
  have hle := dayStart_dayOf_le l
  rw [ht.eq_dayStart] at h; exact dayStart_lt_dayStart.mp (hle.trans_lt h)

/-! ## The law -/

def DaemonState.front (s : DaemonState) : Option ℚ :=
  s.pendingDecisionTime.or (s.lastProcessedDecisionTime.map fun last => normalize (last + secondsPerDay))

def DaemonEvent.front : DaemonEvent → Option ℚ
  | .saved s => s.front
  | _ => none

/-- The day was processed, or there is an alert that says it is skipped. -/
def DayCovered (trace : List DaemonEvent) (day : ℚ) : Prop :=
  (∃ status : CycleStatus, status.processed ∧ DaemonEvent.cycle day status ∈ trace) ∨
    ∃ a : DaemonAlert, a.skips day ∧ DaemonEvent.alert a ∈ trace

/-- The event is past a day: it executes a later target, or records the day or a later one. -/
def DaemonEvent.passes (e : DaemonEvent) (day : ℚ) : Prop :=
  (∃ t, e.target = some t ∧ day < t) ∨ ∃ l, e.recorded = some l ∧ day ≤ l

/-- **The law of the decision days.** -/
structure DaemonLaw (st : DaemonSettings) (trace : List DaemonEvent) : Prop where
  /-- every executed target lies on the daily grid -/
  onGrid : ∀ e ∈ trace, ∀ t, e.target = some t → OnDayGrid t
  /-- the targets do not decrease -/
  ordered : trace.Pairwise fun e e' => ∀ t t', e.target = some t → e'.target = some t' → t ≤ t'
  /-- after a day is recorded as processed, no target lies on it or on an earlier day -/
  processed : trace.Pairwise fun e e' =>
    ∀ l t, e.recorded = some l → e'.target = some t → dayOf l < dayOf t
  /-- the failed attempts of a day are bounded -/
  attempts : ∀ day, trace.countP (DaemonEvent.failed day) ≤ st.daemonMaxAttemptsPerDay
  /-- once a day is persisted, every day from there that the run is past was processed or has its
  alert -/
  skipped : trace.Pairwise fun e e' => ∀ first day, e.front = some first → OnDayGrid day → first ≤ day →
    e'.passes day → DayCovered trace day

theorem DayCovered.mono {trace : List DaemonEvent} {day : ℚ} (h : DayCovered trace day) (e : DaemonEvent) :
    DayCovered (trace ++ [e]) day := by
  rcases h with ⟨status, hstatus, hmem⟩ | ⟨a, ha, hmem⟩
  · exact Or.inl ⟨status, hstatus, mem_append_left [e] hmem⟩
  · exact Or.inr ⟨a, ha, mem_append_left [e] hmem⟩

/-- **Where the daemon stands**: at a day, after a number of failed attempts. -/
structure Stands (st : DaemonSettings) (trace : List DaemonEvent) (front : ℚ) (fails : ℕ) : Prop where
  law : DaemonLaw st trace
  grid : OnDayGrid front
  targets : ∀ e ∈ trace, ∀ t, e.target = some t → t ≤ front
  recorded : ∀ e ∈ trace, ∀ l, e.recorded = some l → l < front
  fails : trace.countP (DaemonEvent.failed front) = fails
  later : ∀ day, front < day → trace.countP (DaemonEvent.failed day) = 0
  skipped : ∀ e ∈ trace, ∀ first day, e.front = some first → OnDayGrid day → first ≤ day → day < front →
    DayCovered trace day

structure Fits (front : ℚ) (e : DaemonEvent) : Prop where
  target : ∀ t, e.target = some t → t = front
  recorded : ∀ l, e.recorded = some l → l < front
  onward : ∀ first, e.front = some first → first = front
  failed : ∀ day, e.failed day = true → day = front

section Stands

variable {st : DaemonSettings} {trace : List DaemonEvent} {front : ℚ} {fails : ℕ}

theorem mem_snoc {e e' : DaemonEvent} : e' ∈ trace ++ [e] ↔ e' ∈ trace ∨ e' = e := by
  rw [mem_append, mem_singleton]

variable {e : DaemonEvent}

theorem pairwise_snoc {r : DaemonEvent → DaemonEvent → Prop}
    (h : trace.Pairwise r) (hlast : ∀ e' ∈ trace, r e' e) : (trace ++ [e]).Pairwise r := by
  rw [pairwise_append]
  refine ⟨h, pairwise_singleton r e, fun e' he' e'' he'' => ?_⟩
  rw [mem_singleton.mp he'']; exact hlast e' he'

theorem countP_snoc (e : DaemonEvent) (day : ℚ) :
    (trace ++ [e]).countP (DaemonEvent.failed day)
      = trace.countP (DaemonEvent.failed day) + if e.failed day then 1 else 0 := by
  rw [countP_append, countP_singleton]

/-- **One event where the daemon stands** keeps the law and the stand. -/
theorem Stands.append (h : Stands st trace front fails) (he : Fits front e)
    (hbound : fails + (if e.failed front then 1 else 0) ≤ st.daemonMaxAttemptsPerDay) :
    Stands st (trace ++ [e]) front (fails + if e.failed front then 1 else 0) := by
  have hcount : ∀ day, day ≠ front →
      (trace ++ [e]).countP (DaemonEvent.failed day) = trace.countP (DaemonEvent.failed day) := by
    intro day hday
    rw [countP_snoc, if_neg (fun hf => hday (he.failed day hf)), Nat.add_zero]
  -- a day that the event passes over lies before the front, so it is covered
  have hpassed : ∀ e' ∈ trace, ∀ first day, e'.front = some first → OnDayGrid day → first ≤ day →
      e.passes day → DayCovered (trace ++ [e]) day := by
    intro e' he' first day hfirst hday hle hpasses
    have hlt : day < front := by
      rcases hpasses with ⟨t, ht, hlt⟩ | ⟨l, hl, hle⟩
      · exact he.target t ht ▸ hlt
      · exact hle.trans_lt (he.recorded l hl)
    exact (h.skipped e' he' first day hfirst hday hle hlt).mono e
  constructor
  · constructor
    · intro e' he' t ht
      rcases mem_snoc.mp he' with he' | rfl
      · exact h.law.onGrid e' he' t ht
      · exact he.target t ht ▸ h.grid
    · apply pairwise_snoc h.law.ordered
      intro e' he' t t' ht ht'
      rw [he.target t' ht']; exact h.targets e' he' t ht
    · apply pairwise_snoc h.law.processed
      intro e' he' l t hl ht
      rw [he.target t ht]; exact dayOf_lt_of_lt h.grid (h.recorded e' he' l hl)
    · intro day
      by_cases hday : day = front
      · subst hday
        rw [countP_snoc, h.fails]; exact hbound
      · rw [hcount day hday]; exact h.law.attempts day
    · apply pairwise_snoc
      · exact h.law.skipped.imp fun hr first day hfirst hday hle hpasses =>
          (hr first day hfirst hday hle hpasses).mono e
      · exact hpassed
  · exact h.grid
  · intro e' he' t ht
    rcases mem_snoc.mp he' with he' | rfl
    · exact h.targets e' he' t ht
    · exact (he.target t ht).le
  · intro e' he' l hl
    rcases mem_snoc.mp he' with he' | rfl
    · exact h.recorded e' he' l hl
    · exact he.recorded l hl
  · rw [countP_snoc, h.fails]
  · intro day hday
    rw [hcount day hday.ne']; exact h.later day hday
  · intro e' he' first day hfirst hday hle hlt
    rcases mem_snoc.mp he' with he' | rfl
    · exact (h.skipped e' he' first day hfirst hday hle hlt).mono e
    · exact absurd (he.onward first hfirst ▸ hle) (not_le.mpr hlt)

theorem DaemonLaw.alert (h : DaemonLaw st trace) (a : DaemonAlert) : DaemonLaw st (trace ++ [.alert a]) := by
  constructor
  · intro e he t ht
    rcases mem_snoc.mp he with he | rfl
    · exact h.onGrid e he t ht
    · cases ht
  · exact pairwise_snoc h.ordered fun e he t t' ht ht' => absurd ht' nofun
  · exact pairwise_snoc h.processed fun e he l t hl ht => absurd ht nofun
  · intro day
    rw [countP_snoc]; exact h.attempts day
  · apply pairwise_snoc
    · exact h.skipped.imp fun hr first day hfirst hday hle hpasses =>
        (hr first day hfirst hday hle hpasses).mono _
    · rintro e he first day hfirst hday hle (⟨t, ht, -⟩ | ⟨l, hl, -⟩)
      · cases ht
      · cases hl

section

variable (h : Stands st trace front fails)

include h

theorem Stands.snoc (he : Fits front e) (hok : e.failed front = false)
    (hbound : fails ≤ st.daemonMaxAttemptsPerDay) :
    Stands st (trace ++ [e]) front fails := by
  have happend := h.append he
  rw [hok] at happend; exact happend hbound

/-- **Moving on**, past days that were processed or skipped with an alert. -/
theorem Stands.advance {front' : ℚ} (hgrid : OnDayGrid front') (hlt : front < front')
    (hsettled : ∀ day, OnDayGrid day → front ≤ day → day < front' → DayCovered trace day) :
    Stands st trace front' 0 where
  law := h.law
  grid := hgrid
  targets e he t ht := (h.targets e he t ht).trans hlt.le
  recorded e he l hl := (h.recorded e he l hl).trans hlt
  fails := h.later front' hlt
  later day hday := h.later day (hlt.trans hday)
  skipped e he first day hfirst hday hle hday' := by
    by_cases hold : day < front
    · exact h.skipped e he first day hfirst hday hle hold
    · exact hsettled day hday (not_lt.mp hold) hday'

theorem Stands.next (hsettled : DayCovered trace front) :
    Stands st trace (front + secondsPerDay) 0 := by
  have hpos := secondsPerDay_pos
  apply h.advance
  · rw [h.grid.eq_dayStart, dayStart_add_day]; exact onGrid_dayStart _
  · linarith
  · intro day hday hle hlt
    rw [← h.grid.eq_of_lt hday hle hlt]; exact hsettled

end

def Unsaved (trace : List DaemonEvent) : Prop :=
  ∀ e ∈ trace, e.recorded = none ∧ e.front = none ∧ ∀ day, e.failed day = false

theorem Stands.later_day {front' : ℚ} (h : Stands st trace front fails) (hunsaved : Unsaved trace)
    (hgrid : OnDayGrid front') (hle : front ≤ front') : Stands st trace front' 0 where
  law := h.law
  grid := hgrid
  targets e he t ht := (h.targets e he t ht).trans hle
  recorded e he l hl := by
    rw [(hunsaved e he).1] at hl; cases hl
  fails := countP_eq_zero.mpr fun e he => by simp [(hunsaved e he).2.2]
  later day _ := countP_eq_zero.mpr fun e he => by simp [(hunsaved e he).2.2]
  skipped e he first day hfirst := by
    rw [(hunsaved e he).2.1] at hfirst; cases hfirst

end Stands

theorem fits_alert (front : ℚ) (a : DaemonAlert) : Fits front (.alert a) :=
  ⟨nofun, nofun, nofun, nofun⟩

theorem fits_waiting (front target : ℚ) : Fits front (.waiting target) :=
  ⟨nofun, nofun, nofun, nofun⟩

theorem fits_signal (front : ℚ) (ok : Bool) : Fits front (.signal front ok) := by
  refine ⟨fun t ht => (Option.some.inj ht).symm, nofun, nofun, fun day hday => ?_⟩
  simp only [DaemonEvent.failed, Bool.and_eq_true, decide_eq_true_eq] at hday; exact hday.2.symm

theorem fits_cycle (front : ℚ) (status : CycleStatus) : Fits front (.cycle front status) := by
  refine ⟨fun t ht => (Option.some.inj ht).symm, nofun, nofun, fun day hday => ?_⟩
  simp only [DaemonEvent.failed, Bool.and_eq_true, decide_eq_true_eq] at hday; exact hday.2.symm

/-! ## The daemon keeps to the law -/

section Daemon

variable {st : DaemonSettings} {s : DaemonState} {aim : Aim} {d : Daemon}

theorem DaemonState.front_eq (hs : ¬ s.fresh) (now : ℚ) : s.front = some (s.aim now).target := by
  unfold DaemonState.front DaemonState.aim
  cases hp : s.pendingDecisionTime with
  | some pending => rfl
  | none =>
    cases hl : s.lastProcessedDecisionTime with
    | some last => rfl
    | none => exact absurd ⟨hp, hl⟩ hs

theorem DaemonState.aim_congr (hs : ¬ s.fresh) (now now' : ℚ) : s.aim now = s.aim now' := by
  unfold DaemonState.aim
  cases hp : s.pendingDecisionTime with
  | some pending => rfl
  | none =>
    cases hl : s.lastProcessedDecisionTime with
    | some last => rfl
    | none => exact absurd ⟨hp, hl⟩ hs

theorem DaemonState.aim_fresh (hs : s.fresh) (now : ℚ) : s.aim now = ⟨normalize now, 0⟩ := by
  unfold DaemonState.aim
  rw [hs.1, hs.2]; rfl

/-- Between two iterations the daemon stands at the target of the state it will load. -/
structure DaemonInv (st : DaemonSettings) (d : Daemon) : Prop where
  law : DaemonLaw st d.trace
  stands : ∀ s, d.file.load = some s →
    Stands st d.trace (s.aim d.now).target (s.aim d.now).attempts
  bound : ∀ s, d.file.load = some s → (s.aim d.now).attempts < st.daemonMaxAttemptsPerDay
  last : ∀ s, d.file.load = some s →
    ∀ l, s.lastProcessedDecisionTime = some l → l < (s.aim d.now).target
  unsaved : ∀ s, d.file.load = some s → s.fresh → Unsaved d.trace

/-- The invariant inside an iteration, after its target is chosen and before it saves anything. -/
structure Aiming (st : DaemonSettings) (s : DaemonState) (aim : Aim) (d : Daemon) : Prop where
  stands : Stands st d.trace aim.target aim.attempts
  bound : aim.attempts < st.daemonMaxAttemptsPerDay
  stale : ∀ l, s.lastProcessedDecisionTime = some l → l < aim.target
  file : ∀ s', d.file.load = some s' →
    (∀ l, s'.lastProcessedDecisionTime = some l → l < aim.target) ∧
    (¬ s'.fresh → ∀ now, s'.aim now = aim) ∧
    (s'.fresh → Unsaved d.trace ∧ aim.target ≤ normalize d.now)

theorem Aiming.inv (h : Aiming st s aim d) : DaemonInv st d := by
  -- a fresh file moves on with the clock, another one is where the iteration was
  have hmoved : ∀ s', d.file.load = some s' → s'.fresh →
      Stands st d.trace (normalize d.now) 0 := by
    intro s' hs' hfresh
    obtain ⟨hunsaved, hle⟩ := (h.file s' hs').2.2 hfresh
    exact h.stands.later_day hunsaved (onGrid_dayStart _) hle
  refine ⟨h.stands.law, fun s' hs' => ?_, fun s' hs' => ?_, fun s' hs' l hl => ?_,
    fun s' hs' hfresh => ((h.file s' hs').2.2 hfresh).1⟩
  · by_cases hfresh : s'.fresh
    · rw [s'.aim_fresh hfresh]; exact hmoved s' hs' hfresh
    · rw [(h.file s' hs').2.1 hfresh]; exact h.stands
  · by_cases hfresh : s'.fresh
    · rw [s'.aim_fresh hfresh]; exact st.attempts_pos
    · rw [(h.file s' hs').2.1 hfresh]; exact h.bound
  · by_cases hfresh : s'.fresh
    · rw [hfresh.2] at hl; cases hl
    · rw [(h.file s' hs').2.1 hfresh]; exact (h.file s' hs').1 l hl

theorem Aiming.emit {e : DaemonEvent} (h : Aiming st s aim d) (he : Fits aim.target e)
    (hrecorded : e.recorded = none) (hfront : e.front = none) (hok : ∀ day, e.failed day = false) :
    Aiming st s aim (d.emit e) := by
  refine ⟨h.stands.snoc he (hok _) h.bound.le, h.bound, h.stale, fun s' hs' => ?_⟩
  obtain ⟨hlast, hother, hfresh⟩ := h.file s' hs'
  refine ⟨hlast, hother, fun hs => ⟨?_, (hfresh hs).2⟩⟩
  intro e' he'
  rcases mem_snoc.mp he' with he' | rfl
  · exact (hfresh hs).1 e' he'
  · exact ⟨hrecorded, hfront, hok⟩

theorem Aiming.alert (h : Aiming st s aim d) (a : DaemonAlert) : Aiming st s aim (d.alert a) :=
  h.emit (fits_alert _ a) rfl rfl fun _ => rfl

theorem Aiming.alertIf (h : Aiming st s aim d) (c : Bool) (a : DaemonAlert) : Aiming st s aim (d.alertIf c a) := by
  unfold Daemon.alertIf
  split
  · exact h.alert a
  · exact h

theorem Aiming.congr {d' : Daemon} (h : Aiming st s aim d) (hfile : d'.file = d.file)
    (htrace : d'.trace = d.trace) (hnow : d.now ≤ d'.now) : Aiming st s aim d' := by
  refine ⟨htrace ▸ h.stands, h.bound, h.stale, fun s' hs' => ?_⟩
  obtain ⟨hlast, hother, hfresh⟩ := h.file s' (hfile ▸ hs')
  refine ⟨hlast, hother, fun hs => ?_⟩
  rw [htrace]; exact ⟨(hfresh hs).1, (hfresh hs).2.trans (normalize_mono hnow)⟩

variable {front : ℚ}

/-- **A save** of a state that goes on from where the daemon stands. -/
theorem Stands.save {s' : DaemonState} {fails : ℕ} (h : Stands st d.trace front fails)
    (haim : ∀ now, s'.aim now = ⟨front, fails⟩) (hs' : ¬ s'.fresh) (hbound : fails < st.daemonMaxAttemptsPerDay)
    (hlast : ∀ l, s'.lastProcessedDecisionTime = some l → l < front) : DaemonInv st (d.save s') := by
  have hfits : Fits front (.saved s') := by
    refine ⟨nofun, hlast, fun first hfirst => ?_, nofun⟩
    have hfront : s'.front = some front := by rw [s'.front_eq hs' 0, haim]
    rw [DaemonEvent.front, hfront] at hfirst; exact (Option.some.inj hfirst).symm
  have hstands : Stands st (d.save s').trace front fails := h.snoc hfits rfl hbound.le
  have hload : ∀ s'', (d.save s').file.load = some s'' → s'' = s' := fun s'' h => (Option.some.inj h).symm
  refine ⟨hstands.law, fun s'' h'' => ?_, fun s'' h'' => ?_, fun s'' h'' => ?_,
    fun s'' h'' hfresh => ?_⟩ <;> rw [hload s'' h''] at *
  · rw [haim]; exact hstands
  · rw [haim]; exact hbound
  · rw [haim]; exact hlast
  · exact absurd hfresh hs'

section

variable {fails : ℕ} (h : Stands st d.trace front fails)

include h

theorem Stands.record (hsettled : DayCovered d.trace front) :
    DaemonInv st (d.save ⟨some front, none, 0⟩) := by
  have hpos := secondsPerDay_pos
  apply (h.next hsettled).save
  · intro now
    change (⟨normalize (front + secondsPerDay), 0⟩ : Aim) = _
    rw [h.grid.normalize_add_day]
  · exact fun hfresh => absurd hfresh.2 nofun
  · exact st.attempts_pos
  · intro l hl
    rw [← Option.some.inj hl]; linarith

theorem Stands.pend {last : Option ℚ} (hbound : fails < st.daemonMaxAttemptsPerDay)
    (hlast : ∀ l, last = some l → l < front) :
    DaemonInv st (d.save ⟨last, some front, fails⟩) :=
  h.save (fun _ => rfl) (fun hfresh => absurd hfresh.1 nofun) hbound hlast

end

variable {d : Daemon}

theorem DaemonInv.stopIf (h : DaemonInv st d) (c : Bool) : DaemonInv st (d.stopIf c) := by
  unfold Daemon.stopIf
  split
  · exact ⟨h.law, h.stands, h.bound, h.last, h.unsaved⟩
  · exact h

theorem DaemonInv.stop (h : DaemonInv st d) : DaemonInv st d.stop :=
  ⟨h.law, h.stands, h.bound, h.last, h.unsaved⟩

section

variable (h : Stands st d.trace aim.target (aim.attempts + 1))
  (hstale : ∀ l, s.lastProcessedDecisionTime = some l → l < aim.target)
  (hbound : aim.attempts < st.daemonMaxAttemptsPerDay) (shutdown : Bool)

include h hstale hbound shutdown

theorem retryOrSkip_inv :
    DaemonInv st (d.retryOrSkip st s aim shutdown) := by
  unfold Daemon.retryOrSkip
  split
  · have halert : Stands st (d.alert (.daySkipped aim.target (aim.attempts + 1))).trace aim.target
        (aim.attempts + 1) := h.snoc (fits_alert _ _) rfl hbound
    apply halert.record
    exact Or.inr ⟨.daySkipped aim.target (aim.attempts + 1), decide_eq_true rfl, mem_snoc.mpr (Or.inr rfl)⟩
  · next hleft => exact (h.pend (not_le.mp hleft) hstale).stopIf shutdown

theorem halted_inv :
    DaemonInv st (d.halted st s aim shutdown) := by
  apply retryOrSkip_inv _ hstale hbound
  unfold Daemon.alertIf
  split
  · exact h.snoc (fits_alert _ _) rfl hbound
  · exact h

end

theorem Aiming.fail {e : DaemonEvent} (h : Aiming st s aim d) (he : Fits aim.target e)
    (hfailed : e.failed aim.target = true) : Stands st (d.emit e).trace aim.target (aim.attempts + 1) := by
  have happend := h.stands.append he
  rw [hfailed] at happend; exact happend h.bound

section

variable (h : Aiming st s aim d) (it : Iteration)

include h it

theorem runCycle_inv : DaemonInv st (d.runCycle st s aim it) := by
  unfold Daemon.runCycle
  have hmem : DaemonEvent.cycle aim.target it.cycle ∈ (d.emit (.cycle aim.target it.cycle)).trace :=
    mem_snoc.mpr (Or.inr rfl)
  cases hstatus : it.cycle with
  | interrupted =>
    have hrun : Aiming st s aim (d.emit (.cycle aim.target .interrupted)) :=
      h.emit (fits_cycle _ _) rfl rfl fun _ => rfl
    exact (hrun.stands.pend h.bound h.stale).stop
  | degraded freezeOnly =>
    have hrun : Aiming st s aim (d.emit (.cycle aim.target (.degraded freezeOnly))) :=
      h.emit (fits_cycle _ _) rfl rfl fun _ => rfl
    apply (hrun.alertIf _ _).stands.record
    rw [hstatus] at hmem
    refine Or.inl ⟨.degraded freezeOnly, rfl, ?_⟩
    unfold Daemon.alertIf
    split
    · exact mem_append_left _ hmem
    · exact hmem
  | complete =>
    have hrun : Aiming st s aim (d.emit (.cycle aim.target .complete)) :=
      h.emit (fits_cycle _ _) rfl rfl fun _ => rfl
    have hreset : Aiming st s aim { d.emit (.cycle aim.target .complete) with consecutiveHalts := 0 } :=
      hrun.congr rfl rfl (le_refl _)
    apply (hreset.alertIf _ _).stands.record
    rw [hstatus] at hmem
    refine Or.inl ⟨.complete, rfl, ?_⟩
    unfold Daemon.alertIf
    split
    · exact mem_append_left _ hmem
    · exact hmem
  | halt =>
    apply halted_inv _ h.stale h.bound; exact h.fail (fits_cycle _ _) (by simp [DaemonEvent.failed])

theorem runSignal_inv : DaemonInv st (d.runSignal st s aim it) := by
  unfold Daemon.runSignal
  cases it.signal with
  | none =>
    apply halted_inv _ h.stale h.bound
    exact h.fail (fits_signal _ _) (by simp [DaemonEvent.failed])
  | some age =>
    have hrun : Aiming st s aim (d.emit (.signal aim.target true)) := h.emit (fits_signal _ _) rfl rfl fun _ => rfl
    simp only
    split
    · exact hrun.inv.stop
    · exact runCycle_inv (hrun.alertIf _ _) it

theorem runRefresh_inv : DaemonInv st (d.runRefresh st s aim it) := by
  unfold Daemon.runRefresh
  split
  · exact (h.alert _).inv
  · split
    · exact (h.alertIf _ _).inv.stop
    · exact runSignal_inv ((h.alertIf _ _).alertIf _ _) it

theorem runStages_inv : DaemonInv st (d.runStages st s aim it) := by
  unfold Daemon.runStages
  split
  · exact (h.alertIf _ _).inv.stop
  · exact runRefresh_inv (h.alertIf _ _) it

end

theorem Aiming.tick (h : Aiming st s aim d) (elapsed : ℚ≥0) : Aiming st s aim (d.tick elapsed) :=
  h.congr rfl rfl (le_add_of_nonneg_right elapsed.coe_nonneg)

theorem Aiming.awaitRelease (waitUntil : ℚ) (ticks : List Tick) : ∀ {d : Daemon},
    Aiming st s aim d → Aiming st s aim (d.awaitRelease waitUntil ticks).1 := by
  induction ticks with
  | nil =>
    intro d h; exact h
  | cons t rest ih =>
    intro d h
    have ht := h.tick t.elapsed
    unfold Daemon.awaitRelease
    simp only
    split_ifs
    · exact ht
    · exact ht
    · exact ih ht

theorem work_inv (h : Aiming st s aim d) (it : Iteration) : DaemonInv st (d.work st s aim it) := by
  unfold Daemon.work
  have hwaiting : Aiming st s aim (d.emit (.waiting aim.target)) := h.emit (fits_waiting _ _) rfl rfl fun _ => rfl
  have hawait := hwaiting.awaitRelease
    (aim.target + decisionReleaseOffset + 60 * st.daemonCatchupBufferMinutes) it.waits
  simp only
  split
  · next d' heq =>
    rw [heq] at hawait; exact runStages_inv hawait it
  · next d' heq =>
    rw [heq] at hawait; exact hawait.inv.stop

/-- **The catch-up** moves to the first fresh day, with an alert for the days before it. -/
theorem Aiming.catchUp (h : Aiming st s aim d) : Aiming st s (d.catchUp st s aim).2 (d.catchUp st s aim).1 := by
  unfold Daemon.catchUp
  split
  · next hstale =>
    obtain ⟨-, hlt⟩ := hstale
    have hpos := secondsPerDay_pos
    have hgrid : OnDayGrid (st.earliestFresh d.now) := onGrid_dayStart _
    have halert := h.alert (.catchupSkipped aim.target (st.earliestFresh d.now - secondsPerDay))
    -- every day before the first fresh one lies in the range of the alert
    have hadvanced : Stands st (d.alert (.catchupSkipped aim.target
        (st.earliestFresh d.now - secondsPerDay))).trace (st.earliestFresh d.now) 0 := by
      apply halert.stands.advance hgrid hlt
      intro day hday hle hbefore
      have hlast : day ≤ st.earliestFresh d.now - secondsPerDay := by
        by_contra hnot
        have heq := hday.eq_of_lt hgrid hbefore.le (by linarith); exact absurd heq hbefore.ne
      exact Or.inr ⟨.catchupSkipped aim.target (st.earliestFresh d.now - secondsPerDay),
        decide_eq_true ⟨hle, hlast⟩, mem_snoc.mpr (Or.inr rfl)⟩
    have hlast : OnDayGrid (st.earliestFresh d.now - secondsPerDay) := by
      unfold DaemonSettings.earliestFresh
      rw [← Int.sub_add_cancel (dayCeil _) 1, ← dayStart_add_day, add_sub_cancel_right]
      exact onGrid_dayStart _
    have haim : ∀ now, (⟨some (st.earliestFresh d.now - secondsPerDay), none, 0⟩ : DaemonState).aim now
        = ⟨st.earliestFresh d.now, 0⟩ := by
      intro now
      change (⟨normalize (st.earliestFresh d.now - secondsPerDay + secondsPerDay), 0⟩ : Aim) = _
      rw [hlast.normalize_add_day, sub_add_cancel]
    have hinv := hadvanced.save haim (fun hfresh => absurd hfresh.2 nofun) st.attempts_pos
      (fun l hl => by
        rw [← Option.some.inj hl]
        linarith)
    refine ⟨haim 0 ▸ hinv.stands _ rfl, st.attempts_pos, fun l hl => (h.stale l hl).trans hlt, ?_⟩
    intro s' hs'
    obtain rfl := Option.some.inj hs'
    refine ⟨fun l hl => ?_, fun _ => haim, fun hfresh => absurd hfresh.2 nofun⟩
    rw [← Option.some.inj hl]; linarith
  · exact h

theorem DaemonInv.aiming (h : DaemonInv st d) (hload : d.file.load = some s) (elapsed : ℚ≥0) :
    Aiming st s (s.aim (d.tick elapsed).now) (d.tick elapsed) := by
  have hnow : d.now ≤ (d.tick elapsed).now := le_add_of_nonneg_right elapsed.coe_nonneg
  by_cases hfresh : s.fresh
  · have hstands := h.stands s hload
    have hunsaved := h.unsaved s hload hfresh
    rw [s.aim_fresh hfresh] at hstands ⊢
    refine ⟨hstands.later_day hunsaved (onGrid_dayStart _) (normalize_mono hnow), st.attempts_pos,
      fun l hl => ?_, fun s' hs' => ?_⟩
    · rw [hfresh.2] at hl; cases hl
    · obtain rfl := Option.some.inj (hload.symm.trans hs')
      refine ⟨fun l hl => ?_, fun hnot => absurd hfresh hnot, fun _ => ⟨hunsaved, le_refl _⟩⟩
      rw [hfresh.2] at hl; cases hl
  · rw [s.aim_congr hfresh _ d.now]
    refine ⟨h.stands s hload, h.bound s hload, h.last s hload, fun s' hs' => ?_⟩
    obtain rfl := Option.some.inj (hload.symm.trans hs')
    exact ⟨h.last s hload, fun _ now => s.aim_congr hfresh now d.now, fun hnot => absurd hnot hfresh⟩

/-- **One iteration** keeps the invariant. -/
theorem iterate_inv (h : DaemonInv st d) (it : Iteration) : DaemonInv st (d.iterate st it) := by
  unfold Daemon.iterate
  split
  · exact h.stop
  · split
    · next hload =>
      -- a corrupt file: an alert, and nothing else
      have hnone : ∀ s, d.file.load ≠ some s := fun s hs => by
        rw [hload] at hs; cases hs
      exact ⟨h.law.alert _, fun s hs => absurd hs (hnone s), fun s hs => absurd hs (hnone s),
        fun s hs => absurd hs (hnone s), fun s hs => absurd hs (hnone s)⟩
    · next s hload =>
      have haiming := ((h.aiming hload it.toTarget).tick it.toFresh).catchUp
      exact work_inv haiming it

theorem step_inv (h : DaemonInv st d) (act : DaemonActivity) : DaemonInv st (d.step st act) := by
  cases act with
  | restart n => exact ⟨h.law, h.stands, h.bound, h.last, h.unsaved⟩
  | iterate it =>
    unfold Daemon.step
    simp only
    split
    · exact iterate_inv h it
    · exact h
  | kill => exact h.stop
  | damage => exact ⟨h.law, nofun, nofun, nofun, nofun⟩

theorem run_inv (acts : List DaemonActivity) : ∀ {d : Daemon}, DaemonInv st d → DaemonInv st (d.run st acts) := by
  induction acts with
  | nil =>
    intro d h; exact h
  | cons act acts ih =>
    intro d h; exact ih (step_inv h act)

theorem stands_nil (st : DaemonSettings) (hgrid : OnDayGrid front) : Stands st [] front 0 where
  law := ⟨fun _ he => absurd he not_mem_nil, List.Pairwise.nil, List.Pairwise.nil,
    fun _ => Nat.zero_le _, List.Pairwise.nil⟩
  grid := hgrid
  targets _ he := absurd he not_mem_nil
  recorded _ he := absurd he not_mem_nil
  fails := rfl
  later _ _ := rfl
  skipped _ he := absurd he not_mem_nil

theorem installed_inv (st : DaemonSettings) (now : ℚ) (last : Option ℚ) :
    DaemonInv st (Daemon.installed now last) := by
  cases last with
  | none =>
    have hstands : Stands st [] (normalize now) 0 := stands_nil st (onGrid_dayStart _)
    refine ⟨hstands.law, fun s hs => ?_, fun s hs => ?_, fun s hs l hl => ?_, fun s hs _ e he => ?_⟩
    · obtain rfl := Option.some.inj hs; exact hstands
    · obtain rfl := Option.some.inj hs; exact st.attempts_pos
    · obtain rfl := Option.some.inj hs; cases hl
    · exact absurd he not_mem_nil
  | some last =>
    have hlt := lt_normalize_add_day last
    -- an old file is a saved state
    have hsaved : DaemonInv st (Daemon.save { file := .missing, now := now } ⟨some last, none, 0⟩) := by
      apply (stands_nil st (onGrid_dayStart (dayOf (last + secondsPerDay)))).save
      · exact fun _ => rfl
      · exact fun hfresh => absurd hfresh.2 nofun
      · exact st.attempts_pos
      · intro l hl
        rw [← Option.some.inj hl]; exact hlt
    exact ⟨hsaved.law, hsaved.stands, hsaved.bound, hsaved.last, hsaved.unsaved⟩

end Daemon

/-- **The daemon's decision days**, in every run from a new or an old installation, with any
outcomes of its steps, restarts and a clock that does not go back. -/
theorem daemon_keeps_the_law (st : DaemonSettings) (now : ℚ) (last : Option ℚ)
    (acts : List DaemonActivity) : DaemonLaw st ((Daemon.installed now last).run st acts).trace :=
  (run_inv acts (installed_inv st now last)).law

/-- A new installation that is stopped while it waits for its first day, and started again a day
later. -/
def stoppedRun : List DaemonActivity :=
  [.restart 0, .iterate { waits := [⟨60, true⟩], cycle := .complete },
   .restart 0, .iterate { toTarget := 86400, waits := [⟨86400, false⟩], cycle := .complete }]

/-- **A day before anything is persisted**: the first day was waited for and is skipped, the next
one is executed, and there is no alert at all. -/
theorem first_day_skipped_without_alert :
    DaemonEvent.waiting 0 ∈
      ((Daemon.installed 1000 none).run { alertDailyDigest := false } stoppedRun).trace ∧
    DaemonEvent.cycle 86400 .complete ∈
      ((Daemon.installed 1000 none).run { alertDailyDigest := false } stoppedRun).trace ∧
    ∀ a, DaemonEvent.alert a ∉
      ((Daemon.installed 1000 none).run { alertDailyDigest := false } stoppedRun).trace := by
  have htrace : ((Daemon.installed 1000 none).run { alertDailyDigest := false } stoppedRun).trace =
      [.waiting 0, .waiting 86400, .signal 86400 true, .cycle 86400 .complete,
        .saved ⟨some 86400, none, 0⟩] := by
    decide +kernel
  rw [htrace]; exact ⟨by simp, by simp, by simp⟩

end CryptoPilot.Live
