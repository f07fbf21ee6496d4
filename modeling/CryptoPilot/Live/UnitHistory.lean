/- # UnitHistory — the forward history over any sequence of strategy steps.

A step rebuilds its book from a window that starts at the last persisted label less two days, or at
the end of the bootstrap less one, scores what it can and appends it. -/
import CryptoPilot.Live.UnitProxy

namespace CryptoPilot.Live

open CryptoPilot.Lib List
open CryptoPilot.Lib.Proc (wp wp_mono)

/-! ## §1 Extending the history -/

section Extend

variable {bootstrap forward proxy history : UnitSeries} {e : ℤ × ℚ}

theorem mergeUnit_cons (merged : UnitSeries) (p : ℤ × ℚ) (s : UnitSeries) :
    mergeUnit merged (p :: s) = mergeUnit (if p.1 ∈ merged.map Prod.fst then merged else merged ++ [p]) s := rfl

theorem mem_mergeUnit_left : ∀ {s merged : UnitSeries}, e ∈ merged → e ∈ mergeUnit merged s
  | [], _, h => h
  | p :: s, merged, h => by
    rw [mergeUnit_cons]
    refine mem_mergeUnit_left ?_
    split
    · exact h
    · exact mem_append_left _ h

theorem mem_mergeUnit : ∀ {s merged : UnitSeries}, e ∈ mergeUnit merged s →
    e ∈ merged ∨ (e ∈ s ∧ e.1 ∉ merged.map Prod.fst)
  | [], _, h => .inl h
  | p :: s, merged, h => by
    rw [mergeUnit_cons] at h
    rcases mem_mergeUnit h with h | ⟨hin, hnot⟩
    · split at h
      next => exact .inl h
      next hnew =>
        rcases mem_append.mp h with h | h
        · exact .inl h
        · rw [mem_singleton.mp h]; exact .inr ⟨mem_cons_self, hnew⟩
    · refine .inr ⟨mem_cons_of_mem _ hin, fun hday => hnot ?_⟩
      split
      · exact hday
      · rw [map_append]; exact mem_append_left _ hday

theorem mem_mergeUnit_right : ∀ {s merged : UnitSeries}, (s.map Prod.fst).Nodup → e ∈ s →
    e.1 ∉ merged.map Prod.fst → e ∈ mergeUnit merged s
  | p :: s, merged, hnodup, h, hnew => by
    obtain ⟨hnot, hnodup⟩ := nodup_cons.mp hnodup
    rw [mergeUnit_cons]
    rcases mem_cons.mp h with rfl | h
    · rw [if_neg hnew]; exact mem_mergeUnit_left (by simp)
    · refine mem_mergeUnit_right hnodup h ?_
      split
      · exact hnew
      · rw [map_append, mem_append, not_or]
        refine ⟨hnew, fun heq => hnot ?_⟩
        rw [map_singleton, mem_singleton] at heq; exact heq ▸ mem_map_of_mem h

theorem requireDailySeries_ok {s : UnitSeries} (h : requireDailySeries s = .ok ()) :
    (s.map Prod.fst).Pairwise (· < ·) := by
  unfold requireDailySeries at h
  split at h
  next hsorted => exact hsorted
  next => cases h

theorem extendUnitHistory_ok (h : extendUnitHistory bootstrap forward proxy = .ok history) :
    bootstrap ≠ [] ∧ (bootstrap.map Prod.fst).Pairwise (· < ·) ∧ (forward.map Prod.fst).Pairwise (· < ·)
      ∧ (history.map Prod.fst).IsChain (fun d d' => d' = d + 1)
      ∧ ∀ e, e ∈ history ↔ e ∈ mergeUnit (mergeUnit bootstrap forward) proxy := by
  unfold extendUnitHistory at h
  split at h
  next => cases h
  next hne =>
    obtain ⟨_, hbootstrap, h⟩ := bind_eq_ok.mp h
    obtain ⟨_, hforward, h⟩ := bind_eq_ok.mp h
    obtain ⟨_, -, h⟩ := bind_eq_ok.mp h
    dsimp only at h
    split at h
    next hchain =>
      cases h
      exact ⟨hne, requireDailySeries_ok hbootstrap, requireDailySeries_ok hforward, hchain, fun e =>
        (perm_insertionSort _ _).mem_iff⟩
    next => cases h

def DaysFrom (start : ℤ) (days : List ℤ) : Prop := ∃ n : ℕ, days = (List.range n).map fun i : ℕ => start + (i : ℤ)

theorem daysFrom_of_isChain : ∀ {days : List ℤ} {start : ℤ}, (start :: days).IsChain (fun d d' => d' = d + 1) →
    DaysFrom start (start :: days)
  | [], start, _ => ⟨1, by simp⟩
  | day :: rest, start, h => by
    rw [isChain_cons_cons] at h
    obtain ⟨rfl, hrest⟩ := h
    obtain ⟨n, hn⟩ := daysFrom_of_isChain hrest
    refine ⟨n + 1, ?_⟩
    rw [hn, range_succ_eq_map, map_cons, map_map]
    refine cons_eq_cons.mpr ⟨by simp, map_congr_left fun i _ => ?_⟩
    simp only [Function.comp_apply, Nat.succ_eq_add_one, Nat.cast_add, Nat.cast_one]; omega

variable {days : List ℤ}

theorem DaysFrom.after {start day : ℤ} (h : DaysFrom start days) (hday : day ∈ days) :
    DaysFrom (day + 1) (days.filter fun d => decide (day < d)) := by
  obtain ⟨n, rfl⟩ := h
  obtain ⟨j, hj, rfl⟩ := mem_map.mp hday
  obtain ⟨m, rfl⟩ := Nat.exists_eq_add_of_lt (mem_range.mp hj)
  refine ⟨m, ?_⟩
  rw [show j + m + 1 = j + 1 + m by omega, range_add, map_append, filter_append]
  have hbefore : ((List.range (j + 1)).map fun i : ℕ => start + (i : ℤ)).filter (fun d =>
    decide (start + (j : ℤ) < d)) = [] := by
    refine filter_eq_nil_iff.mpr fun d hd => ?_
    obtain ⟨i, hi, rfl⟩ := mem_map.mp hd
    have hi := mem_range.mp hi; simp only [decide_eq_true_eq]; omega
  have hafter : (((List.range m).map (j + 1 + ·)).map fun i : ℕ => start + (i : ℤ)).filter
      (fun d => decide (start + (j : ℤ) < d)) = ((List.range m).map (j + 1 + ·)).map fun i : ℕ =>
        start + (i : ℤ) := by
    refine filter_eq_self.mpr fun d hd => ?_
    obtain ⟨i, hi, rfl⟩ := mem_map.mp hd
    obtain ⟨i, -, rfl⟩ := mem_map.mp hi; simp only [decide_eq_true_eq]; omega
  rw [hbefore, hafter, map_map]
  refine map_congr_left fun i _ => ?_
  simp only [Function.comp_apply, Nat.cast_add, Nat.cast_one]; omega

theorem DaysFrom.le {start day : ℤ} (h : DaysFrom start days) (hday : day ∈ days) : start ≤ day := by
  obtain ⟨n, rfl⟩ := h
  obtain ⟨i, -, rfl⟩ := mem_map.mp hday; omega

theorem DaysFrom.lt_of_notMem {start day last : ℤ} (h : DaysFrom start days) (hstart : start ≤ day)
    (hnot : day ∉ days) (hlast : days.getLast? = some last) : last < day := by
  obtain ⟨n, rfl⟩ := h
  have hmem := mem_of_getLast? hlast
  obtain ⟨i, hi, rfl⟩ := mem_map.mp hmem
  by_contra hle
  refine hnot (mem_map.mpr ⟨(day - start).toNat, ?_, by omega⟩)
  rw [mem_range] at hi ⊢; omega

theorem le_lastDay {s : UnitSeries} {last : ℤ} (hsorted : (s.map Prod.fst).Pairwise (· < ·))
    (hlast : UnitSeries.lastDay s = some last) : ∀ d ∈ s.map Prod.fst, d ≤ last := by
  intro d hd
  obtain ⟨init, hinit⟩ := getLast?_eq_some_iff.mp hlast
  rw [hinit] at hd hsorted
  rcases mem_append.mp hd with hd | hd
  · exact ((pairwise_append.mp hsorted).2.2 d hd last mem_cons_self).le
  · exact (mem_singleton.mp hd).le

/-- `forward_new`: the history after the bootstrap. -/
def forwardNew (bootstrapEnd : ℤ) (history : UnitSeries) : UnitSeries :=
  history.filter fun p => decide (bootstrapEnd < p.1)

theorem forwardNew_days (bootstrapEnd : ℤ) (history : UnitSeries) :
    (forwardNew bootstrapEnd history).map Prod.fst
      = (history.map Prod.fst).filter fun d => decide (bootstrapEnd < d) := by
  rw [filter_map]; rfl

theorem forwardNew_spec {bootstrapEnd : ℤ} (h : extendUnitHistory bootstrap forward proxy = .ok history)
    (hlast : UnitSeries.lastDay bootstrap = some bootstrapEnd) (hafter : ∀ e ∈ forward, bootstrapEnd < e.1) :
    DaysFrom (bootstrapEnd + 1) ((forwardNew bootstrapEnd history).map Prod.fst)
      ∧ (∀ e ∈ forward, e ∈ forwardNew bootstrapEnd history)
      ∧ ∀ e ∈ forwardNew bootstrapEnd history,
        e ∈ forward ∨ (e ∈ proxy ∧ bootstrapEnd < e.1 ∧ e.1 ∉ forward.map Prod.fst) := by
  obtain ⟨-, hbootstrap, hforward, hchain, hmem⟩ := extendUnitHistory_ok h
  have hle := le_lastDay hbootstrap hlast
  refine ⟨?_, fun e he => ?_, fun e he => ?_⟩
  · have hend : bootstrapEnd ∈ history.map Prod.fst := by
      obtain ⟨e, he, rfl⟩ := mem_map.mp (mem_of_getLast? hlast)
      exact mem_map_of_mem ((hmem e).mpr (mem_mergeUnit_left (mem_mergeUnit_left he)))
    cases hdays : history.map Prod.fst with
    | nil => rw [hdays] at hend; cases hend
    | cons first rest =>
      rw [hdays] at hchain hend
      rw [forwardNew_days, hdays]; exact (daysFrom_of_isChain hchain).after hend
  · have hnew : e.1 ∉ bootstrap.map Prod.fst := fun hin => absurd (hle e.1 hin) (not_le.mpr (hafter e he))
    have hnodup : (forward.map Prod.fst).Nodup := hforward.imp fun hlt => hlt.ne
    exact mem_filter.mpr ⟨(hmem e).mpr (mem_mergeUnit_left (mem_mergeUnit_right hnodup he hnew)),
      decide_eq_true (hafter e he)⟩
  · obtain ⟨he, hlt⟩ := mem_filter.mp he
    have hlt : bootstrapEnd < e.1 := of_decide_eq_true hlt
    have hnotboot : e ∉ bootstrap := fun hin => absurd (hle e.1 (mem_map_of_mem hin)) (not_le.mpr hlt)
    rcases mem_mergeUnit ((hmem e).mp he) with he | ⟨he, hnew⟩
    · rcases mem_mergeUnit he with he | ⟨he, -⟩
      · exact absurd he hnotboot
      · exact .inl he
    · refine .inr ⟨he, hlt, fun hday => hnew ?_⟩
      obtain ⟨f, hf, hfe⟩ := mem_map.mp hday
      have hfnew : f.1 ∉ bootstrap.map Prod.fst := fun hin => absurd (hle f.1 hin) (not_le.mpr (hafter f hf))
      have hnodup : (forward.map Prod.fst).Nodup := hforward.imp fun hlt => hlt.ne
      exact hfe ▸ mem_map_of_mem (mem_mergeUnit_right hnodup hf hfnew)

end Extend

/-! ## §2 One step -/

section Step

variable {st : SignalSettings} {day : ℤ} {inp : SignalInputs} {d d' : SignalDisk} {p : Sized}

def SignalDisk.forwardSeries (d : SignalDisk) : UnitSeries := d.forward.getD []

/-- What a step reads for its proxy: its book and the settlements. -/
structure StepReads (day : ℤ) (inp : SignalInputs) (bootstrapEnd : ℤ) (forward : UnitSeries)
    (book : LiveStrategyBook)
    (settled : Dict ℚ) : Prop where
  built : inp.book (panelStart day bootstrapEnd forward) = .ok book
  collected : ∃ listing ledger, inp.listing = .ok listing ∧ inp.ledger = .ok ledger
    ∧ collectSettlements inp listing ledger.held book = .ok settled

def Extends (day : ℤ) (inp : SignalInputs) (d d' : SignalDisk) : Prop :=
  d'.forward = d.forward ∨ ∃ bootstrap bootstrapEnd book settled proxy history,
    inp.bootstrap = .ok bootstrap ∧ UnitSeries.lastDay bootstrap = some bootstrapEnd
      ∧ StepReads day inp bootstrapEnd d.forwardSeries book settled
      ∧ inp.unitProxyReturns book settled = .ok proxy
      ∧ extendUnitHistory bootstrap d.forwardSeries proxy = .ok history
      ∧ d'.forward = some (forwardNew bootstrapEnd history)

theorem prepare_extends : wp (prepare st day inp) (fun _ d' => Extends day inp d d')
    (fun _ d' => Extends day inp d d') d := by
  have hkept : Extends day inp d d := .inl rfl
  unfold prepare
  rw [Proc.wp_ite]
  refine ⟨fun _ => hkept, fun _ => ?_⟩
  rw [Proc.wp_bind, Proc.wp_ofExcept]
  refine ⟨fun accountEquity _ => ?_, fun _ _ => hkept⟩
  rw [Proc.wp_bind, Proc.wp_ofExcept]
  refine ⟨fun bootstrap hbootstrap => ?_, fun _ _ => hkept⟩
  rw [Proc.wp_bind, Proc.wp_get]
  cases hlast : UnitSeries.lastDay bootstrap with
  | none => exact hkept
  | some bootstrapEnd =>
    rw [Proc.wp_bind, Proc.wp_ofExcept]
    refine ⟨fun listing hlisting => ?_, fun _ _ => hkept⟩
    rw [Proc.wp_bind, Proc.wp_ofExcept]
    refine ⟨fun ledger hledger => ?_, fun _ _ => hkept⟩
    rw [Proc.wp_bind, Proc.wp_ofExcept]
    refine ⟨fun gaps _ => ?_, fun _ _ => hkept⟩
    rw [Proc.wp_bind, Proc.wp_ofExcept]
    refine ⟨fun book hbook => ?_, fun _ _ => hkept⟩
    rw [Proc.wp_ite]
    refine ⟨fun _ => hkept, fun _ => ?_⟩
    rw [Proc.wp_bind, Proc.wp_ofExcept]
    refine ⟨fun settled hsettled => ?_, fun _ _ => hkept⟩
    rw [Proc.wp_bind, Proc.wp_ofExcept]
    refine ⟨fun proxy hproxy => ?_, fun _ _ => hkept⟩
    rw [Proc.wp_bind, Proc.wp_ofExcept]
    refine ⟨fun history hhistory => ?_, fun _ _ => hkept⟩
    have hwritten : ∀ d', d'.forward = some (forwardNew bootstrapEnd history) →
      Extends day inp d d' := fun d' hd' =>
      .inr ⟨bootstrap, bootstrapEnd, book, settled, proxy, history, hbootstrap, hlast,
        ⟨hbook, listing, ledger, hlisting, hledger, hsettled⟩, hproxy, hhistory, hd'⟩
    rw [Proc.wp_bind]
    refine wp_durableReplace (fun _ => hkept) (fun io rest _ _ => ?_) fun io rest _ _ _ => ?_
    · rw [Proc.wp_ofExcept]; exact ⟨fun _ _ => hwritten _ rfl, fun _ _ => hwritten _ rfl⟩
    · split
      · exact hwritten _ rfl
      · exact hkept

theorem appendWeightRow_forward {name : ArtifactName} {columns : List String} {row : Dict ℚ} :
    wp (appendWeightRow st.artifacts name day columns row) (fun _ d' => d'.forward = d.forward)
      (fun _ d' => d'.forward = d.forward) d := by
  refine wp_appendWeightRow (fun _ _ => rfl) (fun _ _ _ => rfl) (fun _ _ => rfl) (fun _ _ _ _ => rfl)
    (fun _ _ _ _ _ _ _ _ => rfl) fun _ _ _ _ _ _ _ _ _ => ?_
  split <;> rfl

theorem publish_forward : wp (publish st day p) (fun _ d' => d'.forward = d.forward)
    (fun _ d' => d'.forward = d.forward) d := by
  unfold publish
  rw [Proc.wp_bind, Proc.wp_get, Proc.wp_bind, Proc.wp_ofExcept]
  refine ⟨fun existing _ => ?_, fun _ _ => rfl⟩
  rw [Proc.wp_ite]
  refine ⟨fun _ => rfl, fun _ => ?_⟩
  rw [Proc.wp_bind]
  refine wp_mono appendWeightRow_forward (fun _ d₁ h₁ => ?_) fun _ _ h => h
  unfold publishCloses
  rw [Proc.wp_ite]
  refine ⟨fun _ => h₁, fun _ => ?_⟩
  rw [Proc.wp_bind]
  refine wp_mono appendWeightRow_forward (fun _ d₂ h₂ => ?_) fun _ _ h => h.trans h₁
  rw [Proc.wp_bind]
  refine wp_durableReplace (fun _ => h₂.trans h₁) (fun _ _ _ _ => h₂.trans h₁) fun _ _ _ _ _ => ?_
  split <;> exact h₂.trans h₁

theorem runStrategySignalStep_extends (st : SignalSettings) (day : ℤ) (inp : SignalInputs) (d : SignalDisk) :
    Extends day inp d (runStrategySignalStep st day inp d).2 := by
  have h : wp (runStrategySignalStep st day inp) (fun _ => Extends day inp d) (fun _ => Extends day inp d) d := by
    unfold runStrategySignalStep
    rw [Proc.wp_bind]
    refine wp_mono prepare_extends (fun p d₁ h₁ => ?_) fun _ _ h => h
    have hkept : ∀ d', d'.forward = d₁.forward → Extends day inp d d' := by
      intro d' hd'
      unfold Extends at h₁ ⊢; rwa [hd']
    exact wp_mono publish_forward (fun _ d' => hkept d') fun _ d' => hkept d'
  exact Proc.wp_final h

end Step

/-! ## §3 Runs -/

def liveUnitProxyCostBps : ℚ := 2

/-- One call of the step: its day, what it reads, and the outcomes of its durable writes. -/
structure HistoryStep where
  day : ℤ
  inputs : SignalInputs
  panelLastBar : ℤ
  funding : String → FundingSeries
  io : List IoStep

def HistoryStep.deliveryTime (step : HistoryStep) (s : String) : Option ℤ :=
  match step.inputs.listing with
  | .ok (some entries) => (entries.find? fun e => decide (e.symbol = s)).bind VenueListingEntry.deliveryTime
  | _ => none

/-- What `unit_proxy_returns` is given beside the book. -/
def HistoryStep.reads (step : HistoryStep) (settled : Dict ℚ) : ProxyReads where
  panelLastBar := step.panelLastBar
  funding := step.funding
  settlements s := (settled.lookup s).bind fun price => (step.deliveryTime s).map fun delivery => ⟨price, delivery⟩

section Runs

variable (st : SignalSettings) (bootstrap : UnitSeries) (lake : Lake) (d₀ : SignalDisk)

/-- A step that reads the bootstrap reads this one, and scores its book. -/
def HistoryStep.given (step : HistoryStep) : SignalInputs :=
  { step.inputs with
    bootstrap := step.inputs.bootstrap.map fun _ => bootstrap
    unitProxyReturns := fun book settled => unitProxyReturns book (step.reads settled) liveUnitProxyCostBps }

def HistoryStep.after (step : HistoryStep) (d : SignalDisk) : SignalDisk :=
  (runStrategySignalStep st step.day (step.given bootstrap) { d with script := step.io }).2

def stepsAfter (steps : List HistoryStep) (d : SignalDisk) : SignalDisk :=
  steps.foldl (fun d step => step.after st bootstrap d) d

def forwardAfter (steps : List HistoryStep) : UnitSeries :=
  (stepsAfter st bootstrap steps { d₀ with forward := none }).forwardSeries

def bootstrapEndOf : ℤ := (UnitSeries.lastDay bootstrap).getD 0

/-- **The history does not depend on when it was scored**: a persisted value stays, no day after the
bootstrap is missing, and each label has the value of its day in the lake, as `unit_proxy_returns`
gives it on any book that starts earlier. -/
structure SettledHistory (steps : List HistoryStep) : Prop where
  kept : ∀ earlier later, earlier <+: later → later <+: steps →
    ∀ e ∈ forwardAfter st bootstrap d₀ earlier, e ∈ forwardAfter st bootstrap d₀ later
  contiguous : ∀ earlier, earlier <+: steps →
    DaysFrom (bootstrapEndOf bootstrap + 1) ((forwardAfter st bootstrap d₀ earlier).map Prod.fst)
  valued : ∀ earlier, earlier <+: steps → ∀ label v, (label, v) ∈ forwardAfter st bootstrap d₀ earlier →
    v = lake.unitReturn liveUnitProxyCostBps (label - 2)
  rescored : ∀ earlier, earlier <+: steps → ∀ label v, (label, v) ∈ forwardAfter st bootstrap d₀ earlier →
    ∀ book reads start out v', book.StartsAt start → start < label - 2 → Shows lake book reads (label - 2) →
      ShowsWeights lake book (label - 3) → unitProxyReturns book reads liveUnitProxyCostBps = .ok out →
      (label, v') ∈ out → v' = v

/-- What a step has to see of the lake: its book has the rows of its window, and of each decision it
can score and has not recorded it sees what the lake finally gives. -/
structure SeesLake (forward : UnitSeries) (step : HistoryStep) (book : LiveStrategyBook)
    (settled : Dict ℚ) : Prop where
  window : book.StartsAt (panelStart step.day (bootstrapEndOf bootstrap) forward + liveSignalWarmupDays)
  shown : ∀ day, Scorable book (step.reads settled) day → bootstrapEndOf bootstrap < day + 2 →
    day + 2 ∉ forward.map Prod.fst → Shows lake book (step.reads settled) day
  previous : ∀ day, Scorable book (step.reads settled) day → bootstrapEndOf bootstrap < day + 2 →
    day + 2 ∉ forward.map Prod.fst → day - 1 ∈ book.index → ShowsWeights lake book (day - 1)
  seam : forward = [] → bootstrapEndOf bootstrap - 1 ≤ step.day →
    Scorable book (step.reads settled) (bootstrapEndOf bootstrap - 1) →
    lake.gross (bootstrapEndOf bootstrap - 1) = lake.change (bootstrapEndOf bootstrap - 1)

def SettledStep (forward : UnitSeries) (step : HistoryStep) : Prop :=
  ∀ book settled, StepReads step.day (step.given bootstrap) (bootstrapEndOf bootstrap) forward book settled →
    SeesLake bootstrap lake forward step book settled

end Runs

variable {st : SignalSettings} {bootstrap : UnitSeries} {lake : Lake} {d₀ : SignalDisk} {steps : List HistoryStep}

theorem stepsAfter_concat (step : HistoryStep) (d : SignalDisk) :
    stepsAfter st bootstrap (steps ++ [step]) d = step.after st bootstrap (stepsAfter st bootstrap steps d) := by
  rw [stepsAfter, foldl_append]; rfl

theorem forwardAfter_concat (st : SignalSettings) (bootstrap : UnitSeries) (d₀ : SignalDisk)
    (steps : List HistoryStep)
    (step : HistoryStep) :
    forwardAfter st bootstrap d₀ (steps ++ [step]) = forwardAfter st bootstrap d₀ steps
      ∨ ∃ bootstrapEnd book settled proxy history, UnitSeries.lastDay bootstrap = some bootstrapEnd
        ∧ StepReads step.day (step.given bootstrap) bootstrapEnd (forwardAfter st bootstrap d₀ steps) book settled
        ∧ unitProxyReturns book (step.reads settled) liveUnitProxyCostBps = .ok proxy
        ∧ extendUnitHistory bootstrap (forwardAfter st bootstrap d₀ steps) proxy = .ok history
        ∧ forwardAfter st bootstrap d₀ (steps ++ [step]) = forwardNew bootstrapEnd history := by
  unfold forwardAfter
  rw [stepsAfter_concat]
  generalize stepsAfter st bootstrap steps { d₀ with forward := none } = d
  rcases runStrategySignalStep_extends st step.day (step.given bootstrap) { d with script := step.io } with
    h | ⟨bootstrap', bootstrapEnd, book, settled, proxy, history, hbootstrap, hlast, hreads, hproxy, hhistory, h⟩
  · exact .inl (congrArg (fun forward => Option.getD forward []) h)
  · have hsame : bootstrap' = bootstrap := by
      unfold HistoryStep.given at hbootstrap
      cases hread : step.inputs.bootstrap with
      | error e => rw [hread] at hbootstrap; cases hbootstrap
      | ok _ => rw [hread] at hbootstrap; exact (Except.ok.inj hbootstrap).symm
    subst hsame
    exact .inr ⟨bootstrapEnd, book, settled, proxy, history, hlast, hreads, hproxy, hhistory,
      congrArg (fun forward => Option.getD forward []) h⟩

theorem forwardAfter_contiguous (st : SignalSettings) (bootstrap : UnitSeries) (d₀ : SignalDisk)
    (steps : List HistoryStep) :
    DaysFrom (bootstrapEndOf bootstrap + 1) ((forwardAfter st bootstrap d₀ steps).map Prod.fst) := by
  induction steps using reverseRecOn with
  | nil => exact ⟨0, rfl⟩
  | append_singleton steps step ih =>
    rcases forwardAfter_concat st bootstrap d₀ steps step with
      h | ⟨bootstrapEnd, book, settled, proxy, history, hlast, -, -, hhistory, h⟩
    · rw [h]; exact ih
    · have hend : bootstrapEndOf bootstrap = bootstrapEnd := by rw [bootstrapEndOf, hlast]; rfl
      rw [h, hend]
      rw [hend] at ih
      exact (forwardNew_spec hhistory hlast fun e he => Int.lt_of_add_one_le (ih.le (mem_map_of_mem he))).1

theorem lt_of_mem_forwardAfter {e : ℤ × ℚ} (he : e ∈ forwardAfter st bootstrap d₀ steps) :
    bootstrapEndOf bootstrap < e.1 :=
  Int.lt_of_add_one_le ((forwardAfter_contiguous st bootstrap d₀ steps).le (mem_map_of_mem he))

theorem bootstrapEndOf_eq {bootstrapEnd : ℤ} (h : UnitSeries.lastDay bootstrap = some bootstrapEnd) :
    bootstrapEndOf bootstrap = bootstrapEnd := by rw [bootstrapEndOf, h]; rfl

theorem kept_concat (step : HistoryStep) : ∀ e ∈ forwardAfter st bootstrap d₀ steps,
    e ∈ forwardAfter st bootstrap d₀ (steps ++ [step]) := by
  intro e he
  rcases forwardAfter_concat st bootstrap d₀ steps step with
    h | ⟨bootstrapEnd, book, settled, proxy, history, hlast, -, -, hhistory, h⟩
  · rwa [h]
  · rw [h]
    refine (forwardNew_spec hhistory hlast fun f hf => ?_).2.1 e he
    rw [← bootstrapEndOf_eq hlast]; exact lt_of_mem_forwardAfter hf

theorem forwardAfter_kept {earlier later : List HistoryStep} (h : earlier <+: later) :
    ∀ e ∈ forwardAfter st bootstrap d₀ earlier, e ∈ forwardAfter st bootstrap d₀ later := by
  obtain ⟨more, rfl⟩ := h
  induction more using reverseRecOn with
  | nil => rw [append_nil]; exact fun e he => he
  | append_singleton more step ih =>
    rw [← append_assoc]; exact fun e he => kept_concat step e (ih e he)

theorem added_label {step : HistoryStep} {forward : UnitSeries} {book : LiveStrategyBook} {settled : Dict ℚ}
    {proxy : UnitSeries} {label : ℤ} {v : ℚ}
    (hforward : DaysFrom (bootstrapEndOf bootstrap + 1) (forward.map Prod.fst))
    (hsees : SeesLake bootstrap lake forward step book settled)
    (hproxy : unitProxyReturns book (step.reads settled) liveUnitProxyCostBps = .ok proxy)
    (hmem : (label, v) ∈ proxy)
    (hafter : bootstrapEndOf bootstrap < label) (hnew : label ∉ forward.map Prod.fst) :
    v = lake.unitReturn liveUnitProxyCostBps (label - 2) := by
  obtain ⟨hstart, hscorable, hvalue⟩ := mem_unitProxyReturns hsees.window hproxy hmem
  have hlabel : label - 2 + 2 = label := by omega
  have hshown := hsees.shown (label - 2) hscorable (by omega) (by rwa [hlabel])
  refine proxyValue_eq hshown hvalue ?_
  split
  next hearlier =>
    have hrow : label - 2 - 1 ∈ book.index := by
      obtain ⟨n, hindex⟩ := hsees.window
      obtain ⟨i, hi, hday⟩ := mem_map.mp (hindex ▸ hscorable.row)
      have hi := mem_range.mp hi
      rw [hindex]; exact mem_map.mpr ⟨i - 1, mem_range.mpr (by omega), by omega⟩
    have hprevious := hsees.previous (label - 2) hscorable (by omega) (by rwa [hlabel]) hrow
    rw [show label - 3 = label - 2 - 1 by omega]
    exact turnover_eq_change hshown.weights hprevious
  next hfirst =>
    -- only a window that the bootstrap starts has the new label at its first decision
    have hwindow : label - 2 ≤ panelStart step.day (bootstrapEndOf bootstrap) forward +
      liveSignalWarmupDays := by omega
    unfold panelStart at hwindow
    cases hlast : UnitSeries.lastDay forward with
    | some last =>
      have hlt : last < label := hforward.lt_of_notMem (by omega) hnew hlast
      rw [hlast] at hwindow
      dsimp only at hwindow; omega
    | none =>
      rw [hlast] at hwindow
      dsimp only at hwindow
      have hempty : forward = [] := by
        rw [UnitSeries.lastDay, getLast?_eq_none_iff, map_eq_nil_iff] at hlast; exact hlast
      have hday : label - 2 = bootstrapEndOf bootstrap - 1 := by omega
      rw [hday] at hscorable hshown ⊢
      rw [turnover_eq_gross hshown.weights, hsees.seam hempty (by omega) hscorable]

theorem unit_history_settled (st : SignalSettings) (bootstrap : UnitSeries) (lake : Lake) (d₀ : SignalDisk)
    (steps : List HistoryStep)
    (h : ∀ pre step post, steps = pre ++ step :: post →
      SettledStep bootstrap lake (forwardAfter st bootstrap d₀ pre) step) :
    SettledHistory st bootstrap lake d₀ steps := by
  have hvalued : ∀ earlier, earlier <+: steps → ∀ label v, (label, v) ∈ forwardAfter st bootstrap d₀ earlier →
      v = lake.unitReturn liveUnitProxyCostBps (label - 2) := by
    intro earlier hearlier
    induction earlier using reverseRecOn with
    | nil => exact fun label v hmem => absurd hmem not_mem_nil
    | append_singleton pre step ih =>
      intro label v hmem
      have hpre : pre <+: steps := (prefix_append pre [step]).trans hearlier
      rcases forwardAfter_concat st bootstrap d₀ pre step with
        heq | ⟨bootstrapEnd, book, settled, proxy, history, hlast, hreads, hproxy, hhistory, heq⟩
      · exact ih hpre label v (heq ▸ hmem)
      · rw [heq] at hmem
        have hend := bootstrapEndOf_eq hlast
        rw [← hend] at hreads hmem
        rw [← hend] at hlast
        have hafter : ∀ e ∈ forwardAfter st bootstrap d₀ pre, bootstrapEndOf bootstrap < e.1 :=
          fun e he => lt_of_mem_forwardAfter he
        rcases (forwardNew_spec hhistory hlast hafter).2.2 _ hmem with hold | ⟨hin, hlt, hnew⟩
        · exact ih hpre label v hold
        · obtain ⟨post, hsplit⟩ := hearlier
          rw [append_assoc] at hsplit
          have hsees := h pre step post hsplit.symm book settled hreads
          exact added_label (forwardAfter_contiguous st bootstrap d₀ pre) hsees hproxy hin hlt hnew
  refine ⟨fun _ _ hprefix _ => forwardAfter_kept hprefix, fun earlier _ =>
    forwardAfter_contiguous st bootstrap d₀ earlier,
    hvalued, fun earlier hearlier label v hmem book reads start out v' hstart hlt hshows hprevious hout hin => ?_⟩
  rw [hvalued earlier hearlier label v hmem]
  exact label_eq_unitReturn hstart hlt hshows hprevious hout hin

/-! ### One symbol, held from some day on -/

def halfFrom (start day : ℤ) (s : String) : ℚ := if s = "BTCUSDT" ∧ start ≤ day then 1 / 2 else 0

/-- A lake of one symbol: a constant close, one settlement of zero a day after the bootstrap. -/
def halfLake (start : ℤ) : Lake where
  symbols := ["BTCUSDT"]
  weights := halfFrom start
  closes := fun _ _ => some 100
  funding := fun _ => [(fundingInstant 20000, some 0)]
  settlements := fun _ => none
  symbols_nodup := pairwise_singleton _ _
  weights_eq_zero := fun _ _ hs => if_neg fun h => hs (mem_singleton.mpr h.1)

/-- The book of the window from the day before the end of the bootstrap. -/
def halfBook (start : ℤ) : LiveStrategyBook where
  columns := ["BTCUSDT"]
  index := [19999, 20000, 20001]
  unitWeights := halfFrom start
  snapshotCloses := fun _ _ => some 100
  adv := fun _ _ => some 1000000
  dailySigma := fun _ _ => some (1 / 50)
  columns_ne_nil := cons_ne_nil _ _
  columns_nodup := pairwise_singleton _ _

def firstStep (start : ℤ) : HistoryStep where
  day := 20001
  inputs :=
    { now := 20001 * signalDayNs + 23 * signalHourNs
      census := ["BTCUSDT"]
      bootstrap := .ok []
      ledger := .ok {}
      book := fun _ => .ok (halfBook start)
      unitProxyReturns := fun _ _ => .ok []
      resolveVenue := .ok ("venue_rules_20241003.json", 1)
      chooseExposure := fun _ => .ok (some 2) }
  panelLastBar := snapshotAnchor 20000
  funding := (halfLake start).funding
  io := replicate 4 ⟨1, .done⟩

theorem halfBook_showsWeights (start day : ℤ) : ShowsWeights (halfLake start) (halfBook start) day := by
  intro s
  unfold LiveStrategyBook.weightOf
  split
  next => rfl
  next hs => exact ((halfLake start).weights_eq_zero day s hs).symm

theorem firstStep_shows (start day : ℤ) (settled : Dict ℚ) :
    Shows (halfLake start) (halfBook start) ((firstStep start).reads settled) day where
  weights := halfBook_showsWeights start day
  closes := fun _ _ => ⟨rfl, rfl⟩
  delivered := fun s _ => by
    have hnone : ((firstStep start).reads settled).settlements s = none := by
      show ((settled.lookup s).bind fun _ => none) = none
      cases settled.lookup s <;> rfl
    rw [settledBefore, hnone]; rfl
  funding := fun _ _ => rfl

/-- A book that opens its position on the first decision of the window is charged what it changes.
-/
theorem unit_history_settled_opening : SettledHistory {} [(20000, 1 / 1000)] (halfLake 19999) {}
    [firstStep 19999] := by
  refine unit_history_settled {} [(20000, 1 / 1000)] (halfLake 19999) {} [firstStep 19999] ?_
  intro pre step post hsplit book settled hreads
  obtain ⟨rfl, rfl⟩ : pre = [] ∧ step = firstStep 19999 := by
    cases pre with
    | nil => exact ⟨rfl, (List.cons.inj hsplit).1.symm⟩
    | cons x xs => simp at hsplit
  obtain rfl : halfBook 19999 = book := Except.ok.inj hreads.built
  exact
    { window := ⟨3, by decide +kernel⟩
      shown := fun day _ _ _ => firstStep_shows 19999 day settled
      previous := fun day _ _ _ _ => halfBook_showsWeights 19999 (day - 1)
      seam := fun _ _ _ => by decide +kernel }

/-- A step that sees the lake as it is records the first label after the bootstrap as if its
position were opened that day; it was held before, and nothing changed. -/
theorem first_label_charged_whole :
    (∀ day settled, Shows (halfLake 19900) (halfBook 19900) ((firstStep 19900).reads settled) day)
      ∧ forwardAfter {} [(20000, 1 / 1000)] {} [firstStep 19900] = [(20001, -1 / 10000)]
      ∧ (halfLake 19900).unitReturn liveUnitProxyCostBps 19999 = 0
      ∧ ¬ SettledHistory {} [(20000, 1 / 1000)] (halfLake 19900) {} [firstStep 19900] := by
  have hrecorded : forwardAfter {} [(20000, 1 / 1000)] {} [firstStep 19900] =
    [(20001, -1 / 10000)] := by decide +kernel
  have hworth : (halfLake 19900).unitReturn liveUnitProxyCostBps 19999 = 0 := by decide +kernel
  refine ⟨fun day settled => firstStep_shows 19900 day settled, hrecorded, hworth, fun h => ?_⟩
  have hvalue := h.valued [firstStep 19900] prefix_rfl 20001 (-1 / 10000)
    (by rw [hrecorded]; exact mem_singleton_self _)
  rw [show (20001 : ℤ) - 2 = 19999 by norm_num, hworth] at hvalue
  norm_num at hvalue

end CryptoPilot.Live
