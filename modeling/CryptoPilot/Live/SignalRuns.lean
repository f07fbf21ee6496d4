/- # SignalRuns — retrying the decision of one day.

A day is decided by a sequence of calls, each of which may die or fail at any of its durable writes.
Once a call has returned, both or neither of the two weights files should have a row of the day, of
one call. -/
import Mathlib.Data.List.Induction
import CryptoPilot.Live.SignalStep

namespace CryptoPilot.Live

open CryptoPilot.Lib List Except

structure SignalCall where
  inputs : SignalInputs
  io : List IoStep

section Runs

variable (st : SignalSettings) (day : ℤ)

def SignalCall.entry (c : SignalCall) (d : SignalDisk) : SignalDisk := { d with script := c.io }

def SignalCall.outcome (c : SignalCall) (d : SignalDisk) : Except SignalExc StrategyStepReport :=
  (runStrategySignalStep st day c.inputs (c.entry d)).1

def SignalCall.after (c : SignalCall) (d : SignalDisk) : SignalDisk :=
  (runStrategySignalStep st day c.inputs (c.entry d)).2

def SignalDisk.calls (d : SignalDisk) (cs : List SignalCall) : SignalDisk :=
  cs.foldl (fun d c => c.after st day d) d

def Returned (d₀ : SignalDisk) (cs : List SignalCall) : Prop :=
  ∃ pre c post, cs = pre ++ c :: post ∧ (c.outcome st day (d₀.calls st day pre)).isOk = true

/-- The call sizes the day as `p`. -/
def SignalCall.Sizes (c : SignalCall) (d : SignalDisk) (p : Sized) : Prop :=
  (prepare st day c.inputs (c.entry d)).1 = .ok p

def ShowsRow (name : ArtifactName) (d : SignalDisk) (row : Dict ℚ) : Prop :=
  ∀ r, HasRow st.artifacts (d.artifact name) day r ↔ r = row

/-- **The decision artifacts are whole**: both files show a row of the day or neither does, and then
one call computed both, the closes covering every symbol with a weight or a position. -/
def DecisionWhole (d₀ : SignalDisk) (cs : List SignalCall) : Prop :=
  ((∃ r, HasRow st.artifacts ((d₀.calls st day cs).artifact .weights) day r) ↔
    ∃ r, HasRow st.artifacts ((d₀.calls st day cs).artifact .closes) day r) ∧
  ((∃ r, HasRow st.artifacts ((d₀.calls st day cs).artifact .weights) day r) →
    ∃ pre c post p prior, cs = pre ++ c :: post ∧ c.Sizes st day (d₀.calls st day pre) p ∧ p.Covers ∧
      ShowsRow st day .weights (d₀.calls st day cs) (p.leveredRow prior) ∧
      ShowsRow st day .closes (d₀.calls st day cs) p.sizingDict)

/-- No call that puts the first weight row of the day to disk stops before the decision closes. -/
def Uncut (d₀ : SignalDisk) (cs : List SignalCall) : Prop :=
  ∀ pre c post, cs = pre ++ c :: post →
    Fresh st.artifacts ((d₀.calls st day pre).artifact .weights) day →
    (∃ p, c.Sizes st day (d₀.calls st day pre) p) →
    WeightsLand st.artifacts (c.entry (d₀.calls st day pre)) →
    ClosesFollow st.artifacts day (c.entry (d₀.calls st day pre))

variable {st day} {d₀ : SignalDisk} {cs pre : List SignalCall} {c : SignalCall}

theorem SignalDisk.calls_concat : d₀.calls st day (pre ++ [c]) = c.after st day (d₀.calls st day pre) := by
  simp [SignalDisk.calls]

theorem split_concat {α : Type} {pre : List α} {c : α} {p post : List α} {x : α} (h : pre ++ [c] = p ++ x :: post) :
    (p = pre ∧ x = c ∧ post = []) ∨ ∃ post', pre = p ++ x :: post' := by
  rcases eq_nil_or_concat post with rfl | ⟨post', y, rfl⟩
  · obtain ⟨hp, hx⟩ := append_inj' h rfl; exact Or.inl ⟨hp.symm, (List.cons.inj hx).1.symm, rfl⟩
  · refine Or.inr ⟨post', ?_⟩
    rw [concat_eq_append, ← cons_append, ← append_assoc] at h; exact (append_inj' h rfl).1

theorem uncut_concat : Uncut st day d₀ (pre ++ [c]) ↔ Uncut st day d₀ pre ∧
    (Fresh st.artifacts ((d₀.calls st day pre).artifact .weights) day →
      (∃ p, c.Sizes st day (d₀.calls st day pre) p) →
      WeightsLand st.artifacts (c.entry (d₀.calls st day pre)) →
      ClosesFollow st.artifacts day (c.entry (d₀.calls st day pre))) := by
  constructor
  · refine fun h => ⟨fun p x post hsplit => h p x (post ++ [c]) ?_, h pre c [] rfl⟩
    rw [hsplit]; simp
  · rintro ⟨hpre, hlast⟩ p x post hsplit
    rcases split_concat hsplit with ⟨rfl, rfl, rfl⟩ | ⟨post', rfl⟩
    · exact hlast
    · exact hpre p x post' rfl

theorem returned_concat : Returned st day d₀ (pre ++ [c]) ↔ Returned st day d₀ pre ∨
    (c.outcome st day (d₀.calls st day pre)).isOk = true := by
  constructor
  · rintro ⟨p, x, post, hsplit, hret⟩
    rcases split_concat hsplit with ⟨rfl, rfl, rfl⟩ | ⟨post', rfl⟩
    · exact Or.inr hret
    · exact Or.inl ⟨p, x, post', rfl, hret⟩
  · rintro (⟨p, x, post, rfl, hret⟩ | hret)
    · exact ⟨p, x, post ++ [c], by simp, hret⟩
    · exact ⟨pre, c, [], rfl, hret⟩

theorem not_returned_nil : ¬ Returned st day d₀ [] := by
  rintro ⟨p, x, post, h, -⟩; simp at h

theorem uncut_nil : Uncut st day d₀ [] := by
  intro p x post h; simp at h

theorem call_effect (st : SignalSettings) (day : ℤ) (c : SignalCall) (d : SignalDisk) :
    StepEffect st.artifacts day (c.Sizes st day d) (c.entry d) (c.after st day d)
      (c.outcome st day d).isOk :=
  runStrategySignalStep_effect st day c.inputs (c.entry d)

@[simp] theorem SignalCall.entry_artifact (c : SignalCall) (d : SignalDisk) : (c.entry d).artifact = d.artifact :=
  rfl

variable {f : WeightsFrame} {a a' : Artifact} {columns : List String} {row : Dict ℚ}

theorem Fresh.not_has {a : Artifact} {st : ArtifactSettings} (h : Fresh st a day)
    (hload : loadWeightsFrame st a = .ok f) : ¬ f.Has day := fun hhas => h.index hload hhas.2

section

variable {st : ArtifactSettings} (h : Appended st day columns row a a')
  (hkey : st.enc = true → st.key = true)

include h hkey

theorem Appended.shows (hroom : Room st a day) :
    ∀ r, HasRow st a' day r ↔ r = row := by
  obtain ⟨f, hload, hnew, rfl⟩ := h
  exact fun r => hasRow_write hkey hload (WeightsFrame.index_of_new hnew) hroom

theorem Appended.has (hroom : Room st a day) (hcolumns : columns ≠ []) :
    ∃ g, loadWeightsFrame st a' = .ok g ∧ g.Has day := by
  obtain ⟨f, hload, hnew, rfl⟩ := h; exact has_write hkey hload hnew hroom hcolumns

theorem Appended.fresh (hfresh : Fresh st a day) (hroom : ¬ Room st a day) :
    Fresh st a' day ∧ ¬ Room st a' day := by
  obtain ⟨f, hload, hnew, rfl⟩ := h; exact fresh_write hkey hload hfresh hroom

end

theorem Sized.leveredColumns_ne_nil {p : Sized} (h : p.census ≠ []) (prior : List String) :
    p.leveredColumns prior ≠ [] := by
  obtain ⟨s, hs⟩ := exists_mem_of_ne_nil _ h
  refine ne_nil_of_mem (a := s) ?_
  rw [Sized.leveredColumns, mem_insertionSort, mem_dedup]; exact mem_append_right _ hs

/-! ## Room in both files -/

/-- Where a sequence of calls stands when both files have room for the day. -/
inductive DecisionPhase (st : SignalSettings) (day : ℤ) (d₀ : SignalDisk) (cs : List SignalCall) : Prop
  /-- no weights file was replaced yet -/
  | pending (same : (d₀.calls st day cs).artifact = d₀.artifact) (uncut : Uncut st day d₀ cs)
      (none : ¬ Returned st day d₀ cs)
  /-- both rows are there, of one call -/
  | whole (uncut : Uncut st day d₀ cs)
      (has : ∃ f, loadWeightsFrame st.artifacts ((d₀.calls st day cs).artifact .weights) = .ok f ∧ f.Has day)
      (rows : ∃ pre c post p prior, cs = pre ++ c :: post ∧ c.Sizes st day (d₀.calls st day pre) p ∧
        p.Covers ∧ ShowsRow st day .weights (d₀.calls st day cs) (p.leveredRow prior) ∧
        ShowsRow st day .closes (d₀.calls st day cs) p.sizingDict)
  /-- the weight row is there without the decision closes -/
  | torn (cut : ¬ Uncut st day d₀ cs)
      (has : ∃ f, loadWeightsFrame st.artifacts ((d₀.calls st day cs).artifact .weights) = .ok f ∧ f.Has day)
      (closes : Fresh st.artifacts ((d₀.calls st day cs).artifact .closes) day)

theorem StepEffect.same_of_has {st : ArtifactSettings} {sizes : Sized → Prop} {d d' : SignalDisk}
    {returned : Bool} (h : StepEffect st day sizes d d' returned)
    (hload : loadWeightsFrame st (d.artifact .weights) = .ok f) (hhas : f.Has day) : d'.artifact = d.artifact := by
  cases h with
  | untouched same _ | already same _ _ => exact same
  | torn _ _ _ _ weights _ | published _ _ _ _ _ weights _ =>
    obtain ⟨g, hg, hnew, -⟩ := weights
    rw [hload] at hg; exact absurd (ok.inj hg ▸ hhas) hnew

theorem hasRow_of_has {st : ArtifactSettings} {a : Artifact}
    (hload : loadWeightsFrame st a = .ok f) (hhas : f.Has day) : ∃ r, HasRow st a day r := by
  obtain ⟨⟨d, r⟩, hp, hd⟩ := mem_map.mp hhas.2; exact ⟨r, f, hload, hd ▸ hp⟩

theorem uncut_concat_of_has
    (hload : loadWeightsFrame st.artifacts ((d₀.calls st day pre).artifact .weights) = .ok f)
    (hhas : f.Has day) : Uncut st day d₀ (pre ++ [c]) ↔ Uncut st day d₀ pre := by
  rw [uncut_concat]
  refine and_iff_left fun hfresh => ?_
  obtain ⟨r, hr⟩ := hasRow_of_has hload hhas; exact absurd hr (hfresh r)

section

variable (hweights : Fresh st.artifacts (d₀.artifact .weights) day)
  (hcloses : Fresh st.artifacts (d₀.artifact .closes) day)
  (hroomWeights : Room st.artifacts (d₀.artifact .weights) day)
  (hroomCloses : Room st.artifacts (d₀.artifact .closes) day)

include hweights hcloses hroomWeights hroomCloses

theorem DecisionPhase.concat (h : DecisionPhase st day d₀ pre) : DecisionPhase st day d₀ (pre ++ [c]) := by
  have heffect := call_effect st day c (d₀.calls st day pre)
  cases h with
  | pending same uncut none =>
    have hw : (d₀.calls st day pre).artifact .weights = d₀.artifact .weights := congrFun same _
    have hc : (d₀.calls st day pre).artifact .closes = d₀.artifact .closes := congrFun same _
    generalize hret : (c.outcome st day (d₀.calls st day pre)).isOk = returned at heffect
    cases heffect with
    | untouched hsame hended =>
      refine .pending (by rw [SignalDisk.calls_concat, hsame, SignalCall.entry_artifact, same]) ?_ ?_
      · refine uncut_concat.mpr ⟨uncut, fun hfresh ⟨p, hp⟩ hlands => ?_⟩
        rcases hended p hp with hnot | ⟨f, hf, hhas⟩
        · exact absurd hlands hnot
        · exact absurd hhas (hfresh.not_has hf)
      · rw [returned_concat, hret]; simpa using none
    | already hsame hload hhas =>
      rw [SignalCall.entry_artifact, hw] at hload; exact absurd hhas (hweights.not_has hload)
    | @torn p prior hsized hcensus hlands hcut happend hsameCloses =>
      rw [SignalCall.entry_artifact, hw] at happend
      rw [SignalCall.entry_artifact, hc] at hsameCloses
      -- the weights row stands without its closes row
      refine .torn (fun huncut => hcut ?_) ?_ ?_
      · exact (uncut_concat.mp huncut).2 (hw ▸ hweights) ⟨p, hsized⟩ hlands
      · rw [SignalDisk.calls_concat]
        exact happend.has hlands.1 hroomWeights (Sized.leveredColumns_ne_nil hcensus prior)
      · rw [SignalDisk.calls_concat, hsameCloses]; exact hcloses
    | @published p prior _ hsized hcensus hcovers hlands hfollow happend hrow =>
      rw [SignalCall.entry_artifact, hw] at happend
      rw [SignalCall.entry_artifact, hc] at hrow
      refine .whole (uncut_concat.mpr ⟨uncut, fun _ _ _ => hfollow⟩) ?_ ?_
      · rw [SignalDisk.calls_concat]
        exact happend.has hlands.1 hroomWeights (Sized.leveredColumns_ne_nil hcensus prior)
      · refine ⟨pre, c, [], p, prior, rfl, hsized, hcovers, ?_, ?_⟩
        · rw [SignalDisk.calls_concat]; exact happend.shows hlands.1 hroomWeights
        · rw [SignalDisk.calls_concat]
          rcases hrow with hrow | ⟨⟨g, hg, hhas⟩, -⟩
          · exact hrow.shows hlands.1 hroomCloses
          · exact absurd hhas (hcloses.not_has hg)
  | whole uncut has rows =>
    obtain ⟨f, hf, hhas⟩ := has
    -- a row that stands is never written again
    have hsame : (d₀.calls st day (pre ++ [c])).artifact = (d₀.calls st day pre).artifact := by
      rw [SignalDisk.calls_concat]; exact heffect.same_of_has hf hhas
    obtain ⟨p₀, c₀, post, p, prior, hsplit, hsized, hcovers, hshowW, hshowC⟩ := rows
    refine .whole ((uncut_concat_of_has hf hhas).mpr uncut) ⟨f, by rw [hsame]; exact hf, hhas⟩
      ⟨p₀, c₀, post ++ [c], p, prior, by simp [hsplit], hsized, hcovers, ?_, ?_⟩
    · unfold ShowsRow
      rw [hsame]; exact hshowW
    · unfold ShowsRow
      rw [hsame]; exact hshowC
  | torn cut has closes =>
    obtain ⟨f, hf, hhas⟩ := has
    have hsame : (d₀.calls st day (pre ++ [c])).artifact = (d₀.calls st day pre).artifact := by
      rw [SignalDisk.calls_concat]; exact heffect.same_of_has hf hhas
    refine .torn (fun h => cut ((uncut_concat_of_has hf hhas).mp h)) ⟨f, by rw [hsame]; exact hf, hhas⟩ ?_
    rw [hsame]; exact closes

theorem phase_of_calls (cs : List SignalCall) : DecisionPhase st day d₀ cs := by
  induction cs using reverseRecOn with
  | nil => exact .pending rfl uncut_nil not_returned_nil
  | append_singleton pre c ih => exact ih.concat hweights hcloses hroomWeights hroomCloses

theorem whole_iff_uncut (hret : Returned st day d₀ cs) : DecisionWhole st day d₀ cs ↔ Uncut st day d₀ cs := by
  cases phase_of_calls hweights hcloses hroomWeights hroomCloses cs with
  | pending _ _ none => exact absurd hret none
  | whole uncut has rows =>
    refine iff_of_true ⟨?_, fun _ => rows⟩ uncut
    obtain ⟨pre, c, post, p, prior, -, -, -, hshowW, hshowC⟩ := rows
    exact iff_of_true ⟨_, (hshowW _).mpr rfl⟩ ⟨_, (hshowC _).mpr rfl⟩
  | torn cut has closes =>
    obtain ⟨f, hf, hhas⟩ := has
    refine iff_of_false (fun hwhole => ?_) cut
    obtain ⟨r, hr⟩ := hwhole.1.mp (hasRow_of_has hf hhas); exact closes r hr

end

/-! ## No room in one of the files -/

structure NoRoom (st : SignalSettings) (day : ℤ) (name : ArtifactName) (d : SignalDisk) : Prop where
  fresh : Fresh st.artifacts (d.artifact name) day
  full : ¬ Room st.artifacts (d.artifact name) day

theorem NoRoom.concat {name : ArtifactName} (h : NoRoom st day name (d₀.calls st day pre)) :
    NoRoom st day name (d₀.calls st day (pre ++ [c])) := by
  have heffect := call_effect st day c (d₀.calls st day pre)
  obtain ⟨hfresh, hfull⟩ := h
  rw [← SignalDisk.calls_concat] at heffect
  have hsame : (d₀.calls st day (pre ++ [c])).artifact name = (d₀.calls st day pre).artifact name →
      NoRoom st day name (d₀.calls st day (pre ++ [c])) := by
    intro heq; exact ⟨by rw [heq]; exact hfresh, by rw [heq]; exact hfull⟩
  have happended : ∀ {columns row}, (st.artifacts.enc = true → st.artifacts.key = true) →
      Appended st.artifacts day columns row ((d₀.calls st day pre).artifact name)
        ((d₀.calls st day (pre ++ [c])).artifact name) →
      NoRoom st day name (d₀.calls st day (pre ++ [c])) := by
    intro columns row hkey happend
    obtain ⟨hfresh, hfull⟩ := happend.fresh hkey hfresh hfull; exact ⟨hfresh, hfull⟩
  generalize (c.outcome st day (d₀.calls st day pre)).isOk = returned at heffect
  cases heffect with
  | untouched same _ | already same _ _ => exact hsame (congrFun same _)
  | torn _ _ hlands _ happend sameCloses =>
    cases name with
    | weights => exact happended hlands.1 happend
    | closes => exact hsame sameCloses
  | published _ _ _ hlands _ happend hrow =>
    cases name with
    | weights => exact happended hlands.1 happend
    | closes =>
      rcases hrow with hrow | ⟨-, sameCloses⟩
      · exact happended hlands.1 hrow
      · exact hsame sameCloses

theorem noRoom_of_calls {name : ArtifactName} (h : NoRoom st day name d₀) (cs : List SignalCall) :
    NoRoom st day name (d₀.calls st day cs) := by
  induction cs using reverseRecOn with
  | nil => exact h
  | append_singleton pre c ih => exact ih.concat

theorem Appended.hasRow_again {row r : Dict ℚ}
    {st : ArtifactSettings} (h : Appended st day columns row a a') (hkey : st.enc = true → st.key = true)
    (hshadow : ¬ a.shadowed st) (hrow : HasRow st a day r) : ¬ a'.shadowed st ∧ ∃ r', HasRow st a' day r' := by
  obtain ⟨f, hload, hnew, rfl⟩ := h
  refine ⟨fun h => hshadow (shadowed_write.mp h), row, ?_⟩
  obtain ⟨g, hg, hmem⟩ := hrow
  rw [hload] at hg
  cases ok.inj hg
  -- a frame that shows the day and is asked again has no columns, so the append replaces it
  have hempty : f.empty = true := by
    by_contra hne; exact hnew ⟨by simpa using hne, mem_map.mpr ⟨(day, r), hmem, rfl⟩⟩
  have hroom : Room st a day := by
    refine ⟨hshadow, fun g hg => ?_⟩
    rw [hload] at hg
    cases ok.inj hg
    rw [WeightsFrame.laterRows, if_pos hempty]; decide
  exact (hasRow_write hkey hload (Or.inl hempty) hroom).mpr rfl

/-- Without room for the weight row, the decision closes stand alone once a call has returned. -/
def ClosesAlone (st : SignalSettings) (day : ℤ) (d₀ : SignalDisk) (cs : List SignalCall) : Prop :=
  ((d₀.calls st day cs).artifact .closes = d₀.artifact .closes ∧ ¬ Returned st day d₀ cs) ∨
    (¬ ((d₀.calls st day cs).artifact .closes).shadowed st.artifacts ∧
      ∃ r, HasRow st.artifacts ((d₀.calls st day cs).artifact .closes) day r)

section

variable (hcloses : Fresh st.artifacts (d₀.artifact .closes) day)
  (hroom : Room st.artifacts (d₀.artifact .closes) day)

include hcloses hroom

theorem ClosesAlone.concat (hweights : Fresh st.artifacts ((d₀.calls st day pre).artifact .weights) day)
    (h : ClosesAlone st day d₀ pre) : ClosesAlone st day d₀ (pre ++ [c]) := by
  have heffect := call_effect st day c (d₀.calls st day pre)
  generalize hret : (c.outcome st day (d₀.calls st day pre)).isOk = returned at heffect
  rw [← SignalDisk.calls_concat] at heffect
  -- a call that leaves the decision closes alone and does not return
  have hsame : returned = false →
      (d₀.calls st day (pre ++ [c])).artifact .closes = (d₀.calls st day pre).artifact .closes →
      ClosesAlone st day d₀ (pre ++ [c]) := by
    intro hfalse heq
    unfold ClosesAlone
    rw [heq, returned_concat, hret, hfalse]; exact h.imp (fun h => ⟨h.1, by simpa using h.2⟩) id
  cases heffect with
  | untouched same _ => exact hsame rfl (congrFun same _)
  | already _ hload hhas => exact absurd hhas (hweights.not_has hload)
  | torn _ _ _ _ _ sameCloses => exact hsame rfl sameCloses
  | published _ _ _ hlands _ _ hrow =>
    refine Or.inr ?_
    rcases h with ⟨hfirst, -⟩ | ⟨hshadow, r, hr⟩
    · rw [SignalCall.entry_artifact, hfirst] at hrow
      rcases hrow with hrow | ⟨⟨g, hg, hhas⟩, -⟩
      · refine ⟨?_, _, (hrow.shows hlands.1 hroom _).mpr rfl⟩
        obtain ⟨f, -, -, hwrite⟩ := hrow
        rw [hwrite]; exact fun h => hroom.1 (shadowed_write.mp h)
      · exact absurd hhas (hcloses.not_has hg)
    · rcases hrow with hrow | ⟨-, sameCloses⟩
      · exact hrow.hasRow_again hlands.1 hshadow hr
      · rw [sameCloses]; exact ⟨hshadow, r, hr⟩

theorem closesAlone_of_calls (hweights : NoRoom st day .weights d₀)
    (cs : List SignalCall) : ClosesAlone st day d₀ cs := by
  induction cs using reverseRecOn with
  | nil => exact Or.inl ⟨rfl, not_returned_nil⟩
  | append_singleton pre c ih => exact ih.concat hcloses hroom (noRoom_of_calls hweights pre).fresh

end

/-- With room for the weight row, it is there once a call has returned. -/
def WeightsThere (st : SignalSettings) (day : ℤ) (d₀ : SignalDisk) (cs : List SignalCall) : Prop :=
  ((d₀.calls st day cs).artifact .weights = d₀.artifact .weights ∧ ¬ Returned st day d₀ cs) ∨
    ∃ f, loadWeightsFrame st.artifacts ((d₀.calls st day cs).artifact .weights) = .ok f ∧ f.Has day

section

variable (hweights : Fresh st.artifacts (d₀.artifact .weights) day)
  (hroom : Room st.artifacts (d₀.artifact .weights) day)

include hweights hroom

theorem WeightsThere.concat (h : WeightsThere st day d₀ pre) : WeightsThere st day d₀ (pre ++ [c]) := by
  have heffect := call_effect st day c (d₀.calls st day pre)
  generalize hret : (c.outcome st day (d₀.calls st day pre)).isOk = returned at heffect
  rw [← SignalDisk.calls_concat] at heffect
  rcases h with ⟨hfirst, hnone⟩ | ⟨f, hf, hhas⟩
  · cases heffect with
    | untouched same _ =>
      refine Or.inl ⟨by rw [same, SignalCall.entry_artifact, hfirst], ?_⟩
      rw [returned_concat, hret]; simpa using hnone
    | already _ hload hhas =>
      rw [SignalCall.entry_artifact, hfirst] at hload; exact absurd hhas (hweights.not_has hload)
    | torn _ hcensus hlands _ happend _ | published _ hcensus _ hlands _ happend _ =>
      rw [SignalCall.entry_artifact, hfirst] at happend
      exact Or.inr (happend.has hlands.1 hroom (Sized.leveredColumns_ne_nil hcensus _))
  · exact Or.inr ⟨f, by rw [heffect.same_of_has hf hhas]; exact hf, hhas⟩

theorem weightsThere_of_calls (cs : List SignalCall) : WeightsThere st day d₀ cs := by
  induction cs using reverseRecOn with
  | nil => exact Or.inl ⟨rfl, not_returned_nil⟩
  | append_singleton pre c ih => exact ih.concat hweights hroom

end

end Runs

/-! ## Whole decisions -/

/-- **Once a call has returned, the decision artifacts of the day are whole if and only if** neither
file has room for the day, or both have and no call that puts the weight row to disk is cut off
before the decision closes. -/
theorem decision_artifacts_whole_iff (st : SignalSettings) (day : ℤ) (d₀ : SignalDisk) (cs : List SignalCall)
    (hweights : Fresh st.artifacts (d₀.artifact .weights) day)
    (hcloses : Fresh st.artifacts (d₀.artifact .closes) day) (hret : Returned st day d₀ cs) :
    DecisionWhole st day d₀ cs ↔
      (Room st.artifacts (d₀.artifact .weights) day ∧ Room st.artifacts (d₀.artifact .closes) day ∧
        Uncut st day d₀ cs) ∨
      (¬ Room st.artifacts (d₀.artifact .weights) day ∧ ¬ Room st.artifacts (d₀.artifact .closes) day) := by
  by_cases hroomW : Room st.artifacts (d₀.artifact .weights) day
  · by_cases hroomC : Room st.artifacts (d₀.artifact .closes) day
    · rw [whole_iff_uncut hweights hcloses hroomW hroomC hret]; simp [hroomW, hroomC]
    · -- the weight row stays, the sizing row is truncated away or hidden
      refine iff_of_false (fun hwhole => ?_) (by simp [hroomW, hroomC])
      rcases weightsThere_of_calls hweights hroomW cs with ⟨-, hnone⟩ | ⟨f, hf, hhas⟩
      · exact hnone hret
      · obtain ⟨r, hr⟩ := hwhole.1.mp (hasRow_of_has hf hhas)
        exact (noRoom_of_calls ⟨hcloses, hroomC⟩ cs).fresh r hr
  · have hnoWeights : NoRoom st day .weights (d₀.calls st day cs) := noRoom_of_calls ⟨hweights, hroomW⟩ cs
    by_cases hroomC : Room st.artifacts (d₀.artifact .closes) day
    · refine iff_of_false (fun hwhole => ?_) (by simp [hroomW, hroomC])
      rcases closesAlone_of_calls hcloses hroomC ⟨hweights, hroomW⟩ cs with ⟨-, hnone⟩ | ⟨-, hrow⟩
      · exact hnone hret
      · obtain ⟨r, hr⟩ := hwhole.1.mpr hrow; exact hnoWeights.fresh r hr
    · refine iff_of_true ⟨?_, fun ⟨r, hr⟩ => absurd hr (hnoWeights.fresh r)⟩ (Or.inr ⟨hroomW, hroomC⟩)
      exact iff_of_false (fun ⟨r, hr⟩ => hnoWeights.fresh r hr)
        fun ⟨r, hr⟩ => (noRoom_of_calls ⟨hcloses, hroomC⟩ cs).fresh r hr

/-! ### A decision that is torn, and one that is not -/

def Artifact.showsDay (st : ArtifactSettings) (a : Artifact) (day : ℤ) : Bool :=
  match loadWeightsFrame st a with
  | .ok f => decide (day ∈ f.index)
  | .error _ => false

theorem Artifact.showsDay_iff {st : ArtifactSettings} {a : Artifact} {day : ℤ} :
    a.showsDay st day = true ↔ ∃ r, HasRow st a day r := by
  unfold Artifact.showsDay HasRow
  cases loadWeightsFrame st a with
  | error e => simp
  | ok f =>
    simp only [decide_eq_true_eq, WeightsFrame.index, mem_map, ok.injEq, exists_eq_left']
    exact ⟨fun ⟨p, hp, hd⟩ => ⟨p.2, hd ▸ hp⟩, fun ⟨r, hr⟩ => ⟨(day, r), hr, rfl⟩⟩

theorem fresh_empty (st : ArtifactSettings) (day : ℤ) : Fresh st {} day := by
  rintro r ⟨f, hf, hmem⟩
  have hload : loadWeightsFrame st {} = .ok {} := by
    unfold loadWeightsFrame Artifact.candidate
    cases st.key <;> rfl
  rw [hload] at hf; cases ok.inj hf; cases hmem

theorem room_empty (st : ArtifactSettings) (day : ℤ) : Room st {} day := by
  refine ⟨fun h => by simpa using h.2.2, fun f hf => ?_⟩
  have hload : loadWeightsFrame st {} = .ok {} := by
    unfold loadWeightsFrame Artifact.candidate
    cases st.key <;> rfl
  rw [hload] at hf; cases ok.inj hf; simp [WeightsFrame.laterRows, WeightsFrame.empty, keepRows]

def oneSymbolBook : LiveStrategyBook where
  columns := ["BTCUSDT"]
  index := [20000]
  unitWeights := fun _ _ => 1 / 2
  snapshotCloses := fun _ _ => some 100
  adv := fun _ _ => some 1000000
  dailySigma := fun _ _ => some (1 / 50)
  columns_ne_nil := by simp
  columns_nodup := by simp

def oneSymbolInputs : SignalInputs where
  now := 20000 * signalDayNs + 23 * signalHourNs
  census := ["BTCUSDT"]
  bootstrap := .ok [(20000, 1 / 1000)]
  ledger := .ok {}
  book := fun _ => .ok oneSymbolBook
  unitProxyReturns := fun _ _ => .ok [(20001, 1 / 500)]
  resolveVenue := .ok ("venue_rules_20241003.json", 1)
  chooseExposure := fun _ => .ok (some 2)

def cleanCall : SignalCall := ⟨oneSymbolInputs, replicate 4 ⟨1, .done⟩⟩

def dyingCall : SignalCall := ⟨oneSymbolInputs, [⟨1, .done⟩, ⟨1, .killed⟩]⟩

theorem returned_of_last {st : SignalSettings} {day : ℤ} {d₀ : SignalDisk} (pre : List SignalCall)
    {c : SignalCall} (h : (c.outcome st day (d₀.calls st day pre)).isOk = true) :
    Returned st day d₀ (pre ++ [c]) := ⟨pre, c, [], rfl, h⟩

theorem decision_artifacts_whole_iff_clean : DecisionWhole {} 20000 {} [cleanCall] := by
  refine (decision_artifacts_whole_iff {} 20000 {} [cleanCall] (fresh_empty _ _) (fresh_empty _ _)
    (returned_of_last [] (by decide +kernel))).mpr (Or.inl ⟨room_empty _ _, room_empty _ _, ?_⟩)
  rintro pre c post hsplit - - -
  obtain ⟨rfl, hcons⟩ : pre = [] ∧ [cleanCall] = c :: post := by
    cases pre with
    | nil => exact ⟨rfl, hsplit⟩
    | cons x xs => simp at hsplit
  obtain ⟨rfl, rfl⟩ := List.cons.inj hcons
  exact ⟨rfl, ⟨⟨1, .done⟩, rfl, rfl⟩, {}, rfl, Or.inr ⟨⟨1, .done⟩, rfl, Or.inl rfl⟩⟩

/-- A call dies between the weight row and the decision closes; its retry returns, says that the day
is already written, and leaves the decision closes without a row. -/
theorem torn_decision_reported_as_written :
    Returned {} 20000 {} [dyingCall, cleanCall] ∧
      ((cleanCall.outcome {} 20000 (SignalDisk.calls {} 20000 {} [dyingCall])).toOption.map
        StrategyStepReport.written) = some false ∧
      ¬ DecisionWhole {} 20000 {} [dyingCall, cleanCall] := by
  refine ⟨returned_of_last [dyingCall] (by decide +kernel), by decide +kernel, fun hwhole => ?_⟩
  have hweights : (((SignalDisk.calls {} 20000 {} [dyingCall, cleanCall]).artifact .weights).showsDay {} 20000)
      = true := by decide +kernel
  have hcloses : (((SignalDisk.calls {} 20000 {} [dyingCall, cleanCall]).artifact .closes).showsDay {} 20000)
      = false := by decide +kernel
  have hshown := Artifact.showsDay_iff.mpr (hwhole.1.mp (Artifact.showsDay_iff.mp hweights))
  exact Bool.false_ne_true (hcloses.symm.trans hshown)

end CryptoPilot.Live
