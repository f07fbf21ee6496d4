/- # CryptoPilot.Backtests.RetentionPlan — what `plan_retention` promises and `apply_retention`
leaves.

The plan takes the unprotected bundles by their oldest finalization until its estimate is within the
budget.  A run is off the estimate as soon as one of its bundles is planned, and a bundle that a
protected run refers to without managing it is planned but not reclaimed, so the estimate can be too
low (`plan_kept_iff`). -/
import Mathlib.Algebra.Order.BigOperators.Group.Finset
import Mathlib.Data.Prod.Lex
import Mathlib.Data.String.Basic
import CryptoPilot.Lib.Timeline
import CryptoPilot.Backtests.Retention

namespace CryptoPilot.Backtests

open CryptoPilot.Lib List

structure RetentionPolicy where
  maxDetailBytes : Option ℕ
  maxDetailRuns : Option ℕ

structure RetentionPlan where
  evidenceIds : List String
  reclaimableBytes : ℕ
  protectedBytes : ℕ
  budgetSatisfied : Bool

/-- `_within_budget`. -/
def RetentionPolicy.within (policy : RetentionPolicy) (remainingBytes remainingRuns : ℕ) : Bool :=
  if policy.maxDetailBytes.any (· < remainingBytes) then false
  else !policy.maxDetailRuns.any (· < remainingRuns)

variable {policy : RetentionPolicy}

theorem RetentionPolicy.within_iff {b r : ℕ} :
    policy.within b r = true ↔ (∀ n ∈ policy.maxDetailBytes, b ≤ n) ∧ ∀ n ∈ policy.maxDetailRuns, r ≤ n := by
  unfold within
  cases policy.maxDetailBytes <;> cases policy.maxDetailRuns <;> simp

theorem RetentionPolicy.within_mono {b b' r r' : ℕ} (hb : b ≤ b') (hr : r ≤ r')
    (h : policy.within b' r' = true) : policy.within b r = true := by
  rw [within_iff] at h ⊢; exact ⟨fun n hn => hb.trans (h.1 n hn), fun n hn => hr.trans (h.2 n hn)⟩

section Plan

variable (reg : Registry) (bundles : String → Bundle) (policy : RetentionPolicy)

/-! ## `_bundle_snapshots` -/

/-- The rows of the managed and retained details: bundle, run and size. -/
def Registry.detailRows : List (String × String × ℕ) :=
  reg.artifacts.filterMap fun a =>
    if a.managed && a.retained then a.evidenceId.map fun key => (key, a.runId, a.byteCount) else none

def Registry.evidenceIds : List String := (reg.detailRows.map Prod.fst).dedup

def Registry.members (key : String) : Finset String :=
  ((reg.detailRows.filter fun row => row.1 = key).map fun row => row.2.1).toFinset

def Registry.bundleSize (key : String) : ℕ :=
  ((reg.detailRows.filter fun row => row.1 = key).map fun row => row.2.2).foldl max 0

/-- The finalized runs that have one of the bundles. -/
def Registry.runsOf (keys : Finset String) : Finset String :=
  (keys.biUnion reg.members).filter fun run => (reg.finalizationOf run).isSome

/-- The oldest finalization of a run of the bundle. -/
def Registry.oldest (key : String) : Option String :=
  (sortBy id ((reg.detailRows.filter fun row => row.1 = key).filterMap fun row =>
    (reg.finalizationOf row.2.1).map RunFinalization.finalizedAt)).head?

/-! ## `plan_retention` -/

def Registry.guarded (key : String) : Bool :=
  decide (∃ run ∈ reg.members key, reg.runProtected run = true)
    || ((reg.oldest key).isSome && decide (bundles key = .symlink))

def Registry.ordered : List String :=
  (sortBy toLex (reg.evidenceIds.filterMap fun key =>
    if reg.guarded bundles key then none else (reg.oldest key).map fun stamp => (stamp, key))).map Prod.snd

/-- The loop over the ordered bundles, with the bytes and the runs that are off the estimate. -/
def Registry.gather (totalBytes totalRuns : ℕ) :
    ℕ → Finset String → List String → List String × ℕ × Finset String
  | reclaimed, covered, [] => ([], reclaimed, covered)
  | reclaimed, covered, key :: rest =>
    if policy.within (totalBytes - reclaimed) (totalRuns - covered.card) then ([], reclaimed, covered)
    else
      let out := Registry.gather totalBytes totalRuns (reclaimed + reg.bundleSize key)
        (covered ∪ reg.members key) rest
      (key :: out.1, out.2)

def Registry.planRetention : RetentionPlan :=
  let protectedBytes := ((reg.evidenceIds.filter (reg.guarded bundles)).map reg.bundleSize).sum
  if policy.maxDetailBytes = none ∧ policy.maxDetailRuns = none then ⟨[], 0, protectedBytes, true⟩
  else
    let totalBytes := protectedBytes + ((reg.ordered bundles).map reg.bundleSize).sum
    let totalRuns := (reg.runsOf reg.evidenceIds.toFinset).card
    let out := reg.gather policy totalBytes totalRuns 0 ∅ (reg.ordered bundles)
    ⟨out.1, out.2.1, protectedBytes, policy.within (totalBytes - out.2.1) (totalRuns - out.2.2.card)⟩

/-! ## `apply_retention` -/

/-- A run of a reference is protected. -/
def Registry.claimed (key : String) : Bool := (reg.references key).any fun ref => reg.runProtected ref.1

structure Applied where
  registry : Registry
  bundles : String → Bundle
  done : Reclaimed

/-- One planned bundle, with no other process in between; `none` is the `ValueError`. -/
def Applied.reclaim (s : Applied) (key : String) : Option Applied :=
  if validEvidenceId key = false then none
  else if s.bundles key = .symlink then some s
  else
    match s.registry.references key with
    | [] => some s
    | refs =>
      if s.registry.claimed key then some s
      else some ⟨s.registry.releaseArtifacts key, removeTree s.bundles key,
        ⟨s.done.removedEvidenceIds ++ [key], s.done.reclaimedBytes + (refs.map Prod.snd).foldl max 0⟩⟩

def applyRetention (keys : List String) : Option Applied := keys.foldlM Applied.reclaim ⟨reg, bundles, ⟨[], 0⟩⟩

/-! ## The claim of a plan and when it is true -/

/-- What `_bundle_snapshots` and `_managed_finalized_runs` measure is within the budget. -/
def Registry.Fits : Prop :=
  policy.within (∑ key ∈ reg.evidenceIds.toFinset, reg.bundleSize key) (reg.runsOf reg.evidenceIds.toFinset).card

/-- A plan does what it says. -/
structure Registry.PlanKept (plan : RetentionPlan) : Prop where
  budget : plan.budgetSatisfied = true →
    ∃ after, applyRetention reg bundles plan.evidenceIds = some after ∧ after.registry.Fits policy
  order : ∃ rest, (plan.evidenceIds ++ rest).Perm (reg.evidenceIds.filter fun key => !reg.guarded bundles key)
    ∧ (plan.evidenceIds ++ rest).Pairwise fun a b =>
      ∀ s ∈ reg.oldest a, ∀ t ∈ reg.oldest b, toLex (s, a) ≤ toLex (t, b)
  least : ∀ front, front <+: plan.evidenceIds → front ≠ plan.evidenceIds →
    ∀ after, applyRetention reg bundles front = some after → ¬ after.registry.Fits policy
  unprotected : ∀ key ∈ plan.evidenceIds,
    bundles key ≠ .symlink ∧ ∀ run ∈ reg.members key, reg.runProtected run = false

/-- The bundles that are not reclaimed with these. -/
def Registry.kept (front : List String) : Finset String :=
  reg.evidenceIds.toFinset.filter fun key => key ∉ front ∨ reg.claimed key

/-- The bundles outside of these fit, and few enough finalized runs have none of these. -/
def Registry.outsideFits (front : List String) : Bool :=
  policy.within (∑ key ∈ reg.evidenceIds.toFinset \ front.toFinset, reg.bundleSize key)
    (reg.runsOf reg.evidenceIds.toFinset \ reg.runsOf front.toFinset).card

/-- The bundles that are kept fit, and few enough finalized runs have one of them. -/
def Registry.keptFits (front : List String) : Bool :=
  policy.within (∑ key ∈ reg.kept front, reg.bundleSize key) (reg.runsOf (reg.kept front)).card

variable {reg} {key : String}

theorem mem_evidenceIds : key ∈ reg.evidenceIds ↔ ∃ row ∈ reg.detailRows, row.1 = key := by
  simp [Registry.evidenceIds]

variable {run : String}

theorem mem_members : run ∈ reg.members key ↔ ∃ row ∈ reg.detailRows, row.1 = key ∧ row.2.1 = run := by
  simp [Registry.members, and_assoc]

theorem refers_of_mem_members (h : run ∈ reg.members key) : reg.Refers run key := by
  obtain ⟨row, hrow, rfl, rfl⟩ := mem_members.mp h
  obtain ⟨a, ha, hsome⟩ := mem_filterMap.mp hrow
  split at hsome
  next hdetail =>
    obtain ⟨evidenceId, he, rfl⟩ := Option.map_eq_some_iff.mp hsome
    exact ⟨a, ha, rfl, he, (Bool.and_eq_true_iff.mp hdetail).2⟩
  next => cases hsome

theorem finalized_of_unprotected (h : reg.runProtected run = false) : (reg.finalizationOf run).isSome = true := by
  unfold Registry.runProtected at h
  cases hfinal : reg.finalizationOf run with
  | some => rfl
  | none =>
    rw [hfinal] at h
    cases hrow : reg.runOf run with
    | none => rw [hrow] at h; cases h
    | some row => rw [hrow] at h; dsimp only [finalVerdict] at h; split at h <;> cases h

theorem unguarded {bundles} (hkey : key ∈ reg.evidenceIds) (h : reg.guarded bundles key = false) :
    (∃ stamp, reg.oldest key = some stamp) ∧ bundles key ≠ .symlink
      ∧ ∀ run ∈ reg.members key, reg.runProtected run = false := by
  simp only [Registry.guarded, Bool.or_eq_false_iff, decide_eq_false_iff_not, Bool.and_eq_false_iff, not_exists,
    not_and, Bool.not_eq_true] at h
  obtain ⟨row, hrow, hrow1⟩ := mem_evidenceIds.mp hkey
  have hfinal := finalized_of_unprotected (h.1 row.2.1 (mem_members.mpr ⟨row, hrow, hrow1, rfl⟩))
  obtain ⟨final, hfinal⟩ := Option.isSome_iff_exists.mp hfinal
  have hold : ∃ stamp, reg.oldest key = some stamp :=
    ⟨_, head?_eq_some_head (ne_nil_of_mem (mem_sortBy.mpr (mem_filterMap.mpr
      ⟨row, mem_filter.mpr ⟨hrow, by simpa using hrow1⟩, by rw [hfinal]; rfl⟩)))⟩
  refine ⟨hold, fun hsym => ?_, h.1⟩
  obtain ⟨stamp, hstamp⟩ := hold
  rw [hstamp, hsym] at h; simp at h

/-! ## The order of the bundles -/

theorem ordered_perm : (reg.ordered bundles).Perm (reg.evidenceIds.filter fun key => !reg.guarded bundles key) := by
  refine ((perm_sortBy _ _).map _).trans (Perm.of_eq ?_)
  rw [map_filterMap, ← filterMap_eq_filter]
  refine filterMap_congr fun key hkey => ?_
  cases hg : reg.guarded bundles key with
  | true => simp [Option.guard, hg]
  | false =>
    obtain ⟨⟨stamp, hstamp⟩, -⟩ := unguarded hkey hg; simp [Option.guard, hg, hstamp]

theorem mem_ordered : key ∈ reg.ordered bundles ↔ key ∈ reg.evidenceIds ∧ reg.guarded bundles key = false := by
  simp [(ordered_perm bundles).mem_iff]

theorem nodup_ordered : (reg.ordered bundles).Nodup :=
  (ordered_perm bundles).nodup_iff.mpr ((nodup_dedup _).filter _)

theorem pairwise_ordered : (reg.ordered bundles).Pairwise fun a b =>
    ∀ s ∈ reg.oldest a, ∀ t ∈ reg.oldest b, toLex (s, a) ≤ toLex (t, b) := by
  have hage : ∀ p ∈ sortBy toLex (reg.evidenceIds.filterMap fun key =>
      if reg.guarded bundles key then none else (reg.oldest key).map fun stamp => (stamp, key)),
      reg.oldest p.2 = some p.1 := by
    intro p hp
    obtain ⟨key, -, hkey⟩ := mem_filterMap.mp (mem_sortBy.mp hp)
    split at hkey
    next => cases hkey
    next =>
      obtain ⟨stamp, hstamp, rfl⟩ := Option.map_eq_some_iff.mp hkey; exact hstamp
  refine pairwise_map.mpr ((pairwise_sortBy _ _).imp_of_mem fun ha hb hle s hs t ht => ?_)
  rw [hage _ ha, Option.mem_some_iff] at hs
  rw [hage _ hb, Option.mem_some_iff] at ht
  subst hs ht; exact hle

/-! ## The loop -/

/-- The loop stops at the first part of the bundles whose estimate is within the budget. -/
theorem gather_spec (totalBytes totalRuns : ℕ) {l : List String} (hl : l.Nodup) (reclaimed : ℕ)
    (covered : Finset String) :
    ∃ front, front <+: l
      ∧ reg.gather policy totalBytes totalRuns reclaimed covered l = (front,
        reclaimed + ∑ key ∈ front.toFinset, reg.bundleSize key, covered ∪ front.toFinset.biUnion reg.members)
      ∧ ((front = l) ∨ policy.within (totalBytes - (reclaimed + ∑ key ∈ front.toFinset, reg.bundleSize key))
        (totalRuns - (covered ∪ front.toFinset.biUnion reg.members).card) = true)
      ∧ ∀ other, other <+: l → policy.within (totalBytes - (reclaimed + ∑ key ∈ other.toFinset, reg.bundleSize key))
        (totalRuns - (covered ∪ other.toFinset.biUnion reg.members).card) = true → front <+: other := by
  induction l generalizing reclaimed covered with
  | nil => exact ⟨[], prefix_rfl, by simp [Registry.gather], .inl rfl, fun _ _ _ => nil_prefix⟩
  | cons key rest ih =>
    by_cases hstop : policy.within (totalBytes - reclaimed) (totalRuns - covered.card) = true
    · exact ⟨[], nil_prefix, by simp [Registry.gather, hstop], .inr (by simpa using hstop), fun _ _ _ => nil_prefix⟩
    · have hsums : ∀ front, front <+: rest → reclaimed + ∑ k ∈ (key :: front).toFinset, reg.bundleSize k
          = reclaimed + reg.bundleSize key + ∑ k ∈ front.toFinset, reg.bundleSize k := by
        intro front hfront
        have hnew : key ∉ front.toFinset := fun h => (nodup_cons.mp hl).1 (hfront.subset (mem_toFinset.mp h))
        rw [toFinset_cons, Finset.sum_insert hnew, add_assoc]
      have hruns : ∀ front : List String, covered ∪ (key :: front).toFinset.biUnion reg.members
          = covered ∪ reg.members key ∪ front.toFinset.biUnion reg.members := by
        intro front
        rw [toFinset_cons, Finset.biUnion_insert, Finset.union_assoc]
      obtain ⟨front, hfront, hrun, hend, hleast⟩ :=
        ih (nodup_cons.mp hl).2 (reclaimed + reg.bundleSize key) (covered ∪ reg.members key)
      refine ⟨key :: front, cons_prefix_cons.mpr ⟨rfl, hfront⟩, ?_, ?_, fun other hother hwithin => ?_⟩
      · rw [Registry.gather, if_neg hstop, hrun, hsums front hfront, hruns]
      · rw [hsums front hfront, hruns]; exact hend.imp (congrArg _) id
      · cases other with
        | nil => exact absurd (by simpa using hwithin) hstop
        | cons key' other =>
          obtain ⟨rfl, hrest⟩ := cons_prefix_cons.mp hother
          rw [hsums other hrest, hruns] at hwithin
          exact cons_prefix_cons.mpr ⟨rfl, hleast other hrest hwithin⟩

variable {front : List String}

theorem outsideFits_eq (hfront : front <+: reg.ordered bundles) :
    policy.within ((∑ key ∈ reg.evidenceIds.toFinset, reg.bundleSize key)
        - (0 + ∑ key ∈ front.toFinset, reg.bundleSize key))
      ((reg.runsOf reg.evidenceIds.toFinset).card - (∅ ∪ front.toFinset.biUnion reg.members).card)
    = reg.outsideFits policy front := by
  have hsub : front.toFinset ⊆ reg.evidenceIds.toFinset := fun key hkey =>
    mem_toFinset.mpr ((mem_ordered bundles).mp (hfront.subset (mem_toFinset.mp hkey))).1
  have hruns : reg.runsOf front.toFinset = front.toFinset.biUnion reg.members := by
    refine Finset.filter_true_of_mem fun run hrun => ?_
    obtain ⟨key, hkey, hrun⟩ := Finset.mem_biUnion.mp hrun
    have hplace := (mem_ordered bundles).mp (hfront.subset (mem_toFinset.mp hkey))
    exact finalized_of_unprotected ((unguarded hplace.1 hplace.2).2.2 run hrun)
  have hcovered : reg.runsOf front.toFinset ⊆ reg.runsOf reg.evidenceIds.toFinset :=
    Finset.filter_subset_filter _ (Finset.biUnion_subset_biUnion_of_subset_left _ hsub)
  rw [Registry.outsideFits, ← Finset.sum_sdiff hsub, Finset.card_sdiff_of_subset hcovered, hruns, zero_add,
    Nat.add_sub_cancel, Finset.empty_union]

theorem totalBytes_eq : ((reg.evidenceIds.filter (reg.guarded bundles)).map reg.bundleSize).sum
    + ((reg.ordered bundles).map reg.bundleSize).sum = ∑ key ∈ reg.evidenceIds.toFinset, reg.bundleSize key := by
  rw [((ordered_perm bundles).map _).sum_eq, ← sum_append, ← map_append,
    sum_toFinset _ (show reg.evidenceIds.Nodup from nodup_dedup _)]
  exact ((filter_append_perm _ _).map _).sum_eq

theorem planRetention_spec :
    let plan := reg.planRetention bundles policy
    plan.evidenceIds <+: reg.ordered bundles
      ∧ plan.budgetSatisfied = reg.outsideFits policy plan.evidenceIds
      ∧ (plan.evidenceIds = reg.ordered bundles ∨ reg.outsideFits policy plan.evidenceIds = true)
      ∧ ∀ front, front <+: reg.ordered bundles → reg.outsideFits policy front = true →
        plan.evidenceIds <+: front := by
  intro plan
  unfold plan Registry.planRetention
  split
  next hnone =>
    have hfits : reg.outsideFits policy [] = true := RetentionPolicy.within_iff.mpr (by simp [hnone.1, hnone.2])
    exact ⟨prefix_append [] _, hfits.symm, .inr hfits, fun _ _ _ => nil_prefix⟩
  next =>
    obtain ⟨front, hfront, hrun, hend, hleast⟩ := @gather_spec reg policy
      (∑ key ∈ reg.evidenceIds.toFinset, reg.bundleSize key) (reg.runsOf reg.evidenceIds.toFinset).card
      _ (nodup_ordered bundles) 0 ∅
    rw [outsideFits_eq bundles policy hfront] at hend
    simp only [totalBytes_eq, hrun]
    refine ⟨hfront, outsideFits_eq bundles policy hfront, hend, fun other hother hfits => hleast other hother ?_⟩
    rw [outsideFits_eq bundles policy hother]; exact hfits

/-! ## What is left after the plan -/

theorem references_release {other : String} (h : other ≠ key) :
    (reg.releaseArtifacts key).references other = reg.references other := by
  simp only [Registry.references, Registry.releaseArtifacts, filter_map, map_map]
  congr 1
  · funext a
    simp only [Function.comp_apply]
    split <;> rfl
  · refine filter_congr fun a _ => ?_
    simp only [Function.comp_apply]
    split
    next ha => simp [ha, h.symm]
    next => rfl

theorem detailRows_release : (reg.releaseArtifacts key).detailRows =
    reg.detailRows.filter fun row => row.1 ≠ key := by
  simp only [Registry.detailRows, Registry.releaseArtifacts, filterMap_map, filter_filterMap]
  refine filterMap_congr fun a _ => ?_
  simp only [Function.comp_apply]
  cases hdetail : a.managed && a.retained with
  | false => split <;> simp_all
  | true =>
    cases he : a.evidenceId with
    | none => simp [he, hdetail]
    | some evidenceId => by_cases hkey : evidenceId = key <;> simp [he, hkey, hdetail, Option.filter]

/-- A planned bundle is released unless a protected run refers to it, and nothing else is changed.
-/
theorem reclaim_spec {s : Applied} (hvalid : validEvidenceId key = true) (hsym : s.bundles key ≠ .symlink) :
    ∃ t, s.reclaim key = some t ∧ t.registry.runs = s.registry.runs
      ∧ t.registry.finalizations = s.registry.finalizations
      ∧ (∀ other, other ≠ key →
        t.bundles other = s.bundles other ∧ t.registry.references other = s.registry.references other)
      ∧ t.registry.detailRows = s.registry.detailRows.filter fun row =>
        row.1 ≠ key ∨ s.registry.claimed row.1 := by
  unfold Applied.reclaim
  rw [if_neg (by simp [hvalid]), if_neg hsym]
  split
  next hrefs =>
    refine ⟨s, rfl, rfl, rfl, fun _ _ => ⟨rfl, rfl⟩, (filter_eq_self.mpr fun row hrow => ?_).symm⟩
    have hmem : row.2.1 ∈ (s.registry.references row.1).map Prod.fst :=
      mem_references.mpr (refers_of_mem_members (mem_members.mpr ⟨row, hrow, rfl, rfl⟩))
    simp only [decide_eq_true_eq]
    refine .inl fun hkey => ?_
    rw [hkey, hrefs] at hmem; cases hmem
  next refs _ =>
    by_cases hclaimed : s.registry.claimed key = true
    · rw [if_pos hclaimed]
      refine ⟨s, rfl, rfl, rfl, fun _ _ => ⟨rfl, rfl⟩, (filter_eq_self.mpr fun row _ => ?_).symm⟩
      by_cases hkey : row.1 = key
      · simpa [hkey] using hclaimed
      · simp [hkey]
    · rw [if_neg hclaimed]
      refine ⟨_, rfl, rfl, rfl, fun other hne => ⟨removeTree_of_ne hne, references_release hne⟩, ?_⟩
      rw [detailRows_release]
      refine filter_congr fun row _ => ?_
      by_cases hkey : row.1 = key
      · simpa [hkey] using hclaimed
      · simp [hkey]

theorem reclaim_run (hnodup : front.Nodup) {s : Applied}
    (hvalid : ∀ key ∈ front, validEvidenceId key = true) (hsym : ∀ key ∈ front, s.bundles key ≠ .symlink) :
    ∃ after, front.foldlM Applied.reclaim s = some after ∧ after.registry.finalizations = s.registry.finalizations
      ∧ after.registry.detailRows = s.registry.detailRows.filter fun row =>
        row.1 ∉ front ∨ s.registry.claimed row.1 := by
  induction front generalizing s with
  | nil => exact ⟨s, rfl, rfl, by simp⟩
  | cons key rest ih =>
    obtain ⟨t, ht, hruns, hfinals, hothers, hrows⟩ :=
      reclaim_spec (hvalid key mem_cons_self) (hsym key mem_cons_self)
    have hne : ∀ other ∈ rest, other ≠ key := fun other ho he => (nodup_cons.mp hnodup).1 (he ▸ ho)
    obtain ⟨after, hafter, hfinals', hrows'⟩ := ih (nodup_cons.mp hnodup).2
      (fun other ho => hvalid other (mem_cons_of_mem _ ho))
      (fun other ho => by rw [(hothers other (hne other ho)).1]; exact hsym other (mem_cons_of_mem _ ho))
    refine ⟨after, by rw [foldlM_cons, ht]; exact hafter, hfinals'.trans hfinals, ?_⟩
    rw [hrows', hrows, filter_filter]
    refine filter_congr fun row _ => ?_
    -- a removal changes artifact rows only, and these protect no run
    have hprotected : ∀ run, t.registry.runProtected run = s.registry.runProtected run := fun run =>
      runProtected_congr (by rw [Registry.runOf, Registry.runOf, hruns])
        (by rw [Registry.finalizationOf, Registry.finalizationOf, hfinals])
    by_cases hkey : row.1 = key
    · have hnot : key ∉ rest := (nodup_cons.mp hnodup).1; simp [hkey, hnot]
    · have hclaimed : t.registry.claimed row.1 = s.registry.claimed row.1 := by
        simp only [Registry.claimed, (hothers _ hkey).2, hprotected]
      simp [hkey, hclaimed]

theorem applyRetention_spec (hvalid : ∀ key ∈ reg.evidenceIds, validEvidenceId key = true)
    (hfront : front <+: reg.ordered bundles) :
    ∃ after, applyRetention reg bundles front = some after
      ∧ (after.registry.Fits policy ↔ reg.keptFits policy front = true) := by
  have hplace : ∀ key ∈ front, key ∈ reg.evidenceIds ∧ reg.guarded bundles key = false := fun key hkey =>
    (mem_ordered bundles).mp (hfront.subset hkey)
  obtain ⟨after, hafter, hfinals, hrows⟩ := reclaim_run ((nodup_ordered bundles).sublist hfront.sublist)
    (s := ⟨reg, bundles, ⟨[], 0⟩⟩) (fun key hkey => hvalid key (hplace key hkey).1)
    fun key hkey => (unguarded (hplace key hkey).1 (hplace key hkey).2).2.1
  refine ⟨after, hafter, ?_⟩
  -- the bundles left, their sizes and their runs are read off the rows that stayed
  have hids : after.registry.evidenceIds.toFinset = reg.kept front := by
    ext key
    simp only [mem_toFinset, Registry.kept, Finset.mem_filter, mem_evidenceIds, hrows, mem_filter,
      decide_eq_true_eq]
    constructor
    · rintro ⟨row, ⟨hrow, hkeep⟩, rfl⟩; exact ⟨⟨row, hrow, rfl⟩, hkeep⟩
    · rintro ⟨⟨row, hrow, rfl⟩, hkeep⟩; exact ⟨row, ⟨hrow, hkeep⟩, rfl⟩
  have hrowsOf : ∀ key ∈ reg.kept front, (after.registry.detailRows.filter fun row => row.1 = key)
      = reg.detailRows.filter fun row => row.1 = key := by
    intro key hkey
    rw [hrows, filter_filter]
    refine filter_congr fun row _ => ?_
    by_cases hrow : row.1 = key
    · simpa [hrow] using (Finset.mem_filter.mp hkey).2
    · simp [hrow]
  have hbytes : ∑ key ∈ reg.kept front, after.registry.bundleSize key =
    ∑ key ∈ reg.kept front, reg.bundleSize key :=
    Finset.sum_congr rfl fun key hkey => by rw [Registry.bundleSize, Registry.bundleSize, hrowsOf key hkey]
  have hruns : after.registry.runsOf (reg.kept front) = reg.runsOf (reg.kept front) := by
    have hmembers : ∀ key ∈ reg.kept front, after.registry.members key = reg.members key := fun key hkey => by
      rw [Registry.members, Registry.members, hrowsOf key hkey]
    rw [Registry.runsOf, Finset.biUnion_congr rfl hmembers]
    exact Finset.filter_congr fun run _ => by rw [Registry.finalizationOf, Registry.finalizationOf, hfinals]
  rw [Registry.Fits, hids, hbytes, hruns, Registry.keptFits]

theorem outsideFits_of_keptFits (h : reg.keptFits policy front = true) : reg.outsideFits policy front = true := by
  have hsub : reg.evidenceIds.toFinset \ front.toFinset ⊆ reg.kept front := fun key hkey => by
    rw [Finset.mem_sdiff, mem_toFinset (l := front)] at hkey
    exact Finset.mem_filter.mpr ⟨hkey.1, .inl hkey.2⟩
  refine RetentionPolicy.within_mono (Finset.sum_le_sum_of_subset hsub) (Finset.card_le_card fun run hrun => ?_) h
  simp only [Registry.runsOf, Finset.mem_sdiff, Finset.mem_filter, Finset.mem_biUnion, not_and] at hrun ⊢
  obtain ⟨⟨⟨key, hkey, hrun⟩, hfinal⟩, hnone⟩ := hrun
  refine ⟨⟨key, hsub (Finset.mem_sdiff.mpr ⟨hkey, fun hmem => ?_⟩), hrun⟩, hfinal⟩
  exact absurd hfinal (hnone ⟨key, hmem, hrun⟩)

theorem keptFits_mono {front other : List String} (hsub : front ⊆ other) (h : reg.keptFits policy front = true) :
    reg.keptFits policy other = true := by
  have hkept : reg.kept other ⊆ reg.kept front :=
    Finset.monotone_filter_right _ fun key _ => Or.imp_left fun hkey hmem => hkey (hsub hmem)
  exact RetentionPolicy.within_mono (Finset.sum_le_sum_of_subset hkept)
    (Finset.card_le_card (Finset.filter_subset_filter _ (Finset.biUnion_subset_biUnion_of_subset_left _ hkept))) h

/-- **A plan does what it says exactly if no estimate that fits is too low**: for every first part
of the ordered bundles whose outside fits, what is kept fits. -/
theorem plan_kept_iff (hvalid : ∀ key ∈ reg.evidenceIds, validEvidenceId key = true) :
    reg.PlanKept bundles policy (reg.planRetention bundles policy) ↔
      ∀ front, front <+: reg.ordered bundles →
        reg.outsideFits policy front = true → reg.keptFits policy front = true := by
  obtain ⟨hplan, hsatisfied, hend, hleast⟩ := @planRetention_spec reg bundles policy
  constructor
  · intro h front hfront hfits
    -- the plan stops at the first part that fits, so it goes no further than this one
    have hfirst := hleast front hfront hfits
    have hwithin : (reg.planRetention bundles policy).budgetSatisfied = true := by
      rw [hsatisfied]
      refine hend.elim (fun hall => ?_) id
      rw [hall] at hfirst ⊢; rwa [hfirst.eq_of_length_le hfront.length_le]
    obtain ⟨after, hafter, hkept⟩ := h.budget hwithin
    obtain ⟨after', hafter', hiff⟩ := applyRetention_spec bundles policy hvalid hplan
    rw [hafter] at hafter'; cases hafter'; exact keptFits_mono policy hfirst.subset (hiff.mp hkept)
  · intro h
    refine ⟨fun hwithin => ?_, ?_, fun front hfront hne after hafter hfits => ?_, fun key hkey => ?_⟩
    · obtain ⟨after, hafter, hiff⟩ := applyRetention_spec bundles policy hvalid hplan
      exact ⟨after, hafter, hiff.mpr (h _ hplan (hsatisfied ▸ hwithin))⟩
    · obtain ⟨rest, hrest⟩ := hplan
      refine ⟨rest, ?_, ?_⟩ <;> rw [hrest]
      exacts [ordered_perm bundles, pairwise_ordered bundles]
    · have hprefix := hfront.trans hplan
      obtain ⟨after', hafter', hiff⟩ := applyRetention_spec bundles policy hvalid hprefix
      rw [hafter] at hafter'
      cases hafter'
      -- a shorter part that fits would have ended the plan
      have hback := hleast front hprefix (outsideFits_of_keptFits policy (hiff.mp hfits))
      exact hne (hfront.eq_of_length_le hback.length_le)
    · have hplace := (mem_ordered bundles).mp (hplan.subset hkey)
      exact (unguarded hplace.1 hplace.2).2

end Plan

/-! ## Shared runs -/

/-- The first run has two bundles, the second one. -/
def sharedRegistry : Registry where
  runs := [⟨"r1", false, true, false⟩, ⟨"r2", false, true, false⟩]
  finalizations := [⟨"r1", "2026-01-01", .completed, some true, some true, "\x7b\x7d"⟩,
    ⟨"r2", "2026-01-02", .completed, some true, some true, "\x7b\x7d"⟩]
  artifacts := [⟨⟨"r1", "detail", "/e/a", "sha", 1, true, some "a"⟩, true⟩,
    ⟨⟨"r1", "detail", "/e/b", "sha", 1, true, some "b"⟩, true⟩,
    ⟨⟨"r2", "detail", "/e/c", "sha", 1, true, some "c"⟩, true⟩]
  keys := by decide

/-- Within one byte and one run both bundles of the shared run go. -/
theorem shared_plan_kept : sharedRegistry.PlanKept (fun _ => .directory) ⟨some 1, some 1⟩
    (sharedRegistry.planRetention (fun _ => .directory) ⟨some 1, some 1⟩) := by
  refine (plan_kept_iff _ _ (by decide)).mpr fun front hfront => ?_
  have hall : ∀ front ∈ (sharedRegistry.ordered fun _ => .directory).inits,
      sharedRegistry.outsideFits ⟨some 1, some 1⟩ front = true →
        sharedRegistry.keptFits ⟨some 1, some 1⟩ front = true := by decide
  exact hall front ((mem_inits _ _).mpr hfront)

theorem shared_plan_not_kept : ¬ sharedRegistry.PlanKept (fun _ => .directory) ⟨none, some 1⟩
    (sharedRegistry.planRetention (fun _ => .directory) ⟨none, some 1⟩) := by
  intro h
  obtain ⟨after, hafter, hfits⟩ := h.budget (by decide)
  have hruns : ((applyRetention sharedRegistry (fun _ => .directory)
      (sharedRegistry.planRetention (fun _ => .directory) ⟨none, some 1⟩).evidenceIds).map fun after =>
        (after.registry.runsOf after.registry.evidenceIds.toFinset).card) = some 2 := by decide
  rw [hafter] at hruns
  rw [Registry.Fits, RetentionPolicy.within_iff] at hfits
  have hone := hfits.2 1 rfl; simp only [Option.map_some, Option.some.injEq] at hruns; omega
end CryptoPilot.Backtests
