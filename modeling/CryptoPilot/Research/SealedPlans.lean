/- # SealedPlans — whether a look is judged under the plan that was sealed.

A registration stores the whole plan.  Both later readings compare digest, budgets and endpoints
with it, but neither its role nor its judging start, which the family's row holds and
`_forward_look_slot` even selects.  In a run whose callers present the sealed role and judging start
every look is under the sealed plan. -/
import CryptoPilot.Research.Looks
import CryptoPilot.Research.Horizon

namespace CryptoPilot.Research

open CryptoPilot.Lib List
open CryptoPilot.Lib.Interleave

variable {τ : Type} {hashes : Hashes τ} {db db' : ResearchJournal τ} {plan : ProcessEvaluationPlan τ}

structure SameTerms (plan sealedPlan : ProcessEvaluationPlan τ) : Prop where
  role : plan.role = sealedPlan.role
  procedure : plan.procedure = sealedPlan.procedure
  budgets : plan.procedure.inference = sealedPlan.procedure.inference
  endpoints : plan.lookEndpoints = sealedPlan.lookEndpoints
  judgingStart : plan.judgingStart = sealedPlan.judgingStart

/-- The family of `plan` was registered with a plan of the same terms. -/
def RegisteredAs (db : ResearchJournal τ) (plan : ProcessEvaluationPlan τ) : Prop :=
  ∃ row ∈ db.plans, row.familyId = plan.familyId ∧ SameTerms plan row.canonical

structure SealedOnly (w : World τ) : Prop where
  unique : w.db.plans.Pairwise fun r s => r.familyId ≠ s.familyId
  reserved : ∀ plan args, .reserve plan args ∈ w.returned → plan.role = .forward → RegisteredAs w.db plan
  persisted : ∀ plan now, .persist plan now ∈ w.returned → RegisteredAs w.db plan
  first : ∀ a ∈ w.db.attempts, a.role = .forward → a.lookOrdinal = some 1 →
    ∃ row ∈ w.db.plans, row.familyId = a.familyId ∧ row.canonical.judgingStart = some a.context.intervalStart

/-- A plan that passes the comparison with its family's columns has the family's role and judging
start. -/
def PresentsSealedStart (db : ResearchJournal τ) (plan : ProcessEvaluationPlan τ) : Prop :=
  ∀ family, familyOf db plan.familyId = some family → sealedColumns family plan = true →
    ∀ row ∈ db.plans, row.familyId = plan.familyId →
      plan.role = row.canonical.role ∧ plan.judgingStart = row.canonical.judgingStart

/-- The transaction a process is about to make is of no plan, or of one with the sealed role and
judging start. -/
def Process.PresentsSealed (db : ResearchJournal τ) : Process τ → Prop
  | .opened (.persist plan _) => PresentsSealedStart db plan
  | .opened (.reserve plan _) => plan.role = .forward → PresentsSealedStart db plan
  | _ => True

def PresentsSealed (w : World τ) : Event τ → Prop
  | .step i => (w.processes i).PresentsSealed w.db
  | _ => True

def JournalCall.presentedPlan : JournalCall τ → Option (ProcessEvaluationPlan τ)
  | .persist plan _ => some plan
  | .reserve plan _ => some plan
  | _ => none

def Event.presentedPlan : Event τ → Option (ProcessEvaluationPlan τ)
  | .call _ c => c.presentedPlan
  | _ => none

def plansOf (events : List (Event τ)) : List (ProcessEvaluationPlan τ) := events.filterMap Event.presentedPlan

def NoCollision (hashes : Hashes τ) (plans : List (ProcessEvaluationPlan τ)) : Prop :=
  ∀ p ∈ plans, ∀ q ∈ plans, hashes.procedure p.procedure = hashes.procedure q.procedure → p.procedure = q.procedure

/-! ## What the tables say of the sealed plans -/

structure SealedWith (hashes : Hashes τ) (plans : List (ProcessEvaluationPlan τ)) (family : FamilyRow)
    (row : PlanRow τ) : Prop where
  same : row.familyId = family.familyId
  columns : sealedColumns family row.canonical = true
  digest : hashes.procedure row.canonical.procedure = row.canonical.procedureDigest
  presented : ∃ plan ∈ plans, plan.procedure = row.canonical.procedure

structure Registered (hashes : Hashes τ) (plans : List (ProcessEvaluationPlan τ)) (db : ResearchJournal τ) :
    Prop where
  unique : db.plans.Pairwise fun r s => r.familyId ≠ s.familyId
  row : ∀ family ∈ db.families, ∃ row ∈ db.plans, SealedWith hashes plans family row
  family : ∀ row ∈ db.plans, ∃ family ∈ db.families, family.familyId = row.familyId

variable {plans : List (ProcessEvaluationPlan τ)} {now : Stamp} {p : Process τ} {call : JournalCall τ} {w : World τ}

theorem Registered.kept (h : Registered hashes plans db)
    (hfamilies : db'.families = db.families) (hplans : db'.plans = db.plans) : Registered hashes plans db' := by
  refine ⟨?_, ?_, ?_⟩
  · rw [hplans]; exact h.unique
  · rw [hfamilies, hplans]; exact h.row
  · rw [hfamilies, hplans]; exact h.family

theorem sealedColumns_familyRow {digest : Digest} :
    sealedColumns (familyRow plan now digest) (plan.registered digest) = true := by
  simp [sealedColumns, familyRow, ProcessEvaluationPlan.registered]

theorem digest_of_checkPersist (hcheck : checkPersist hashes plan = .ok ()) :
    hashes.procedure plan.procedure = plan.procedureDigest := by
  unfold checkPersist at hcheck
  split at hcheck
  next => cases hcheck
  next hne => exact not_not.mp hne

section

variable (h : Registered hashes plans db)

include h

theorem Registered.sealed {digest : Digest} (hplan : plan ∈ plans)
    (hcheck : checkPersist hashes plan = .ok ()) (hfresh : familyOf db plan.familyId = none)
    (hfamilies : db'.families = db.families ++ [familyRow plan now digest])
    (hplans : db'.plans = db.plans ++ [⟨digest, plan.familyId, plan.role, plan.procedureDigest,
      plan.registered digest, now⟩])
    :
    Registered hashes plans db' := by
  have hunknown : ∀ family ∈ db.families, family.familyId ≠ plan.familyId := by
    intro family hf; simpa using find?_eq_none.mp hfresh family hf
  have hdigest := digest_of_checkPersist hcheck
  refine ⟨?_, fun family hf => ?_, fun row hrow => ?_⟩
  · rw [hplans, pairwise_append]
    refine ⟨h.unique, pairwise_singleton _ _, fun r hr s hs hrs => ?_⟩
    rw [mem_singleton.mp hs] at hrs
    obtain ⟨family, hf, hid⟩ := h.family r hr; exact hunknown family hf (hid.trans hrs)
  · rw [hfamilies] at hf
    rw [hplans]
    rcases mem_append.mp hf with hf | hf
    · obtain ⟨row, hrow, hsealed⟩ := h.row family hf; exact ⟨row, mem_append_left _ hrow, hsealed⟩
    · rw [mem_singleton.mp hf]
      exact ⟨_, mem_append_right _ (mem_singleton.mpr rfl), rfl, sealedColumns_familyRow, hdigest, plan, hplan, rfl⟩
  · rw [hplans] at hrow
    rw [hfamilies]
    rcases mem_append.mp hrow with hrow | hrow
    · obtain ⟨family, hf, hid⟩ := h.family row hrow; exact ⟨family, mem_append_left _ hf, hid⟩
    · rw [mem_singleton.mp hrow]; exact ⟨_, mem_append_right _ (mem_singleton.mpr rfl), rfl⟩

theorem registered_committed (hp : p.Knows hashes db)
    (hplans : ∀ plan now, call = .persist plan now → plan ∈ plans)
    (hcommit : Committed hashes db p call db') : Registered hashes plans db' := by
  cases hcommit with
  | initialized hinsert =>
    obtain ⟨_, _, _, _, rfl⟩ := insertMeta_ok hinsert; exact h.kept rfl rfl
  | advanced args stored =>
    rw [advanceMeta_eq]
    split
    · exact h.kept rfl rfl
    · exact h
  | recorded hrecord =>
    obtain ⟨_, _, _, _, rfl⟩ := recordConsultation_ok hrecord; exact h.kept rfl rfl
  | persisted hpersist =>
    rcases persistRegistration_ok hpersist with ⟨_, _, _, _, rfl⟩ | ⟨hfresh, _, _, _, rfl⟩
    · exact h
    · exact h.sealed (hplans _ _ rfl) hp.1 hfresh rfl rfl
  | reserved hreserve =>
    obtain ⟨_, _, _, _, _, _, rfl⟩ := reserveAttempt_ok hreserve
    exact h.kept (reserveRows_families ..) (reserveRows_plans ..)
  | finished hinsert =>
    obtain ⟨_, rfl⟩ := insertOutcome_ok hinsert; exact h.kept rfl rfl
  | repeated => exact h

theorem registeredAs_of_columns {family : FamilyRow} (hcollision : NoCollision hashes plans)
    (hplan : plan ∈ plans) (hdigest : hashes.procedure plan.procedure = plan.procedureDigest)
    (hfound : familyOf db plan.familyId = some family) (hcolumns : sealedColumns family plan = true)
    (hstart : PresentsSealedStart db plan) : RegisteredAs db plan := by
  obtain ⟨hmem, hid⟩ := familyOf_mem hfound
  obtain ⟨row, hrow, hsealed⟩ := h.row family hmem
  obtain ⟨hrole, hjudging⟩ := hstart family hfound hcolumns row hrow (hsealed.same.trans hid)
  obtain ⟨hd, _, _, _, hendpoints⟩ := sealedColumns_eq hcolumns
  obtain ⟨hd', _, _, _, hendpoints'⟩ := sealedColumns_eq hsealed.columns
  obtain ⟨first, hfirst, hfirstEq⟩ := hsealed.presented
  have hprocedure : plan.procedure = row.canonical.procedure := by
    rw [← hfirstEq]
    apply hcollision plan hplan first hfirst
    rw [hdigest, hfirstEq, hsealed.digest, ← hd, ← hd']
  exact ⟨row, hrow, hsealed.same.trans hid,
    hrole, hprocedure, by rw [hprocedure], hendpoints.symm.trans hendpoints', hjudging⟩

end

/-! ## The step lemma -/

theorem RegisteredAs.mono (h : RegisteredAs db plan) (hplans : db.plans <+: db'.plans) : RegisteredAs db' plan := by
  obtain ⟨row, hrow, hsame⟩ := h; exact ⟨row, hplans.subset hrow, hsame⟩

theorem committed_plans (hcommit : Committed hashes db p call db') : db.plans <+: db'.plans := by
  cases hcommit with
  | initialized hinsert =>
    obtain ⟨_, _, _, _, rfl⟩ := insertMeta_ok hinsert; exact prefix_rfl
  | advanced args stored =>
    rw [advanceMeta_eq]
    split <;> exact prefix_rfl
  | recorded hrecord =>
    obtain ⟨_, _, _, _, rfl⟩ := recordConsultation_ok hrecord; exact prefix_rfl
  | persisted hpersist =>
    rcases persistRegistration_ok hpersist with ⟨_, _, _, _, rfl⟩ | ⟨_, _, _, _, rfl⟩
    · exact prefix_rfl
    · exact prefix_append _ _
  | reserved hreserve =>
    obtain ⟨_, _, _, _, _, _, rfl⟩ := reserveAttempt_ok hreserve
    rw [reserveRows_plans]
  | finished hinsert =>
    obtain ⟨_, rfl⟩ := insertOutcome_ok hinsert; exact prefix_rfl
  | repeated => exact prefix_rfl

def Process.PlanIn (plans : List (ProcessEvaluationPlan τ)) : Process τ → Prop
  | .called call | .opened call => ∀ plan ∈ call.presentedPlan, plan ∈ plans
  | _ => True

theorem reads_planIn {p p' : Process τ} (h : Reads db p p') (hp : p.PlanIn plans) : p'.PlanIn plans := by
  cases h with
  | opened => exact hp
  | _ => trivial

section

variable (h : Registered hashes plans db) (hcollision : NoCollision hashes plans)
  (hplan : plan ∈ plans)

include h hcollision hplan

theorem persisted_registeredAs {sealedPlan : ProcessEvaluationPlan τ}
    (hcheck : checkPersist hashes plan = .ok ()) (hstart : PresentsSealedStart db plan)
    (hpersist : persistRegistration hashes db plan now = .ok (sealedPlan, db')) :
    RegisteredAs db' plan := by
  have hdigest := digest_of_checkPersist hcheck
  rcases persistRegistration_ok hpersist with ⟨_, hfound, hcolumns, _, rfl⟩ | ⟨_, digest, _, _, rfl⟩
  · exact registeredAs_of_columns h hcollision hplan hdigest hfound hcolumns hstart
  · exact ⟨_, mem_append_right _ (mem_singleton.mpr rfl), rfl, rfl, rfl, rfl, rfl, rfl⟩

theorem reserved_registeredAs {args : ReserveArgs} {attempt : ResearchAttempt}
    (hcheck : checkReserve hashes plan args = .ok ()) (hrole : plan.role = .forward)
    (hstart : PresentsSealedStart db plan)
    (hreserve : reserveAttempt db plan args = .ok (attempt, db')) :
    RegisteredAs db' plan ∧ ∃ a, db'.attempts = db.attempts ++ [a] ∧ a.familyId = plan.familyId
      ∧ (a.lookOrdinal = some 1 → plan.judgingStart = some a.context.intervalStart) := by
  have hdigest : hashes.procedure plan.procedure = plan.procedureDigest := by
    unfold checkReserve at hcheck
    split at hcheck
    next => cases hcheck
    next =>
      split at hcheck
      next => cases hcheck
      next =>
        split at hcheck
        next => cases hcheck
        next hne => exact not_not.mp hne
  obtain ⟨a, hattempts, hid, harole, _, ⟨_, _, hforward⟩, _⟩ := reserve_appends hreserve
  obtain ⟨slot, family, planStart, hgranted, hordinal, hinterval, _⟩ := hforward (harole.trans hrole)
  have hregistered := registeredAs_of_columns h hcollision hplan hdigest hgranted.found hgranted.columns hstart
  have hcommit : Committed hashes db (.opened (.reserve plan args)) (.reserve plan args) db' := .reserved hreserve
  have hplans : db.plans <+: db'.plans := committed_plans hcommit
  refine ⟨hregistered.mono hplans, a, hattempts, hid, fun hone => ?_⟩
  rw [hordinal, Option.some.injEq] at hone
  have hlook : slot.judgingStart = planStart := by rw [hgranted.starts, hone]; rfl
  rw [hinterval, hlook]; exact hgranted.planStarts

end

structure UnderSealed (hashes : Hashes τ) (plans : List (ProcessEvaluationPlan τ)) (w : World τ) : Prop where
  informed : Informed hashes w
  registered : Registered hashes plans w.db
  planIn : ∀ i, (w.processes i).PlanIn plans
  sealedOnly : SealedOnly w

theorem planIn_set {i j : ℕ}
    (hw : ∀ j, (w.processes j).PlanIn plans) (hp : p.PlanIn plans) : ((w.set i p).processes j).PlanIn plans := by
  by_cases h : j = i
  · subst h
    rw [World.set_self]; exact hp
  · rw [World.set_of_ne h]; exact hw j

theorem SealedOnly.kept {w w' : World τ} (h : SealedOnly w) (hplans : w'.db.plans = w.db.plans)
    (hattempts : w'.db.attempts = w.db.attempts) (hreturned : w'.returned = w.returned) : SealedOnly w' := by
  refine ⟨?_, ?_, ?_, ?_⟩
  · rw [hplans]; exact h.unique
  · rw [hreturned]
    exact fun plan args hc hrole => (h.reserved plan args hc hrole).mono (by rw [hplans])
  · rw [hreturned]; exact fun plan now hc => (h.persisted plan now hc).mono (by rw [hplans])
  · rw [hplans, hattempts]; exact h.first

theorem SealedOnly.returns {i : ℕ} (h : SealedOnly w)
    (hunique : db'.plans.Pairwise fun r s => r.familyId ≠ s.familyId) (hplans : w.db.plans <+: db'.plans)
    (hreserved : ∀ plan args, call = .reserve plan args → plan.role = .forward → RegisteredAs db' plan)
    (hpersisted : ∀ plan now, call = .persist plan now → RegisteredAs db' plan)
    (hattempts : ∀ a ∈ db'.attempts, a.role = .forward → a.lookOrdinal = some 1 → a ∈ w.db.attempts
      ∨ ∃ row ∈ db'.plans, row.familyId = a.familyId ∧ row.canonical.judgingStart = some a.context.intervalStart) :
    SealedOnly { w.set i .idle with db := db', returned := w.returned ++ [call] } := by
  refine ⟨hunique, fun plan args hc hrole => ?_, fun plan now hc => ?_, fun a ha hrole hone => ?_⟩
  · rcases mem_append.mp hc with hc | hc
    · exact (h.reserved plan args hc hrole).mono hplans
    · exact hreserved plan args (mem_singleton.mp hc).symm hrole
  · rcases mem_append.mp hc with hc | hc
    · exact (h.persisted plan now hc).mono hplans
    · exact hpersisted plan now (mem_singleton.mp hc).symm
  · rcases hattempts a ha hrole hone with ha | hrow
    · obtain ⟨row, hrow, hsame⟩ := h.first a ha hrole hone; exact ⟨row, hplans.subset hrow, hsame⟩
    · exact hrow

theorem committed_plan
    (hp : p.PlanIn plans) (hcommit : Committed hashes db p call db') : ∀ plan ∈ call.presentedPlan,
    plan ∈ plans := by
  cases hcommit with
  | persisted | reserved => exact hp
  | _ => exact fun _ hnone => nomatch hnone

theorem sealedOnly_committed {i : ℕ} (h : UnderSealed hashes plans w) (hcollision : NoCollision hashes plans)
    (hpresents : PresentsSealed w (.step i)) (hcommit : Committed hashes w.db (w.processes i) call db') :
    SealedOnly { w.set i .idle with db := db', returned := w.returned ++ [call] } := by
  have hknows := h.informed.knows i
  have hplan := committed_plan (h.planIn i) hcommit
  have hunique := (registered_committed h.registered hknows (fun plan _ hcall =>
    hplan plan (by rw [hcall]; rfl)) hcommit).unique
  have hplans := committed_plans hcommit
  have hkeeps : db'.attempts = w.db.attempts → ∀ a ∈ db'.attempts, a.role = .forward → a.lookOrdinal = some 1 →
      a ∈ w.db.attempts ∨ ∃ row ∈ db'.plans, row.familyId = a.familyId
        ∧ row.canonical.judgingStart = some a.context.intervalStart :=
    fun hattempts a ha _ _ => .inl (hattempts ▸ ha)
  change (w.processes i).PresentsSealed w.db at hpresents
  generalize hp : w.processes i = p at hcommit hknows hpresents
  cases hcommit with
  | initialized hinsert =>
    obtain ⟨_, _, _, _, rfl⟩ := insertMeta_ok hinsert
    exact h.sealedOnly.returns hunique hplans (fun _ _ hcall => by cases hcall) (fun _ _ hcall =>
      by cases hcall) (hkeeps rfl)
  | advanced args stored =>
    refine h.sealedOnly.returns hunique hplans (fun _ _ hcall => by cases hcall) (fun _ _ hcall =>
      by cases hcall) (hkeeps ?_)
    rw [advanceMeta_eq]
    split <;> rfl
  | recorded hrecord =>
    obtain ⟨_, _, _, _, rfl⟩ := recordConsultation_ok hrecord
    exact h.sealedOnly.returns hunique hplans (fun _ _ hcall => by cases hcall) (fun _ _ hcall =>
      by cases hcall) (hkeeps rfl)
  | @persisted plan _ now _ hpersist =>
    have hregistered : RegisteredAs db' plan :=
      persisted_registeredAs h.registered hcollision (hplan plan rfl) hknows.1 hpresents hpersist
    refine h.sealedOnly.returns hunique hplans (fun _ _ hcall => by cases hcall) (fun _ _ hcall => ?_) (hkeeps ?_)
    · cases hcall; exact hregistered
    · rcases persistRegistration_ok hpersist with ⟨_, _, _, _, rfl⟩ | ⟨_, _, _, _, rfl⟩ <;> rfl
  | @reserved plan args _ _ hreserve =>
    have hforward := fun hrole : plan.role = .forward =>
      reserved_registeredAs h.registered hcollision (hplan plan rfl) hknows.1 hrole (hpresents hrole) hreserve
    refine h.sealedOnly.returns hunique hplans (fun _ _ hcall hrole => ?_) (fun _ _ hcall =>
      by cases hcall) (fun a ha hrole hone => ?_)
    · cases hcall; exact (hforward hrole).1
    · obtain ⟨a', hattempts, hid, harole, _⟩ := reserve_appends hreserve
      change a ∈ db'.attempts at ha
      rw [hattempts] at ha
      rcases mem_append.mp ha with ha | ha
      · exact .inl ha
      · rw [mem_singleton.mp ha] at hrole hone ⊢
        obtain ⟨⟨row, hrow, hfamily, hsame⟩, b, hb, _, hfirst⟩ := hforward (harole.symm.trans hrole)
        have hab : a' = b := singleton_inj.mp (append_cancel_left (hattempts.symm.trans hb))
        exact .inr ⟨row, hrow, hfamily.trans hid.symm, hsame.judgingStart.symm.trans (hab ▸ hfirst (hab ▸ hone))⟩
  | finished hinsert =>
    obtain ⟨_, rfl⟩ := insertOutcome_ok hinsert
    exact h.sealedOnly.returns hunique hplans (fun _ _ hcall => by cases hcall) (fun _ _ hcall =>
      by cases hcall) (hkeeps rfl)
  | repeated => exact h.sealedOnly.returns hunique hplans (fun _ _ hcall =>
      by cases hcall) (fun _ _ hcall => by cases hcall) (hkeeps rfl)

theorem underSealed_next (hcollision : NoCollision hashes plans)
    (w : World τ) (e : Event τ) (h : UnderSealed hashes plans w)
    (he : PresentsSealed w e ∧ ∀ plan ∈ e.presentedPlan,
      plan ∈ plans) : UnderSealed hashes plans (w.next hashes e) := by
  have hinformed := informed_next w e h.informed
  revert hinformed
  generalize hw' : w.next hashes e = w'
  intro hinformed
  have hhappens : Happens hashes w e w' := hw' ▸ next_happens hashes w e
  cases hhappens with
  | nothing => exact h
  | called hcheck =>
    exact ⟨hinformed, h.registered, fun j => planIn_set h.planIn he.2, h.sealedOnly.kept rfl rfl rfl⟩
  | created hp =>
    exact ⟨hinformed, h.registered.kept rfl rfl, fun j => planIn_set h.planIn trivial,
      h.sealedOnly.kept rfl rfl rfl⟩
  | @read i p hreads =>
    exact ⟨hinformed, h.registered, fun j => planIn_set h.planIn (reads_planIn hreads (h.planIn i)),
      h.sealedOnly.kept rfl rfl rfl⟩
  | ended => exact ⟨hinformed, h.registered, fun j => planIn_set h.planIn trivial, h.sealedOnly.kept rfl rfl rfl⟩
  | @committed i call db' hcommit =>
    have hplan := committed_plan (h.planIn i) hcommit
    exact ⟨hinformed,
      registered_committed h.registered (h.informed.knows i) (fun plan _ hcall =>
        hplan plan (by rw [hcall]; rfl)) hcommit,
      fun j => planIn_set h.planIn trivial, sealedOnly_committed h hcollision he.1 hcommit⟩

/-- **A look is judged under the sealed registration** in every run whose callers present, where a
plan passes the comparison, the role and the judging start its family was sealed with. -/
theorem looks_under_sealed_plan (hashes : Hashes τ) (events : List (Event τ))
    (hcollision : NoCollision hashes (plansOf events))
    (hpresents : Steps (World.next hashes) PresentsSealed World.start events) :
    ∀ front, front <+: events → SealedOnly (World.run hashes front) := by
  have hsteps : Steps (World.next hashes)
      (fun w e => PresentsSealed w e ∧ ∀ plan ∈ e.presentedPlan, plan ∈ plansOf events) World.start events := by
    intro front e he
    refine ⟨hpresents front e he, fun plan hplan => mem_filterMap.mpr ⟨e, ?_, hplan⟩⟩
    exact he.subset (mem_append_right _ (mem_singleton.mpr rfl))
  have hstart : UnderSealed hashes (plansOf events) World.start :=
    ⟨informed_start, ⟨List.Pairwise.nil, fun _ hf => absurd hf not_mem_nil, fun _ hr =>
      absurd hr not_mem_nil⟩, fun _ => trivial,
      ⟨List.Pairwise.nil, fun _ _ hc => absurd hc not_mem_nil, fun _ _ hc => absurd hc not_mem_nil,
        fun _ ha => absurd ha not_mem_nil⟩⟩
  exact fun front hfront => (hsteps.along (underSealed_next hcollision) hstart front hfront).sealedOnly

/-! ## Two runs -/

/-- A forward plan of one look, for a family sealed to be judged from its fifth day. -/
def samplePlan : ProcessEvaluationPlan Unit where
  role := .forward
  procedure := ⟨"code", ⟨1, 1, 4⟩, ()⟩
  procedureDigest := zeroDigest
  familyId := "family"
  lookEndpoints := [10 * dayNs]
  registrationDigest := none
  judgingStart := some (5 * dayNs)
  family_nonempty := by decide
  endpoints_nonempty := by decide
  endpoints_increasing := by decide
  endpoints_follow := by decide
  forward_starts := by decide

def earlierPlan : ProcessEvaluationPlan Unit :=
  { samplePlan with judgingStart := some (2 * dayNs), endpoints_follow := by decide, forward_starts := by decide }

/-- A journal is set up, the sample plan registered, and `plan` presented for its family twice: to
register, and to reserve. -/
def lookRun (plan : ProcessEvaluationPlan Unit) : List (Event Unit) :=
  [.call 0 (.initializeJournal ⟨1, 0, true⟩), .step 0, .step 0, .step 0,
   .call 0 (.persist samplePlan 1), .step 0, .step 0,
   .call 0 (.persist plan 2), .step 0, .step 0,
   .call 0 (.reserve (plan.registered zeroDigest) ⟨0, 9 * dayNs, 2, "attempt"⟩), .step 0, .step 0]

theorem presentsSealed_lookRun : Steps (World.next noHashes) PresentsSealed World.start (lookRun samplePlan) := by
  have hsealed : ∀ plan : ProcessEvaluationPlan Unit, plan.role = .forward → plan.judgingStart = some (5 * dayNs) →
      PresentsSealedStart (World.run noHashes ((lookRun samplePlan).take 7)).db plan := by
    intro plan hrole hjudging family _ _ row hrow _
    obtain rfl := mem_singleton.mp hrow; exact ⟨hrole, hjudging⟩
  refine steps_cons.mpr ⟨trivial, steps_cons.mpr ⟨trivial, steps_cons.mpr ⟨trivial, steps_cons.mpr ⟨trivial, ?_⟩⟩⟩⟩
  refine steps_cons.mpr ⟨trivial, steps_cons.mpr ⟨trivial, steps_cons.mpr ⟨?_, ?_⟩⟩⟩
  · intro family hfound; cases hfound
  refine steps_cons.mpr ⟨trivial, steps_cons.mpr ⟨trivial, steps_cons.mpr ⟨hsealed _ rfl rfl, ?_⟩⟩⟩
  exact steps_cons.mpr ⟨trivial, steps_cons.mpr ⟨trivial, steps_cons.mpr ⟨fun _ => hsealed _ rfl rfl, steps_nil⟩⟩⟩

theorem look_at_sealed_start :
    SealedOnly (World.run noHashes (lookRun samplePlan))
      ∧ (World.run noHashes (lookRun samplePlan)).returned.length = 4
      ∧ (World.run noHashes (lookRun samplePlan)).db.attempts.map (fun a =>
        a.context.intervalStart) = [5 * dayNs] := by
  have hcollision : NoCollision noHashes (plansOf (lookRun samplePlan)) := by
    have hone : ∀ p ∈ plansOf (lookRun samplePlan), p.procedure = samplePlan.procedure := by
      intro p hp
      change p ∈ [samplePlan, samplePlan, samplePlan.registered zeroDigest] at hp
      simp only [mem_cons, not_mem_nil, or_false] at hp
      rcases hp with rfl | rfl | rfl <;> rfl
    exact fun p hp q hq _ => (hone p hp).trans (hone q hq).symm
  exact ⟨looks_under_sealed_plan noHashes _ hcollision presentsSealed_lookRun _ prefix_rfl, by rfl, by rfl⟩

theorem look_before_sealed_start :
    (World.run noHashes (lookRun earlierPlan)).returned
        = [.initializeJournal ⟨1, 0, true⟩, .persist samplePlan 1, .persist earlierPlan 2,
          .reserve (earlierPlan.registered zeroDigest) ⟨0, 9 * dayNs, 2, "attempt"⟩]
      ∧ (World.run noHashes (lookRun earlierPlan)).db.plans.map (fun row => row.canonical.judgingStart)
          = [some (5 * dayNs)]
      ∧ (World.run noHashes (lookRun earlierPlan)).db.attempts.map (fun a => a.context.intervalStart) = [2 * dayNs]
      ∧ ¬ SealedOnly (World.run noHashes (lookRun earlierPlan)) := by
  have hreturned : (World.run noHashes (lookRun earlierPlan)).returned
      = [.initializeJournal ⟨1, 0, true⟩, .persist samplePlan 1, .persist earlierPlan 2,
        .reserve (earlierPlan.registered zeroDigest) ⟨0, 9 * dayNs, 2, "attempt"⟩] := by rfl
  have hplans : (World.run noHashes (lookRun earlierPlan)).db.plans.map (fun row => row.canonical.judgingStart)
      = [some (5 * dayNs)] := by rfl
  refine ⟨hreturned, hplans, by rfl, fun h => ?_⟩
  obtain ⟨row, hrow, _, hsame⟩ := h.persisted earlierPlan 2 (by rw [hreturned]; simp)
  have hjudging : row.canonical.judgingStart ∈ [some (5 * dayNs)] := hplans ▸ mem_map_of_mem hrow
  rw [← hsame.judgingStart] at hjudging; exact absurd hjudging (by decide)

end CryptoPilot.Research
