/- # Looks — a forward look is spent once.

A forward reservation counts the attempts of its family, reads that endpoint off the sealed schedule
and starts behind the horizon, which no row of the two append-only tables exceeds.  So the ordinals
of a family never repeat and the judging intervals of the journal follow one another. -/
import CryptoPilot.Research.JournalRuns

namespace CryptoPilot.Research

open CryptoPilot.Lib List
open CryptoPilot.Lib.Interleave

variable {τ : Type} {hashes : Hashes τ} {db db' : ResearchJournal τ}

def attemptsOf (db : ResearchJournal τ) (familyId : String) : List AttemptRow :=
  db.attempts.filter fun row => row.familyId = familyId

structure Look (db : ResearchJournal τ) (a : AttemptRow) (family : FamilyRow) (k : ℕ)
    (endpoint : Stamp) : Prop where
  isSealed : family ∈ db.families ∧ family.familyId = a.familyId
  ordinal : a.lookOrdinal = some k
  positive : 1 ≤ k
  budget : (k : ℤ) ≤ family.lookBudget
  schedule : k ≤ family.lookEndpoints.length
  endpointAt : family.lookEndpoints[k - 1]? = some endpoint
  nonempty : a.context.intervalStart < a.context.intervalEnd
  ends : a.context.intervalEnd ≤ endpoint
  registered : family.registeredAt < a.context.intervalStart
  spent : k ≤ (attemptsOf db a.familyId).length

structure LooksSound (db : ResearchJournal τ) : Prop where
  families : db.families.Pairwise fun f g => f.familyId ≠ g.familyId
  interval : ∀ a ∈ db.attempts, a.context.intervalEnd = a.requestedEnd
  look : ∀ a ∈ db.attempts, a.role = .forward → ∃ family k endpoint, Look db a family k endpoint
  distinct : db.attempts.Pairwise fun a b => a.role = .forward → b.role = .forward → a.familyId = b.familyId →
    a.lookOrdinal ≠ b.lookOrdinal
  disjoint : db.attempts.Pairwise fun a b => a.role = .forward → b.role = .forward →
    a.context.intervalEnd < b.context.intervalStart

/-- A later journal has all rows of an earlier one, and its new forward looks start behind what that
had consulted. -/
structure LooksExtend (db db' : ResearchJournal τ) : Prop where
  families : db.families <+: db'.families
  consultations : db.consultations <+: db'.consultations
  outcomes : db.outcomes <+: db'.outcomes
  attempts : ∃ new, db'.attempts = db.attempts ++ new ∧ ∀ a ∈ new, a.role = .forward →
    (∀ c ∈ db.consultations, c.end < a.context.intervalStart) ∧
      ∀ b ∈ db.attempts, b.requestedEnd < a.context.intervalStart

theorem LooksExtend.refl (db : ResearchJournal τ) : LooksExtend db db :=
  ⟨prefix_rfl, prefix_rfl, prefix_rfl, [], by simp, by simp⟩

theorem LooksExtend.kept (hfamilies : db'.families = db.families) (hattempts : db'.attempts = db.attempts)
    (hconsultations : db.consultations <+: db'.consultations) (houtcomes : db.outcomes <+: db'.outcomes) :
    LooksExtend db db' :=
  ⟨by rw [hfamilies], hconsultations, houtcomes, [], by rw [hattempts, append_nil], by simp⟩

theorem LooksExtend.trans {db₁ db₂ db₃ : ResearchJournal τ} (h : LooksExtend db₁ db₂) (h' : LooksExtend db₂ db₃) :
    LooksExtend db₁ db₃ := by
  obtain ⟨new, hnew, hfirst⟩ := h.attempts
  obtain ⟨new', hnew', hsecond⟩ := h'.attempts
  refine ⟨h.families.trans h'.families, h.consultations.trans h'.consultations, h.outcomes.trans h'.outcomes,
    new ++ new', ?_, ?_⟩
  · rw [hnew', hnew, append_assoc]
  · intro a ha hrole
    rcases mem_append.mp ha with ha | ha
    · exact hfirst a ha hrole
    · obtain ⟨hc, hb⟩ := hsecond a ha hrole
      refine ⟨fun c hc' => hc c (h.consultations.subset hc'), fun b hb' => hb b ?_⟩
      rw [hnew]; exact mem_append_left _ hb'

structure LookTablesKept (db db' : ResearchJournal τ) : Prop where
  families : db'.families = db.families
  attempts : db'.attempts = db.attempts

variable {family : FamilyRow} {plan : ProcessEvaluationPlan τ} {attempt : ResearchAttempt}

theorem Look.mono {a : AttemptRow} {k : ℕ} {endpoint : Stamp} (h : Look db a family k endpoint)
    (hfamilies : db.families <+: db'.families) (hattempts : db.attempts <+: db'.attempts) :
    Look db' a family k endpoint :=
  { h with
    isSealed := ⟨hfamilies.subset h.isSealed.1, h.isSealed.2⟩
    spent := h.spent.trans (hattempts.filter _).length_le }

theorem LooksSound.kept (h : LooksSound db) (hkept : LookTablesKept db db') : LooksSound db' := by
  refine ⟨?_, ?_, fun a ha hrole => ?_, ?_, ?_⟩
  · rw [hkept.families]; exact h.families
  · rw [hkept.attempts]; exact h.interval
  · rw [hkept.attempts] at ha
    obtain ⟨family, k, endpoint, hlook⟩ := h.look a ha hrole
    exact ⟨family, k, endpoint, hlook.mono (by rw [hkept.families]) (by rw [hkept.attempts])⟩
  · rw [hkept.attempts]; exact h.distinct
  · rw [hkept.attempts]; exact h.disjoint

theorem LooksSound.sealed {row : FamilyRow} (h : LooksSound db) (hfresh : familyOf db row.familyId = none)
    (hfamilies : db'.families = db.families ++ [row])
    (hattempts : db'.attempts = db.attempts) : LooksSound db' := by
  refine ⟨?_, ?_, fun a ha hrole => ?_, ?_, ?_⟩
  · rw [hfamilies, pairwise_append]
    refine ⟨h.families, pairwise_singleton _ _, fun f hf g hg hfg => ?_⟩
    rw [mem_singleton.mp hg] at hfg
    have hne := find?_eq_none.mp hfresh f hf; simp only [decide_eq_true_eq] at hne; exact hne hfg
  · rw [hattempts]; exact h.interval
  · rw [hattempts] at ha
    obtain ⟨family, k, endpoint, hlook⟩ := h.look a ha hrole
    exact ⟨family, k, endpoint, hlook.mono (by rw [hfamilies]; exact prefix_append _ _) (by rw [hattempts])⟩
  · rw [hattempts]; exact h.distinct
  · rw [hattempts]; exact h.disjoint

theorem familyOf_mem {familyId : String} (h : familyOf db familyId = some family) :
    family ∈ db.families ∧ family.familyId = familyId :=
  ⟨mem_of_find?_eq_some h, by simpa using find?_some h⟩

theorem sealedColumns_eq {row : FamilyRow} (h : sealedColumns row plan = true) :
    row.procedureDigest = plan.procedureDigest
      ∧ row.procedureBudget = plan.procedure.inference.procedureBudget
      ∧ row.lookBudget = plan.procedure.inference.lookBudget
      ∧ row.endpointBudget = plan.procedure.inference.endpointBudget
      ∧ row.lookEndpoints = plan.lookEndpoints := by
  simp only [sealedColumns, Bool.and_eq_true, decide_eq_true_eq] at h
  obtain ⟨⟨⟨⟨hd, hp⟩, hl⟩, he⟩, hs⟩ := h; exact ⟨hd, hp, hl, he, hs⟩

theorem reserve_appends {args : ReserveArgs} (h : reserveAttempt db plan args = .ok (attempt, db')) :
    ∃ a, db'.attempts = db.attempts ++ [a] ∧ a.familyId = plan.familyId ∧ a.role = plan.role
      ∧ a.context.intervalEnd = a.requestedEnd
      ∧ (∃ horizon, lockedHorizon db = .ok horizon
        ∧ (a.role = .forward → ∃ slot family planStart, Granted db plan args.end horizon slot family planStart
          ∧ a.lookOrdinal = some slot.lookOrdinal ∧ a.context.intervalStart = slot.judgingStart
          ∧ a.context.intervalEnd = args.end))
      ∧ db'.families = db.families := by
  obtain ⟨horizon, judgingStart, slot, hstart, hhorizon, hslot, rfl⟩ := reserveAttempt_ok h
  refine ⟨_, reserveRows_attempts .., rfl, rfl, rfl, ⟨horizon, hhorizon, fun hrole => ?_⟩, reserveRows_families ..⟩
  obtain ⟨look, family, planStart, rfl, rfl, hgranted⟩ := judgingStartOf_forward hrole hslot
  exact ⟨look, family, planStart, hgranted, rfl, rfl, rfl⟩

theorem Granted.look {a : AttemptRow} {horizon : Stamp} {slot : LookSlot} {planStart : Stamp}
    (h : Granted db plan a.context.intervalEnd horizon slot family planStart)
    (hfamily : a.familyId = plan.familyId) (hordinal : a.lookOrdinal = some slot.lookOrdinal)
    (hstart : a.context.intervalStart = slot.judgingStart) (hfamilies : db'.families = db.families)
    (hattempts : db'.attempts = db.attempts ++ [a]) : Look db' a family slot.lookOrdinal slot.endpoint := by
  obtain ⟨hmem, hid⟩ := familyOf_mem h.found
  obtain ⟨_, _, hbudget, _, _⟩ := sealedColumns_eq h.columns
  have hpositive : 1 ≤ slot.lookOrdinal := by rw [h.ordinal]; exact Nat.le_add_left _ _
  have hlength : slot.lookOrdinal - 1 < family.lookEndpoints.length := by
    obtain ⟨hlt, _⟩ := List.getElem?_eq_some_iff.mp h.endpoint; exact hlt
  refine ⟨⟨hfamilies ▸ hmem, hid.trans hfamily.symm⟩, hordinal, hpositive, ?_, ?_, h.endpoint,
    a.context.interval_nonempty, h.ends, ?_, ?_⟩
  · rw [hbudget]; exact h.budget
  · omega
  · rw [hstart]; exact h.registeredBefore
  · have hcount : attemptsOf db' a.familyId = attemptsOf db a.familyId ++ [a] := by
      simp [attemptsOf, hattempts]
    rw [hcount, h.ordinal, length_append, ← hfamily]; exact le_rfl

theorem LooksSound.reserved {args : ReserveArgs}
    (h : LooksSound db) (hreserve : reserveAttempt db plan args = .ok (attempt, db')) : LooksSound db' := by
  obtain ⟨a, hattempts, hid, hrole, hend, ⟨horizon, hhorizon, hforward⟩, hfamilies⟩ := reserve_appends hreserve
  have hprefix : db.attempts <+: db'.attempts := hattempts ▸ prefix_append _ _
  refine ⟨?_, ?_, ?_, ?_, ?_⟩
  · rw [hfamilies]; exact h.families
  · intro b hb
    rw [hattempts] at hb
    rcases mem_append.mp hb with hb | hb
    · exact h.interval b hb
    · rw [mem_singleton.mp hb]; exact hend
  · intro b hb hbrole
    rw [hattempts] at hb
    rcases mem_append.mp hb with hb | hb
    · obtain ⟨family, k, endpoint, hlook⟩ := h.look b hb hbrole
      exact ⟨family, k, endpoint, hlook.mono (by rw [hfamilies]) hprefix⟩
    · rw [mem_singleton.mp hb] at hbrole ⊢
      obtain ⟨slot, family, planStart, hgranted, hordinal, hstart, hinterval⟩ := hforward hbrole
      exact ⟨family, _, _, (hinterval ▸ hgranted).look hid hordinal hstart hfamilies hattempts⟩
  · rw [hattempts, pairwise_append]
    refine ⟨h.distinct, pairwise_singleton _ _, fun b hb a' ha' hbrole harole hfam => ?_⟩
    rw [mem_singleton.mp ha'] at harole hfam ⊢
    obtain ⟨slot, _, _, hgranted, hordinal, _, _⟩ := hforward harole
    obtain ⟨_, k, _, hlook⟩ := h.look b hb hbrole
    -- the new ordinal is the number of the family's attempts and one, which no earlier look reaches
    have hspent : k ≤ (attemptsOf db plan.familyId).length := by rw [← hid, ← hfam]; exact hlook.spent
    rw [hlook.ordinal, hordinal, hgranted.ordinal, nextOrdinal]
    simp only [ne_eq, Option.some.injEq]
    unfold attemptsOf at hspent; omega
  · rw [hattempts, pairwise_append]
    refine ⟨h.disjoint, pairwise_singleton _ _, fun b hb a' ha' _ harole => ?_⟩
    rw [mem_singleton.mp ha'] at harole ⊢
    obtain ⟨slot, _, _, hgranted, _, hstart, _⟩ := hforward harole
    rw [hstart, h.interval b hb]
    exact lt_of_le_of_lt ((lockedHorizon_ge hhorizon).2 b hb) hgranted.unseen

variable {call : JournalCall τ}

theorem looksSound_committed {p : Process τ} (h : LooksSound db)
    (hcommit : Committed hashes db p call db') : LooksSound db' := by
  cases hcommit with
  | initialized hinsert =>
    obtain ⟨_, _, _, _, rfl⟩ := insertMeta_ok hinsert; exact h.kept ⟨rfl, rfl⟩
  | advanced args stored =>
    rw [advanceMeta_eq]
    split
    · exact h.kept ⟨rfl, rfl⟩
    · exact h
  | recorded hrecord =>
    obtain ⟨_, _, _, _, rfl⟩ := recordConsultation_ok hrecord; exact h.kept ⟨rfl, rfl⟩
  | persisted hpersist =>
    rcases persistRegistration_ok hpersist with ⟨_, _, _, _, rfl⟩ | ⟨hfresh, _, _, _, rfl⟩
    · exact h
    · exact h.sealed hfresh rfl rfl
  | reserved hreserve => exact h.reserved hreserve
  | finished hinsert =>
    obtain ⟨_, rfl⟩ := insertOutcome_ok hinsert; exact h.kept ⟨rfl, rfl⟩
  | repeated => exact h

theorem looksExtend_committed {p : Process τ} (hcommit : Committed hashes db p call db') :
    LooksExtend db db' := by
  cases hcommit with
  | initialized hinsert =>
    obtain ⟨_, _, _, _, rfl⟩ := insertMeta_ok hinsert; exact .kept rfl rfl prefix_rfl prefix_rfl
  | advanced args stored =>
    rw [advanceMeta_eq]
    split
    · exact .kept rfl rfl prefix_rfl prefix_rfl
    · exact .refl db
  | recorded hrecord =>
    obtain ⟨_, _, _, _, rfl⟩ := recordConsultation_ok hrecord
    exact .kept rfl rfl (prefix_append _ _) prefix_rfl
  | persisted hpersist =>
    rcases persistRegistration_ok hpersist with ⟨_, _, _, _, rfl⟩ | ⟨_, _, _, _, rfl⟩
    · exact .refl _
    · exact ⟨prefix_append _ _, prefix_rfl, prefix_rfl, [], (append_nil _).symm, by simp⟩
  | reserved hreserve =>
    obtain ⟨a, hattempts, _, _, _, ⟨horizon, hhorizon, hforward⟩, hfamilies⟩ := reserve_appends hreserve
    obtain ⟨_, _, _, _, _, _, rfl⟩ := reserveAttempt_ok hreserve
    obtain ⟨row, _, hconsultations⟩ := reserveRows_consultations ..
    refine ⟨by rw [hfamilies], by rw [hconsultations]; exact prefix_append _ _, ?_, [a], hattempts, ?_⟩
    · unfold reserveRows
      split <;> exact prefix_rfl
    · intro a' ha' hrole
      rw [mem_singleton.mp ha'] at hrole ⊢
      obtain ⟨slot, _, _, hgranted, _, hstart, _⟩ := hforward hrole
      obtain ⟨hc, hb⟩ := lockedHorizon_ge hhorizon
      rw [hstart]
      exact ⟨fun c hc' => (hc c hc').trans_lt hgranted.unseen, fun b hb' => (hb b hb').trans_lt hgranted.unseen⟩
  | finished hinsert =>
    obtain ⟨_, rfl⟩ := insertOutcome_ok hinsert; exact .kept rfl rfl prefix_rfl (prefix_append _ _)
  | repeated => exact .refl db

theorem looksSound_next (w : World τ) (e : Event τ) (h : LooksSound w.db) : LooksSound (w.next hashes e).db := by
  rcases (next_happens hashes w e).tables with hdb | hdb | ⟨p, call, hcommit⟩
  · rw [hdb]; exact h
  · rw [hdb]; exact h.kept ⟨rfl, rfl⟩
  · exact looksSound_committed h hcommit

theorem looksExtend_next (w : World τ) (e : Event τ) : LooksExtend w.db (w.next hashes e).db := by
  rcases (next_happens hashes w e).tables with hdb | hdb | ⟨p, call, hcommit⟩
  · rw [hdb]; exact .refl _
  · rw [hdb]; exact .kept rfl rfl prefix_rfl prefix_rfl
  · exact looksExtend_committed hcommit

theorem looksSound_absent : LooksSound (ResearchJournal.absent : ResearchJournal τ) :=
  ⟨List.Pairwise.nil, fun _ ha => absurd ha not_mem_nil, fun _ ha => absurd ha not_mem_nil,
    List.Pairwise.nil, List.Pairwise.nil⟩

/-- **Forward looks are spent once and never overlap**, in every interleaving of the calls. -/
theorem forward_looks_spent_once (hashes : Hashes τ) (events : List (Event τ)) :
    LooksSound (World.run hashes events).db ∧
      ∀ front, front <+: events → LooksExtend (World.run hashes front).db (World.run hashes events).db := by
  constructor
  · exact (Along.of_step (I := fun w : World τ => LooksSound w.db) looksSound_absent
      fun e _ w hw => looksSound_next w e hw).finish
  · intro front hfront
    exact execute_related (R := fun w w' : World τ => LooksExtend w.db w'.db) (fun w => .refl w.db)
      (fun _ _ _ h h' => h.trans h') looksExtend_next hfront

end CryptoPilot.Research
