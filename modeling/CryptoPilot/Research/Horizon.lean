/- # Horizon — when the consulted horizon never moves backwards.

The horizon is the greatest of a stored boundary and the ends in two append-only tables.  `record`
and `reserve` read and write the boundary in one transaction.  `initialize` reads it in one
statement and writes it in a later one, so that two of them can lose an update.  `horizon_holds_iff`
says that this is the only way the horizon falls, and that where it does not happen every boundary
and end handed in stays below it. -/
import CryptoPilot.Research.JournalRuns

namespace CryptoPilot.Research

open CryptoPilot.Lib List
open CryptoPilot.Lib.Interleave

variable {τ : Type} {hashes : Hashes τ} {db db' : ResearchJournal τ} {w : World τ} {e : Event τ}

def JournalCall.boundary : JournalCall τ → Option Stamp
  | .initializeJournal args => some args.legacyConsultedThrough
  | .record args => some args.end
  | .reserve _ args => some args.end
  | .persist _ _ | .finish _ => none

/-- The horizon is at `b` or behind. -/
def ReachesTo (db : ResearchJournal τ) (b : Stamp) : Prop :=
  ∃ horizon, consultedProcessHorizon db = .ok horizon ∧ b ≤ horizon

/-- The horizon of a later journal is not before that of an earlier one. -/
def Rises (db db' : ResearchJournal τ) :
    Prop := ∀ horizon, consultedProcessHorizon db = .ok horizon → ReachesTo db' horizon

/-- The horizon never falls in a run, and is at or behind what every returned call handed in. -/
structure HorizonHolds (hashes : Hashes τ) (events : List (Event τ)) : Prop where
  rises : ∀ front front', front <+: front' → front' <+: events →
    Rises (World.run hashes front).db (World.run hashes front').db
  covers : ∀ front, front <+: events → ∀ call ∈ (World.run hashes front).returned, ∀ b ∈ call.boundary,
    ReachesTo (World.run hashes front).db b

/-- An `initialize` that writes its legacy boundary over a stored one: that one is not behind it, or
some consultation or attempt ends there or later. -/
def OverwritesLess (w : World τ) : Event τ → Prop
  | .step i =>
    match w.processes i with
    | .boundaryRead args stored =>
      stored < args.legacyConsultedThrough → ∀ boundary, w.db.consultedThrough = some boundary →
        boundary ≤ args.legacyConsultedThrough ∨ ∃ last ∈ consultedEnds w.db, boundary ≤ last
    | _ => True
  | _ => True

theorem consultedProcessHorizon_eq_ok {horizon : Stamp} :
    consultedProcessHorizon db = .ok horizon ↔ requireJournal db = .ok () ∧ lockedHorizon db = .ok horizon := by
  unfold consultedProcessHorizon
  rw [bind_eq_ok]; exact ⟨fun ⟨_, h, h'⟩ => ⟨h, h'⟩, fun ⟨h, h'⟩ => ⟨(), h, h'⟩⟩

theorem Rises.refl (db : ResearchJournal τ) : Rises db db := fun horizon h => ⟨horizon, h, le_rfl⟩

theorem Rises.trans {db₁ db₂ db₃ : ResearchJournal τ} (h : Rises db₁ db₂) (h' : Rises db₂ db₃) : Rises db₁ db₃ := by
  intro horizon hh
  obtain ⟨second, hsecond, hle⟩ := h horizon hh
  obtain ⟨third, hthird, hle'⟩ := h' second hsecond; exact ⟨third, hthird, hle.trans hle'⟩

theorem ReachesTo.rises {b : Stamp} (h : ReachesTo db b) (hrises : Rises db db') : ReachesTo db' b := by
  obtain ⟨horizon, hh, hle⟩ := h
  obtain ⟨later, hlater, hle'⟩ := hrises horizon hh; exact ⟨later, hlater, hle.trans hle'⟩

/-! ## What a process knows of the journal it works on -/

def Process.Knows (hashes : Hashes τ) (db : ResearchJournal τ) : Process τ → Prop
  | .idle => True
  | .called call => call.check hashes = .ok ()
  | .schemaReady _ | .metaMissing _ => db.created = true
  | .opened call => call.check hashes = .ok () ∧ requireJournal db = .ok ()
  | .metaFound _ | .boundaryRead _ _ | .reservationRead _ | .outcomeMissing _ => requireJournal db = .ok ()

/-- The rows of `meta` are written together. -/
def MetaTogether (db : ResearchJournal τ) : Prop :=
  ∀ version, db.schemaVersion = some version →
    version = journalSchemaVersion ∧ db.created = true ∧ ∃ boundary, db.consultedThrough = some boundary

structure Informed (hashes : Hashes τ) (w : World τ) : Prop where
  together : MetaTogether w.db
  knows : ∀ i, (w.processes i).Knows hashes w.db

structure StaysOpen (db db' : ResearchJournal τ) : Prop where
  created : db.created = true → db'.created = true
  version : ∀ v, db.schemaVersion = some v → db'.schemaVersion = some v

theorem StaysOpen.requireJournal (h : StaysOpen db db') (hopen : requireJournal db = .ok ()) :
    Research.requireJournal db' = .ok () := by
  rw [requireJournal_eq_ok] at hopen ⊢; exact ⟨h.created hopen.1, h.version _ hopen.2⟩

variable {p : Process τ} {call : JournalCall τ}

theorem StaysOpen.knows (h : StaysOpen db db') (hp : p.Knows hashes db) : p.Knows hashes db' := by
  cases p with
  | idle => trivial
  | called call => exact hp
  | schemaReady args | metaMissing args => exact h.created hp
  | opened call => exact ⟨hp.1, h.requireJournal hp.2⟩
  | metaFound args | boundaryRead args stored | reservationRead args | outcomeMissing args =>
    exact h.requireJournal hp

/-- The journal is open and its boundary, or one of the ends, is at `b` or behind. -/
theorem ReachesTo.intro {b stored : Stamp} (hopen : requireJournal db = .ok ())
    (hstored : db.consultedThrough = some stored) (hb : b ≤ stored ∨ ∃ last ∈ consultedEnds db, b ≤ last) :
    ReachesTo db b :=
  ⟨_, consultedProcessHorizon_eq_ok.mpr ⟨hopen, lockedHorizon_eq_ok.mpr ⟨stored, hstored, rfl⟩⟩,
    le_foldl_max_iff.mpr hb⟩

theorem Rises.of_covered (hstays : StaysOpen db db') (hends : ∀ last ∈ consultedEnds db, last ∈ consultedEnds db')
    (hstored : ∀ stored, db.consultedThrough = some stored →
      ∃ stored', db'.consultedThrough = some stored' ∧
        (stored ≤ stored' ∨ ∃ last ∈ consultedEnds db', stored ≤ last)) :
    Rises db db' := by
  intro horizon hh
  obtain ⟨hopen, hlocked⟩ := consultedProcessHorizon_eq_ok.mp hh
  obtain ⟨stored, hs, rfl⟩ := lockedHorizon_eq_ok.mp hlocked
  obtain ⟨stored', hs', hle⟩ := hstored stored hs
  refine ⟨_, consultedProcessHorizon_eq_ok.mpr
    ⟨hstays.requireJournal hopen, lockedHorizon_eq_ok.mpr ⟨stored', hs', rfl⟩⟩, ?_⟩
  exact foldl_max_le_iff.mpr ⟨le_foldl_max_iff.mpr hle, fun last hlast => le_foldl_max_of_mem (hends last hlast)⟩

theorem Rises.of_kept (hstays : StaysOpen db db') (hstored : db'.consultedThrough = db.consultedThrough)
    (hends : consultedEnds db' = consultedEnds db) : Rises db db' :=
  .of_covered hstays (fun _ hlast => hends ▸ hlast) fun stored hs => ⟨stored, hstored.trans hs, .inl le_rfl⟩

theorem rises_setConsulted_iff {t boundary : Stamp} (hopen : requireJournal db = .ok ())
    (hstored : db.consultedThrough = some boundary) :
    Rises db (db.setConsulted t) ↔ boundary ≤ t ∨ ∃ last ∈ consultedEnds db, boundary ≤ last := by
  have hset : (db.setConsulted t).consultedThrough = some t := by simp [ResearchJournal.setConsulted, hstored]
  constructor
  · intro h
    obtain ⟨later, hlater, hle⟩ := h _ (consultedProcessHorizon_eq_ok.mpr
      ⟨hopen, lockedHorizon_eq_ok.mpr ⟨boundary, hstored, rfl⟩⟩)
    obtain ⟨stored', hs', rfl⟩ := lockedHorizon_eq_ok.mp (consultedProcessHorizon_eq_ok.mp hlater).2
    rw [hset] at hs'; cases hs'; exact le_foldl_max_iff.mp ((foldl_max_le_iff.mp hle).1)
  · intro h
    refine .of_covered ⟨fun hc => hc, fun _ hv => hv⟩ (fun last hlast => hlast) fun stored hs => ⟨t, hset, ?_⟩
    rw [hstored] at hs; cases hs; exact h

theorem committed_stays (hcommit : Committed hashes db p call db') : StaysOpen db db' := by
  cases hcommit with
  | initialized hinsert =>
    obtain ⟨hnone, _, _, _, rfl⟩ := insertMeta_ok hinsert
    exact ⟨fun hc => hc, fun v hv => by rw [hnone] at hv; cases hv⟩
  | advanced args stored =>
    rw [advanceMeta_eq]
    split <;> exact ⟨fun hc => hc, fun _ hv => hv⟩
  | recorded hrecord =>
    obtain ⟨_, _, _, _, rfl⟩ := recordConsultation_ok hrecord; exact ⟨fun hc => hc, fun _ hv => hv⟩
  | persisted hpersist =>
    rcases persistRegistration_ok hpersist with ⟨_, _, _, _, rfl⟩ | ⟨_, _, _, _, rfl⟩ <;>
      exact ⟨fun hc => hc, fun _ hv => hv⟩
  | reserved hreserve =>
    obtain ⟨_, _, _, _, _, _, rfl⟩ := reserveAttempt_ok hreserve
    unfold reserveRows
    split <;> exact ⟨fun hc => hc, fun _ hv => hv⟩
  | finished hinsert =>
    obtain ⟨_, rfl⟩ := insertOutcome_ok hinsert; exact ⟨fun hc => hc, fun _ hv => hv⟩
  | repeated => exact ⟨fun hc => hc, fun _ hv => hv⟩

theorem committed_together (h : MetaTogether db) (hp : p.Knows hashes db)
    (hcommit : Committed hashes db p call db') : MetaTogether db' := by
  cases hcommit with
  | initialized hinsert =>
    obtain ⟨_, first, _, _, rfl⟩ := insertMeta_ok hinsert
    intro version hv; cases hv; exact ⟨rfl, hp, first, rfl⟩
  | advanced args stored =>
    rw [advanceMeta_eq]
    split
    · intro version hv
      obtain ⟨hversion, hcreated, boundary, hboundary⟩ := h version hv
      exact ⟨hversion, hcreated, args.legacyConsultedThrough, by simp [ResearchJournal.setConsulted, hboundary]⟩
    · exact h
  | recorded hrecord =>
    obtain ⟨_, _, _, _, rfl⟩ := recordConsultation_ok hrecord
    intro version hv
    obtain ⟨hversion, hcreated, _⟩ := h version hv; exact ⟨hversion, hcreated, _, rfl⟩
  | persisted hpersist =>
    rcases persistRegistration_ok hpersist with ⟨_, _, _, _, rfl⟩ | ⟨_, _, _, _, rfl⟩ <;> exact h
  | reserved hreserve =>
    obtain ⟨_, _, _, _, _, _, rfl⟩ := reserveAttempt_ok hreserve
    intro version hv
    have hv' : db.schemaVersion = some version := by
      unfold reserveRows at hv
      split at hv <;> exact hv
    obtain ⟨hversion, hcreated, boundary, hboundary⟩ := h version hv'
    refine ⟨hversion, ?_, ?_⟩
    · unfold reserveRows
      split <;> exact hcreated
    · rw [reserveRows_consultedThrough]
      split
      · exact ⟨_, by rw [hboundary]; rfl⟩
      · exact ⟨_, hboundary⟩
  | finished hinsert =>
    obtain ⟨_, rfl⟩ := insertOutcome_ok hinsert; exact h
  | repeated => exact h

theorem committed_rises (hp : ∀ args stored, p ≠ .boundaryRead args stored)
    (hcommit : Committed hashes db p call db') : Rises db db' := by
  have hstays := committed_stays hcommit
  cases hcommit with
  | initialized hinsert =>
    obtain ⟨hnone, _⟩ := insertMeta_ok hinsert
    intro horizon hh
    obtain ⟨hopen, _⟩ := consultedProcessHorizon_eq_ok.mp hh
    rw [requireJournal_eq_ok, hnone] at hopen; cases hopen.2
  | advanced args stored => exact absurd rfl (hp args stored)
  | recorded hrecord =>
    obtain ⟨row, stored, _, hstored, rfl⟩ := recordConsultation_ok hrecord
    refine .of_covered hstays (fun last hlast => ?_) fun s hs => ⟨_, rfl, .inl ?_⟩
    · rcases mem_append.mp hlast with h | h
      · exact mem_append_left _ (by rw [map_append]; exact mem_append_left _ h)
      · exact mem_append_right _ h
    · rw [hstored] at hs; cases hs; exact le_max_left _ _
  | persisted hpersist =>
    rcases persistRegistration_ok hpersist with ⟨_, _, _, _, rfl⟩ | ⟨_, _, _, _, rfl⟩
    · exact .refl _
    · exact .of_kept hstays rfl rfl
  | @reserved plan args attempt db' hreserve =>
    obtain ⟨horizon, judgingStart, slot, hstart, hhorizon, _, rfl⟩ := reserveAttempt_ok hreserve
    obtain ⟨stored, hstored, hfold⟩ := lockedHorizon_eq_ok.mp hhorizon
    obtain ⟨row, _, hrow⟩ := reserveRows_consultations args horizon slot
      (contextOf db plan args horizon judgingStart slot hstart)
    refine .of_covered hstays (fun last hlast => ?_) fun s hs => ?_
    · rw [consultedEnds, hrow, reserveRows_attempts, map_append, map_append]
      rcases mem_append.mp hlast with h | h
      · exact mem_append_left _ (mem_append_left _ h)
      · exact mem_append_right _ (mem_append_left _ h)
    · rw [hstored] at hs
      cases hs
      rw [reserveRows_consultedThrough, hstored]
      split
      next hgt =>
        have hle : stored ≤ horizon := (foldl_max_le_iff.mp hfold.le).1
        exact ⟨_, rfl, .inl (hle.trans hgt.le)⟩
      next => exact ⟨_, rfl, .inl le_rfl⟩
  | finished hinsert =>
    obtain ⟨_, rfl⟩ := insertOutcome_ok hinsert; exact .of_kept hstays rfl rfl
  | repeated => exact .refl _

theorem committed_reaches (hp : p.Knows hashes db) (htogether : MetaTogether db)
    (hread : ∀ args stored, p = .boundaryRead args stored → ReachesTo db stored)
    (hcommit : Committed hashes db p call db') : ∀ b ∈ call.boundary, ReachesTo db' b := by
  have hstays := committed_stays hcommit
  cases hcommit with
  | initialized hinsert =>
    rintro b ⟨⟩
    obtain ⟨_, first, _, hle, rfl⟩ := insertMeta_ok hinsert
    exact .intro (requireJournal_eq_ok.mpr ⟨hp, rfl⟩) rfl (.inl hle)
  | advanced args stored =>
    rintro b ⟨⟩
    rw [advanceMeta_eq] at hstays ⊢
    split
    next hlt =>
      obtain ⟨_, _, boundary, hboundary⟩ := htogether _ (requireJournal_eq_ok.mp hp).2
      have hstored : (db.setConsulted args.legacyConsultedThrough).consultedThrough =
        some args.legacyConsultedThrough := by
        simp [ResearchJournal.setConsulted, hboundary]
      exact .intro (requireJournal_eq_ok.mpr (requireJournal_eq_ok.mp hp)) hstored (.inl le_rfl)
    next hge =>
      obtain ⟨horizon, hh, hle⟩ := hread args stored rfl
      exact ⟨horizon, hh, (not_lt.mp hge).trans hle⟩
  | recorded hrecord =>
    rintro b ⟨⟩
    obtain ⟨row, stored, _, _, rfl⟩ := recordConsultation_ok hrecord
    exact .intro (hstays.requireJournal hp.2) rfl (.inl (le_max_right _ _))
  | persisted hpersist | finished | repeated => rintro b ⟨⟩
  | @reserved plan args attempt db' hreserve =>
    rintro b ⟨⟩
    obtain ⟨horizon, judgingStart, slot, hstart, hhorizon, _, rfl⟩ := reserveAttempt_ok hreserve
    obtain ⟨stored, hstored, _⟩ := lockedHorizon_eq_ok.mp hhorizon
    have hthere : ∃ stored', (reserveRows db plan args horizon slot
        (contextOf db plan args horizon judgingStart slot hstart)).consultedThrough = some stored' := by
      rw [reserveRows_consultedThrough, hstored]
      split <;> exact ⟨_, rfl⟩
    obtain ⟨stored', hstored'⟩ := hthere
    refine .intro (hstays.requireJournal hp.2) hstored' (.inr ⟨args.end, ?_, le_rfl⟩)
    rw [consultedEnds, reserveRows_attempts, map_append]
    exact mem_append_right _ (mem_append_right _ (mem_singleton.mpr rfl))

/-! ## The step lemmas -/

theorem knows_set {i j : ℕ} (hw : ∀ j, (w.processes j).Knows hashes db) (hp : p.Knows hashes db) :
    ((w.set i p).processes j).Knows hashes db := by
  by_cases h : j = i
  · subst h
    rw [World.set_self]; exact hp
  · rw [World.set_of_ne h]; exact hw j

theorem reads_knows {p p' : Process τ} (h : Reads db p p') (hp : p.Knows hashes db) : p'.Knows hashes db := by
  cases h with
  | idle => trivial
  | opened hopen => exact ⟨hp, hopen⟩
  | schemaReady => exact (requireJournal_eq_ok.mp hp.2).1
  | metaMissing | boundaryRead | outcomeMissing => exact hp
  | metaFound hversion => exact requireJournal_eq_ok.mpr ⟨hp, hversion⟩
  | reservationRead => exact hp.2

theorem informed_next (w : World τ) (e : Event τ) (h : Informed hashes w) : Informed hashes (w.next hashes e) := by
  generalize hw' : w.next hashes e = w'
  have hhappens : Happens hashes w e w' := hw' ▸ next_happens hashes w e
  cases hhappens with
  | nothing => exact h
  | called hcheck => exact ⟨h.together, fun j => knows_set h.knows hcheck⟩
  | @created i args hp =>
    refine ⟨fun version hv => ?_, fun j => ?_⟩
    · obtain ⟨hversion, _, hboundary⟩ := h.together version hv; exact ⟨hversion, rfl, hboundary⟩
    · have hstays : StaysOpen w.db { w.db with created := true } := ⟨fun _ => rfl, fun _ hv => hv⟩
      exact knows_set (fun j => hstays.knows (h.knows j)) rfl
  | read hreads => exact ⟨h.together, fun j => knows_set h.knows (reads_knows hreads (h.knows _))⟩
  | ended => exact ⟨h.together, fun j => knows_set h.knows trivial⟩
  | committed hcommit =>
    exact ⟨committed_together h.together (h.knows _) hcommit,
      fun j => knows_set (fun j => (committed_stays hcommit).knows (h.knows j)) trivial⟩

theorem informed_start : Informed hashes (World.start : World τ) := ⟨nofun, fun _ => trivial⟩

theorem rises_next (w : World τ) (e : Event τ)
    (he : ∀ i, e = .step i → ∀ args stored, w.processes i ≠ .boundaryRead args stored) :
    Rises w.db (w.next hashes e).db := by
  generalize hw' : w.next hashes e = w'
  have hhappens : Happens hashes w e w' := hw' ▸ next_happens hashes w e
  cases hhappens with
  | nothing | called | read | ended => exact .refl _
  | created => exact .of_kept ⟨fun _ => rfl, fun _ hv => hv⟩ rfl rfl
  | committed hcommit => exact committed_rises (he _ rfl) hcommit

theorem overwritesLess_iff_rises (w : World τ) (e : Event τ) (h : Informed hashes w) :
    OverwritesLess w e ↔ Rises w.db (w.next hashes e).db := by
  by_cases he : ∀ i, e = .step i → ∀ args stored, w.processes i ≠ .boundaryRead args stored
  · have hless : OverwritesLess w e := by
      unfold OverwritesLess
      split
      next i =>
        split
        next args stored hp => exact absurd hp (he i rfl args stored)
        next => trivial
      next => trivial
    exact ⟨fun _ => rises_next w e he, fun _ => hless⟩
  · push Not at he
    obtain ⟨i, rfl, args, stored, hp⟩ := he
    have hdb : (w.next hashes (.step i)).db = advanceMeta w.db stored args := by
      simp only [World.next, hp, Process.statement, World.after]
    have hopen : requireJournal w.db = .ok () := by
      have hknows := h.knows i
      rw [hp] at hknows; exact hknows
    obtain ⟨_, _, boundary, hboundary⟩ := h.together _ (requireJournal_eq_ok.mp hopen).2
    rw [hdb, advanceMeta_eq]
    simp only [OverwritesLess, hp, hboundary, Option.some.injEq, forall_eq']
    split
    next hlt => rw [rises_setConsulted_iff hopen hboundary]; simp [hlt]
    next hge => exact ⟨fun _ => .refl _, fun _ hlt => absurd hlt hge⟩

structure Covered (w : World τ) : Prop where
  read : ∀ i args stored, w.processes i = .boundaryRead args stored → ReachesTo w.db stored
  returned : ∀ call ∈ w.returned, ∀ b ∈ call.boundary, ReachesTo w.db b

theorem reads_boundary {args : InitializeArgs} {stored : Stamp}
    (h : Reads db p (.boundaryRead args stored)) (hp : p.Knows hashes db) : ReachesTo db stored := by
  cases h with
  | boundaryRead hstored => exact .intro hp hstored (.inl le_rfl)

theorem read_set {i : ℕ} (hrises : Rises w.db db')
    (hread : ∀ i args stored, w.processes i = .boundaryRead args stored → ReachesTo w.db stored)
    (hp : ∀ args stored, p = .boundaryRead args stored → ReachesTo db' stored) :
    ∀ j args stored, (w.set i p).processes j = .boundaryRead args stored → ReachesTo db' stored := by
  intro j args stored hj
  by_cases h : j = i
  · subst h
    rw [World.set_self] at hj; exact hp args stored hj
  · rw [World.set_of_ne h] at hj; exact (hread j args stored hj).rises hrises

theorem covered_next (w : World τ) (e : Event τ) (h : Informed hashes w) (hcovered : Covered w)
    (hrises : Rises w.db (w.next hashes e).db) : Covered (w.next hashes e) := by
  revert hrises
  generalize hw' : w.next hashes e = w'
  intro hrises
  have hhappens : Happens hashes w e w' := hw' ▸ next_happens hashes w e
  have hold : ∀ call ∈ w.returned, ∀ b ∈ call.boundary, ReachesTo w'.db b :=
    fun call hcall b hb => (hcovered.returned call hcall b hb).rises hrises
  cases hhappens with
  | nothing => exact hcovered
  | called | created | ended =>
    exact ⟨read_set hrises hcovered.read (fun _ _ hp => nomatch hp), hold⟩
  | read hreads =>
    exact ⟨read_set hrises hcovered.read fun args stored hp => reads_boundary (hp ▸ hreads) (h.knows _), hold⟩
  | @committed i call db' hcommit =>
    refine ⟨read_set hrises hcovered.read (fun _ _ hp => nomatch hp), fun c hc b hb => ?_⟩
    rcases mem_append.mp hc with hc | hc
    · exact hold c hc b hb
    · rw [mem_singleton.mp hc] at hb
      exact committed_reaches (h.knows i) h.together (hcovered.read i) hcommit b hb

/-- **The consulted horizon holds in a run exactly if no `initialize` writes over a boundary that
was moved on behind its own since it read it.** -/
theorem horizon_holds_iff (hashes : Hashes τ) (events : List (Event τ)) :
    HorizonHolds hashes events ↔ Steps (World.next hashes) OverwritesLess World.start events := by
  have hrises : Steps (World.next hashes) OverwritesLess World.start events ↔ _ :=
    steps_iff_related (R := fun w w' => Rises w.db w'.db) (fun w => .refl w.db)
      (fun w₁ w₂ w₃ (h : Rises w₁.db w₂.db) (h' : Rises w₂.db w₃.db) => h.trans h')
      informed_next overwritesLess_iff_rises informed_start
  constructor
  · intro h; exact hrises.mpr h.rises
  · intro h
    refine ⟨hrises.mp h, fun front hfront => ?_⟩
    have halong := Steps.along (I := fun w => Informed hashes w ∧ Covered w)
      (fun w e hw hless => ⟨informed_next w e hw.1,
        covered_next w e hw.1 hw.2 ((overwritesLess_iff_rises w e hw.1).mp hless)⟩)
      ⟨informed_start, nofun, fun _ hc => absurd hc not_mem_nil⟩ h
    exact (halong front hfront).2.returned

/-- Two processes hand in 20 and 30; both read 0, the second writes first. -/
def lostUpdate : List (Event Unit) :=
  let initializing (i : ℕ) (legacy : Stamp) : Event Unit := .call i (.initializeJournal ⟨1, legacy, true⟩)
  [initializing 0 0, .step 0, .step 0, .step 0,
   initializing 1 20, .step 1, .step 1, .step 1,
   initializing 2 30, .step 2, .step 2, .step 2, .step 2,
   .step 1]

def noHashes : Hashes Unit := ⟨fun _ => zeroDigest, fun _ => zeroDigest⟩

theorem boundary_lost :
    (World.run noHashes lostUpdate.dropLast).returned.length = 2
      ∧ consultedProcessHorizon (World.run noHashes lostUpdate.dropLast).db = .ok 30
      ∧ consultedProcessHorizon (World.run noHashes lostUpdate).db = .ok 20
      ∧ ¬ HorizonHolds noHashes lostUpdate := by
  have hbefore : consultedProcessHorizon (World.run noHashes lostUpdate.dropLast).db = .ok 30 := by rfl
  have hafter : consultedProcessHorizon (World.run noHashes lostUpdate).db = .ok 20 := by rfl
  refine ⟨by rfl, hbefore, hafter, fun h => ?_⟩
  obtain ⟨later, hlater, hle⟩ := h.rises _ _ ( dropLast_prefix _) prefix_rfl 30 hbefore
  rw [hafter] at hlater; cases hlater; exact absurd hle (by decide)

end CryptoPilot.Research
