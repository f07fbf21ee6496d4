/- # Retention — `apply_retention` beside other processes.

For each planned bundle a pass reads the references, checks the run of each of them in two
`SELECT`s, removes the directory and marks the rows, one statement after the other and outside a
transaction until the `UPDATE`.  Other processes finalize and protect runs in between, or run a pass
of their own. -/
import CryptoPilot.Lib.Interleave
import CryptoPilot.Backtests.Registry

namespace CryptoPilot.Backtests

open CryptoPilot.Lib List Function
open CryptoPilot.Lib.Interleave

/-- What is under `evidence_root / evidence_id`. -/
inductive Bundle where
  | absent
  | symlink
  | directory
  | file
  deriving DecidableEq, Repr

/-- `if bundle.is_dir(): shutil.rmtree(bundle)`. -/
def removeTree (bundles : String → Bundle) (evidenceId : String) : String → Bundle :=
  if bundles evidenceId = .directory then Function.update bundles evidenceId .absent else bundles

theorem removeTree_self (bundles : String → Bundle) (evidenceId : String) :
    removeTree bundles evidenceId evidenceId ≠ .directory := by
  unfold removeTree
  split
  next => rw [update_self]; nofun
  next hne => exact hne

theorem removeTree_of_ne {bundles : String → Bundle} {evidenceId other : String} (h : other ≠ evidenceId) :
    removeTree bundles evidenceId other = bundles other := by
  unfold removeTree
  split
  next => exact update_of_ne h ..
  next => rfl

/-- `RetentionResult`, before the feasibility is known. -/
structure Reclaimed where
  removedEvidenceIds : List String
  reclaimedBytes : ℕ

/-- Where a process stands in `apply_retention`: the bundle in hand, the references to check, the
bundles behind it, and what it has reclaimed. -/
inductive Pass where
  | idle
  /-- At the head of the loop. -/
  | planned (rest : List String) (done : Reclaimed)
  /-- The bundle is no symlink. -/
  | owned (evidenceId : String) (rest : List String) (done : Reclaimed)
  /-- The references are read; these are not checked yet. -/
  | checking (evidenceId : String) (refs : List String) (physical : ℕ) (rest : List String) (done : Reclaimed)
  /-- The flags of a run are read, and leave the verdict to its finalization. -/
  | flagged (evidenceId run : String) (resolved : Bool) (refs : List String) (physical : ℕ) (rest : List String)
      (done : Reclaimed)
  /-- The directory is gone. -/
  | removed (evidenceId : String) (physical : ℕ) (rest : List String) (done : Reclaimed)

/-- `_validated_evidence_id`. -/
def validEvidenceId (evidenceId : String) : Bool :=
  let chars := evidenceId.toList
  !(chars.isEmpty || chars.contains '/' || chars.contains '\\' || (chars.zip chars.tail).contains ('.', '.'))

structure World where
  registry : Registry
  bundles : String → Bundle
  passes : ℕ → Pass

/-- A process starts a pass, takes its next statement or dies; or another one commits a transaction.
-/
inductive Event where
  | apply (process : ℕ) (plan : List String)
  | step (process : ℕ)
  | lost (process : ℕ)
  | finalize (fin : RunFinalization) (artifacts : List ArtifactReference)
  | protect (runId : String) (flags : ProtectionFlags)

def World.set (w : World) (i : ℕ) (p : Pass) : World := { w with passes := Function.update w.passes i p }

@[simp] theorem World.set_self (w : World) (i : ℕ) (p : Pass) : (w.set i p).passes i = p := update_self ..

variable {w : World} {p : Pass}

theorem World.set_of_ne {i j : ℕ} (h : j ≠ i) : (w.set i p).passes j = w.passes j :=
  update_of_ne h ..

def World.commit (w : World) : Except RegistryExc Registry → World
  | .ok registry => { w with registry := registry }
  | .error _ => w

/-- The statement of a pass that `_run_protected` decided. -/
def checked (evidenceId : String) (refs : List String) (physical : ℕ) (rest : List String) (done : Reclaimed) :
    Bool → Pass
  | true => .planned rest done
  | false => .checking evidenceId refs physical rest done

def World.statement (w : World) (i : ℕ) : World :=
  match w.passes i with
  | .idle => w
  | .planned [] _ => w.set i .idle
  | .planned (evidenceId :: rest) done =>
    if validEvidenceId evidenceId = false then w.set i .idle
    else if w.bundles evidenceId = .symlink then w.set i (.planned rest done)
    else w.set i (.owned evidenceId rest done)
  | .owned evidenceId rest done =>
    match w.registry.references evidenceId with
    | [] => w.set i (.planned rest done)
    | refs => w.set i (.checking evidenceId (refs.map Prod.fst) ((refs.map Prod.snd).foldl max 0) rest done)
  | .checking evidenceId (run :: refs) physical rest done =>
    match flagsVerdict (w.registry.runOf run), w.registry.runOf run with
    | none, some row => w.set i (.flagged evidenceId run row.resolved refs physical rest done)
    | _, _ => w.set i (.planned rest done)
  | .flagged evidenceId run resolved refs physical rest done =>
    w.set i (checked evidenceId refs physical rest done (finalVerdict resolved (w.registry.finalizationOf run)))
  | .checking evidenceId [] physical rest done =>
    { w.set i (.removed evidenceId physical rest done) with
      bundles := removeTree w.bundles evidenceId }
  | .removed evidenceId physical rest done =>
    { w.set i (.planned rest ⟨done.removedEvidenceIds ++ [evidenceId], done.reclaimedBytes + physical⟩) with
      registry := w.registry.releaseArtifacts evidenceId }

def World.next (w : World) : Event → World
  | .apply i plan =>
    match w.passes i with
    | .idle => w.set i (.planned plan ⟨[], 0⟩)
    | _ => w
  | .step i => w.statement i
  | .lost i => w.set i .idle
  | .finalize fin artifacts => w.commit (w.registry.finalizeRun fin artifacts)
  | .protect runId flags => w.commit (w.registry.setRunProtection runId flags)

def Registry.Refers (reg : Registry) (runId evidenceId : String) : Prop :=
  ∃ a ∈ reg.artifacts, a.runId = runId ∧ a.evidenceId = some evidenceId ∧ a.retained = true

structure Upholds (w w' : World) : Prop where
  removal : ∀ evidenceId, w.bundles evidenceId = .directory → w'.bundles evidenceId ≠ .directory →
    ∀ run, w.registry.Refers run evidenceId → w.registry.runProtected run = false
  marking : ∀ a ∈ w.registry.artifacts, a.retained = true → ∀ b ∈ w'.registry.artifacts, b.key = a.key →
    b.retained = false → ∃ evidenceId, a.evidenceId = some evidenceId ∧ w.bundles evidenceId ≠ .directory
      ∧ w.registry.runProtected a.runId = false

def Pass.inHand : Pass → Option (String × List String)
  | .checking evidenceId refs _ _ _ => some (evidenceId, refs)
  | .flagged evidenceId _ _ refs _ _ _ => some (evidenceId, refs)
  | .removed evidenceId _ _ _ => some (evidenceId, [])
  | _ => none

def Event.run : Event → Option String
  | .finalize fin _ => some fin.runId
  | .protect runId _ => some runId
  | _ => none

/-- A transaction does not protect a run that refers to a bundle which some pass has in hand and
will not check that run for any more. -/
def Undisturbed (w : World) (e : Event) : Prop :=
  ∀ run ∈ e.run, (w.next e).registry.runProtected run = true → ∀ i evidenceId refs,
    (w.passes i).inHand = some (evidenceId, refs) → (w.next e).registry.Refers run evidenceId → run ∈ refs

/-! ## What a pass knows -/

/-- Every protected run that refers to the bundle in hand is still to be checked. -/
def Pass.Knows (w : World) : Pass → Prop
  | .checking evidenceId refs _ _ _ =>
    ∀ run, w.registry.Refers run evidenceId → w.registry.runProtected run = true → run ∈ refs
  | .flagged evidenceId run resolved refs _ _ _ =>
    (∀ run', w.registry.Refers run' evidenceId → w.registry.runProtected run' = true → run' ∈ run :: refs)
      ∧ (w.registry.Refers run evidenceId → run ∈ refs ∨ w.registry.runProtected run = false
        ∨ ∃ row, w.registry.runOf run = some row ∧ row.pinned = false ∧ row.deploymentReferenced = false
          ∧ row.resolved = resolved)
  | .removed evidenceId _ _ _ =>
    w.bundles evidenceId ≠ .directory ∧ ∀ run, w.registry.Refers run evidenceId →
      w.registry.runProtected run = false
  | _ => True

def Informed (w : World) : Prop := ∀ i, (w.passes i).Knows w

section Facts

variable {reg reg' : Registry} {w w' : World} {run evidenceId : String}

theorem runProtected_of_flags {row : RunRow} (hrow : reg.runOf run = some row) (hp : row.pinned = false)
    (hd : row.deploymentReferenced = false) :
    reg.runProtected run = finalVerdict row.resolved (reg.finalizationOf run) := by
  simp [Registry.runProtected, hrow, hp, hd]

theorem runProtected_congr (hruns : reg'.runOf run = reg.runOf run)
    (hfinal : reg'.finalizationOf run = reg.finalizationOf run) : reg'.runProtected run = reg.runProtected run := by
  rw [Registry.runProtected, Registry.runProtected, hruns, hfinal]

theorem flagsVerdict_eq_none {row : Option RunRow} (h : flagsVerdict row = none) :
    ∃ r, row = some r ∧ r.pinned = false ∧ r.deploymentReferenced = false := by
  cases row with
  | none => cases h
  | some r =>
    simp only [flagsVerdict] at h
    split at h
    next => cases h
    next hflags =>
      simp only [Bool.or_eq_true, not_or, Bool.not_eq_true] at hflags; exact ⟨r, rfl, hflags⟩

theorem mem_references : run ∈ (reg.references evidenceId).map Prod.fst ↔ reg.Refers run evidenceId := by
  simp only [Registry.references, map_map, mem_map, mem_filter, comp_apply, Bool.and_eq_true,
    decide_eq_true_eq, Registry.Refers]
  constructor
  · rintro ⟨a, ⟨ha, he, hr⟩, rfl⟩; exact ⟨a, ha, rfl, he, hr⟩
  · rintro ⟨a, ha, rfl, he, hr⟩; exact ⟨a, ⟨ha, he, hr⟩, rfl⟩

theorem eq_of_key {a b : ArtifactRow} (ha : a ∈ reg.artifacts) (hb : b ∈ reg.artifacts) (hkey : b.key = a.key) :
    b = a := by
  have hnodup : (reg.artifacts.map ArtifactRow.key).Nodup := pairwise_map.mpr reg.keys
  exact (nodup_map_iff_inj_on hnodup.of_map).mp hnodup b hb a ha hkey

theorem refers_release {other : String} (h : (reg.releaseArtifacts other).Refers run evidenceId) :
    reg.Refers run evidenceId := by
  obtain ⟨b, hb, hrun, he, hr⟩ := h
  obtain ⟨a, ha, rfl⟩ := mem_map.mp hb
  by_cases hother : a.evidenceId = some other
  · rw [if_pos hother] at hr; cases hr
  · rw [if_neg hother] at hrun he hr; exact ⟨a, ha, hrun, he, hr⟩

theorem Pass.Knows.mono {p : Pass} (h : p.Knows w) (hruns : w'.registry.runs = w.registry.runs)
    (hfinals : w'.registry.finalizations = w.registry.finalizations)
    (hrefers : ∀ run evidenceId, w'.registry.Refers run evidenceId → w.registry.Refers run evidenceId)
    (hbundles : ∀ evidenceId, w'.bundles evidenceId = .directory → w.bundles evidenceId = .directory) :
    p.Knows w' := by
  have hrow : ∀ run, w'.registry.runOf run = w.registry.runOf run := fun run => by
    rw [Registry.runOf, Registry.runOf, hruns]
  have hprotected : ∀ run, w'.registry.runProtected run = w.registry.runProtected run := fun run =>
    runProtected_congr (hrow run) (by rw [Registry.finalizationOf, Registry.finalizationOf, hfinals])
  cases p with
  | checking evidenceId refs physical rest done =>
    exact fun run hr hp => h run (hrefers run evidenceId hr) ((hprotected run).symm.trans hp)
  | flagged evidenceId run resolved refs physical rest done =>
    refine ⟨fun run' hr hp => h.1 run' (hrefers run' evidenceId hr) ((hprotected run').symm.trans hp), fun hr => ?_⟩
    rw [hprotected, hrow]; exact h.2 (hrefers run evidenceId hr)
  | removed evidenceId physical rest done =>
    refine ⟨fun hdir => h.1 (hbundles evidenceId hdir), fun run hr => ?_⟩
    rw [hprotected]; exact h.2 run (hrefers run evidenceId hr)
  | idle | planned | owned => trivial

structure OthersKept (run : String) (reg reg' : Registry) : Prop where
  row : ∀ r, r ≠ run → reg'.runOf r = reg.runOf r
  final : ∀ r, r ≠ run → reg'.finalizationOf r = reg.finalizationOf r
  refers : ∀ r evidenceId, r ≠ run → reg'.Refers r evidenceId → reg.Refers r evidenceId

theorem Pass.Knows.transaction {p : Pass} (h : p.Knows w) (hothers : OthersKept run w.registry w'.registry)
    (hbundles : w'.bundles = w.bundles)
    (hself : w'.registry.runProtected run = true → ∀ evidenceId refs, p.inHand = some (evidenceId, refs) →
      w'.registry.Refers run evidenceId → run ∈ refs) : p.Knows w' := by
  have hprotected : ∀ r, r ≠ run → w'.registry.runProtected r = w.registry.runProtected r :=
    fun r hne => runProtected_congr (hothers.row r hne) (hothers.final r hne)
  cases p with
  | checking evidenceId refs physical rest done =>
    intro r hr hp
    by_cases hne : r = run
    · subst hne; exact hself hp evidenceId refs rfl hr
    · exact h r (hothers.refers r evidenceId hne hr) ((hprotected r hne).symm.trans hp)
  | flagged evidenceId current resolved refs physical rest done =>
    constructor
    · intro r hr hp
      by_cases hne : r = run
      · subst hne; exact mem_cons_of_mem _ (hself hp evidenceId refs rfl hr)
      · exact h.1 r (hothers.refers r evidenceId hne hr) ((hprotected r hne).symm.trans hp)
    · intro hr
      by_cases hne : current = run
      · subst hne
        cases hp : w'.registry.runProtected current with
        | true => exact .inl (hself hp evidenceId refs rfl hr)
        | false => exact .inr (.inl rfl)
      · rw [hprotected current hne, hothers.row current hne]
        exact h.2 (hothers.refers current evidenceId hne hr)
  | removed evidenceId physical rest done =>
    refine ⟨by rw [hbundles]; exact h.1, fun r hr => ?_⟩
    by_cases hne : r = run
    · subst hne
      cases hp : w'.registry.runProtected r with
      | true => exact absurd (hself hp evidenceId [] rfl hr) not_mem_nil
      | false => rfl
    · rw [hprotected r hne]; exact h.2 r (hothers.refers r evidenceId hne hr)
  | idle | planned | owned => trivial

/-! ## What the transactions of other processes do -/

/-- A transaction about one run: the others are kept, and no row of it is released. -/
structure Transacts (run : String) (reg reg' : Registry) : Prop extends OthersKept run reg reg' where
  released : ∀ b ∈ reg'.artifacts, b.retained = false → b ∈ reg.artifacts

theorem setRunProtection_transacts {flags : ProtectionFlags} (h : reg.setRunProtection run flags = .ok reg') :
    Transacts run reg reg' := by
  unfold Registry.setRunProtection at h
  split at h
  next => cases h
  next =>
    cases h
    refine ⟨⟨fun r hne => ?_, fun _ _ => rfl, fun _ _ _ hr => hr⟩, fun b hb _ => hb⟩
    simp only [Registry.runOf, find?_map]
    have hpred : ((fun row : RunRow => decide (row.runId = r)) ∘ fun row => if row.runId =
      run then row.setFlags flags else row)
        = fun row => decide (row.runId = r) := by
      funext row
      simp only [comp_apply]
      split <;> rfl
    rw [hpred]
    cases hfind : reg.runs.find? fun row => decide (row.runId = r) with
    | none => rfl
    | some row =>
      have hid : row.runId = r := by simpa using find?_some hfind
      simp [hid, hne]

theorem insertArtifact_ok {a : ArtifactReference} (h : reg.insertArtifact a = .ok reg') :
    reg'.runs = reg.runs ∧ reg'.finalizations = reg.finalizations
      ∧ reg'.artifacts = reg.artifacts ++ [{ a with retained := true }] := by
  unfold Registry.insertArtifact at h
  split at h
  next => cases h; exact ⟨rfl, rfl, rfl⟩
  next => cases h

theorem finalizeRun_transacts {fin : RunFinalization} {artifacts : List ArtifactReference}
    (h : reg.finalizeRun fin artifacts = .ok reg') : Transacts fin.runId reg reg' := by
  have hsame : Transacts fin.runId reg reg :=
    ⟨⟨fun _ _ => rfl, fun _ _ => rfl, fun _ _ _ hr => hr⟩, fun _ hb _ => hb⟩
  unfold Registry.finalizeRun at h
  split at h
  next => cases h
  next hruns =>
    have hown : ∀ a ∈ artifacts, a.runId = fin.runId := by simpa using hruns
    split at h
    next => cases h
    next =>
      split at h
      next =>
        split at h
        next => cases h
        next =>
          split at h
          next => cases h
          next =>
            cases h; exact hsame
      next =>
        -- the finalization first, then one row after the other, all of them of this run
        refine foldlM_invariant (I := Transacts fin.runId reg) (fun a ha s t hinsert hs => ?_) h ?_
        · obtain ⟨hrows, hfinals, hartifacts⟩ := insertArtifact_ok hinsert
          refine ⟨⟨fun r hne => ?_, fun r hne => ?_, fun r evidenceId hne hr => ?_⟩, fun b hb hret => ?_⟩
          · rw [← hs.row r hne, Registry.runOf, Registry.runOf, hrows]
          · rw [← hs.final r hne, Registry.finalizationOf, Registry.finalizationOf, hfinals]
          · obtain ⟨b, hb, hrun, he, hret⟩ := hr
            rw [hartifacts] at hb
            rcases mem_append.mp hb with hb | hb
            · exact hs.refers r evidenceId hne ⟨b, hb, hrun, he, hret⟩
            · rw [mem_singleton.mp hb] at hrun; exact absurd (hrun.symm.trans (hown a ha)) hne
          · rw [hartifacts] at hb
            rcases mem_append.mp hb with hb | hb
            · exact hs.released b hb hret
            · rw [mem_singleton.mp hb] at hret; cases hret
        · refine ⟨⟨fun _ _ => rfl, fun r hne => ?_, fun r evidenceId _ hr => ?_⟩, fun b hb _ =>
            mem_of_mem_filter hb⟩
          · simp [Registry.finalizationOf, Registry.insertFinalization, find?_append, Ne.symm hne]
          · obtain ⟨b, hb, hrest⟩ := hr; exact ⟨b, mem_of_mem_filter hb, hrest⟩

end Facts

/-! ## The steps of a pass -/

inductive Happens (w : World) (i : ℕ) : World → Prop
  | moves {p : Pass} : p.Knows w → Happens w i (w.set i p)
  | nothing : Happens w i w
  | removes {evidenceId : String} {physical : ℕ} {rest : List String} {done : Reclaimed} :
      w.passes i = .checking evidenceId [] physical rest done →
      Happens w i { w.set i (.removed evidenceId physical rest done) with
        bundles := removeTree w.bundles evidenceId }
  | releases {evidenceId : String} {physical : ℕ} {rest : List String} {done done' : Reclaimed} :
      w.passes i = .removed evidenceId physical rest done →
      Happens w i { w.set i (.planned rest done') with registry := w.registry.releaseArtifacts evidenceId }

theorem statement_happens (w : World) (i : ℕ) (h : (w.passes i).Knows w) : Happens w i (w.statement i) := by
  unfold World.statement
  cases hp : w.passes i with
  | idle => exact .nothing
  | planned plan done =>
    cases plan with
    | nil => exact .moves trivial
    | cons evidenceId rest =>
      dsimp only
      split
      · exact .moves trivial
      · split <;> exact .moves trivial
  | owned evidenceId rest done =>
    dsimp only
    split
    next => exact .moves trivial
    next refs _ =>
      refine .moves fun run hrefers _ => ?_
      exact mem_references.mpr hrefers
  | checking evidenceId refs physical rest done =>
    cases refs with
    | nil => exact .removes hp
    | cons run refs =>
      dsimp only
      split
      next row hverdict hrow =>
        obtain ⟨r, hr, hpinned, hdeployed⟩ := flagsVerdict_eq_none hverdict
        rw [hp] at h
        exact .moves ⟨h, fun _ => .inr (.inr ⟨r, hr, hpinned, hdeployed, by rw [hrow] at hr; cases hr; rfl⟩)⟩
      next => exact .moves trivial
  | flagged evidenceId run resolved refs physical rest done =>
    rw [hp] at h
    dsimp only
    cases hverdict : finalVerdict resolved (w.registry.finalizationOf run) with
    | true => exact .moves trivial
    | false =>
      refine .moves fun r hr hprotected => ?_
      rcases mem_cons.mp (h.1 r hr hprotected) with rfl | hmem
      · -- the run just checked is protected only if it is checked again
        rcases h.2 hr with hmem | hfree | ⟨row, hrow, hpinned, hdeployed, rfl⟩
        · exact hmem
        · rw [hfree] at hprotected; cases hprotected
        · rw [runProtected_of_flags hrow hpinned hdeployed, hverdict] at hprotected
          cases hprotected
      · exact hmem
  | removed evidenceId physical rest done => exact .releases hp

theorem knows_set {i : ℕ} {w' : World} (hw : ∀ j, j ≠ i → (w.passes j).Knows w') (hp : p.Knows w')
    (j : ℕ) : ((w.set i p).passes j).Knows w' := by
  by_cases h : j = i
  · subst h
    rw [World.set_self]; exact hp
  · rw [World.set_of_ne h]; exact hw j h

theorem knows_passes (passes : ℕ → Pass) (h : p.Knows w) : p.Knows { w with passes := passes } :=
  h.mono rfl rfl (fun _ _ hr => hr) fun _ hdir => hdir

theorem statement_upholds {i : ℕ} (h : Informed w) : Informed (w.statement i) ∧ Upholds w (w.statement i) := by
  have hhappens := statement_happens w i (h i)
  generalize w.statement i = w' at hhappens
  have hsame : ∀ a ∈ w.registry.artifacts, a.retained = true → ∀ b ∈ w.registry.artifacts, b.key = a.key →
      b.retained = false → False := by
    intro a ha hret b hb hkey hb'
    rw [eq_of_key ha hb hkey, hret] at hb'; cases hb'
  cases hhappens with
  | moves hp =>
    refine ⟨fun j => knows_set (fun j _ => knows_passes _ (h j)) (knows_passes _ hp) j, ?_, ?_⟩
    · exact fun _ hdir hgone => absurd hdir hgone
    · exact fun a ha hret b hb hkey hb' => (hsame a ha hret b hb hkey hb').elim
  | nothing =>
    refine ⟨h, fun _ hdir hgone => absurd hdir hgone, ?_⟩
    exact fun a ha hret b hb hkey hb' => (hsame a ha hret b hb hkey hb').elim
  | @removes evidenceId physical rest done hp =>
    have hknows := h i
    rw [hp] at hknows
    -- every run that refers to the bundle was asked about, and none is protected
    have hfree : ∀ run, w.registry.Refers run evidenceId → w.registry.runProtected run = false := by
      intro run hr
      cases hprotected : w.registry.runProtected run with
      | true => exact absurd (hknows run hr hprotected) not_mem_nil
      | false => rfl
    have hmono : ∀ (p : Pass) (passes : ℕ → Pass), p.Knows w →
        p.Knows { w with passes := passes, bundles := removeTree w.bundles evidenceId } := by
      intro p passes hp
      refine hp.mono rfl rfl (fun _ _ hr => hr) fun other hdir => ?_
      by_cases hne : other = evidenceId
      · subst hne; exact absurd hdir (removeTree_self _ _)
      · exact (removeTree_of_ne hne).symm.trans hdir
    refine ⟨fun j => knows_set (fun j _ => hmono _ _ (h j)) ?_ j, fun other hdir hnot => ?_, ?_⟩
    · exact ⟨removeTree_self _ _, hfree⟩
    · by_cases hne : other = evidenceId
      · subst hne; exact hfree
      · exact absurd ((removeTree_of_ne hne).trans hdir) hnot
    · exact fun a ha hret b hb hkey hb' => (hsame a ha hret b hb hkey hb').elim
  | @releases evidenceId physical rest done done' hp =>
    have hknows := h i
    rw [hp] at hknows
    have hmono : ∀ (p : Pass) (passes : ℕ → Pass), p.Knows w →
        p.Knows { w with passes := passes, registry := w.registry.releaseArtifacts evidenceId } :=
      fun p passes hp => hp.mono rfl rfl (fun _ _ hr => refers_release hr) fun _ hdir => hdir
    refine ⟨fun j => knows_set (fun j _ =>
      hmono _ _ (h j)) (show Pass.Knows _ (.planned rest done') from trivial) j,
      fun _ hdir hgone => absurd hdir hgone, fun a ha hret b hb hkey hb' => ?_⟩
    obtain ⟨c, hc, rfl⟩ := mem_map.mp hb
    by_cases hev : c.evidenceId = some evidenceId
    · rw [if_pos hev] at hkey
      have hca : c = a := eq_of_key ha hc hkey
      subst hca; exact ⟨evidenceId, hev, hknows.1, hknows.2 c.runId ⟨c, ha, rfl, hev, hret⟩⟩
    · rw [if_neg hev] at hkey hb'; exact (hsame a ha hret c hc hkey hb').elim

theorem transaction_upholds {run : String} {result : Except RegistryExc Registry} (h : Informed w)
    (htransacts : ∀ reg', result = .ok reg' → Transacts run w.registry reg')
    (hundisturbed : (w.commit result).registry.runProtected run = true → ∀ i evidenceId refs,
      (w.passes i).inHand = some (evidenceId, refs) →
        (w.commit result).registry.Refers run evidenceId → run ∈ refs) :
    Informed (w.commit result) ∧ Upholds w (w.commit result) := by
  cases result with
  | error e =>
    refine ⟨h, fun _ hdir hgone => absurd hdir hgone, fun a ha hret b hb hkey hb' => ?_⟩
    rw [eq_of_key ha hb hkey, hret] at hb'; cases hb'
  | ok reg' =>
    have ht := htransacts reg' rfl
    refine ⟨fun i => (h i).transaction ht.toOthersKept rfl fun hp => hundisturbed hp i,
      fun _ hdir hgone => absurd hdir hgone, fun a ha hret b hb hkey hb' => ?_⟩
    rw [eq_of_key ha (ht.released b hb hb') hkey, hret] at hb'; cases hb'

theorem next_upholds (w : World) (e : Event) (h : Informed w) (he : Undisturbed w e) :
    Informed (w.next e) ∧ Upholds w (w.next e) := by
  have hquiet : ∀ p : Pass, p.Knows w → ∀ i, Informed (w.set i p) ∧ Upholds w (w.set i p) := by
    intro p hp i
    refine ⟨fun j => knows_set (fun j _ => knows_passes _ (h j)) (knows_passes _ hp) j,
      fun _ hdir hgone => absurd hdir hgone, fun a ha hret b hb hkey hb' => ?_⟩
    rw [eq_of_key ha hb hkey, hret] at hb'; cases hb'
  cases e with
  | apply i plan =>
    simp only [World.next]
    split
    next => exact hquiet (.planned plan ⟨[], 0⟩) trivial i
    next =>
      refine ⟨h, fun _ hdir hgone => absurd hdir hgone, fun a ha hret b hb hkey hb' => ?_⟩
      rw [eq_of_key ha hb hkey, hret] at hb'; cases hb'
  | step i => exact statement_upholds h
  | lost i => exact hquiet .idle trivial i
  | finalize fin artifacts =>
    exact transaction_upholds h (fun reg' hok => finalizeRun_transacts hok) (he fin.runId rfl)
  | protect runId flags =>
    exact transaction_upholds h (fun reg' hok => setRunProtection_transacts hok) (he runId rfl)

/-- **Retention never deletes protected evidence** in a run, from any registry and any bundles, in
which no transaction protects a run behind the back of a pass. -/
theorem retention_upholds (registry : Registry) (bundles : String → Bundle) (events : List Event)
    (h : Steps World.next Undisturbed ⟨registry, bundles, fun _ => .idle⟩ events) :
    Steps World.next (fun w e => Upholds w (w.next e)) ⟨registry, bundles, fun _ => .idle⟩ events := by
  intro front e he
  have hinformed : Informed (execute World.next ⟨registry, bundles, fun _ => .idle⟩ front) :=
    h.along (fun w e hw hu => (next_upholds w e hw hu).1) (fun _ => show Pass.Knows _ .idle from trivial) front
      ((prefix_append front [e]).trans he)
  exact (next_upholds _ e hinformed (h front e he)).2

/-! ## Two runs -/

def sampleRegistry : Registry where
  runs := [⟨"run", false, false, false⟩]
  finalizations := [⟨"run", "2026-01-01T00:00:00+00:00", .completed, some true, some true, "\x7b\x7d"⟩]
  artifacts := [⟨⟨"run", "detail", "/evidence/bundle/detail", "sha", 10, true, some "bundle"⟩, true⟩]
  keys := pairwise_singleton _ _

def sampleStart : World := ⟨sampleRegistry, fun _ => .directory, fun _ => .idle⟩

def quietRun : List Event :=
  [.protect "run" ⟨false, true, false⟩, .apply 0 ["bundle"], .step 0, .step 0, .step 0, .step 0, .step 0, .step 0]

theorem quiet_run_upholds :
    Steps World.next (fun w e => Upholds w (w.next e)) sampleStart quietRun
      ∧ (execute World.next sampleStart quietRun).bundles "bundle" = .absent
      ∧ (execute World.next sampleStart quietRun).registry.artifacts.map ArtifactRow.retained = [false] := by
  have hsteps : Steps World.next Undisturbed sampleStart quietRun := by
    refine steps_cons.mpr ⟨(fun _ _ _ _ _ _ hidle => by cases hidle), ?_⟩
    refine steps_cons.mpr ⟨(fun _ hrun => by cases hrun), steps_cons.mpr ⟨(fun _ hrun => by cases hrun), ?_⟩⟩
    refine steps_cons.mpr ⟨(fun _ hrun => by cases hrun), steps_cons.mpr ⟨(fun _ hrun => by cases hrun), ?_⟩⟩
    refine steps_cons.mpr ⟨(fun _ hrun => by cases hrun), steps_cons.mpr ⟨(fun _ hrun => by cases hrun), ?_⟩⟩
    exact steps_cons.mpr ⟨(fun _ hrun => by cases hrun), steps_nil⟩
  exact ⟨retention_upholds sampleRegistry (fun _ => .directory) quietRun hsteps, by rfl, by rfl⟩

def pinnedLate : List Event :=
  [.apply 0 ["bundle"], .step 0, .step 0, .step 0, .step 0, .protect "run" ⟨true, false, false⟩, .step 0, .step 0]

theorem pinned_bundle_removed :
    (execute World.next sampleStart (pinnedLate.take 6)).registry.runProtected "run" = true
      ∧ (execute World.next sampleStart (pinnedLate.take 6)).bundles "bundle" = .directory
      ∧ (execute World.next sampleStart (pinnedLate.take 7)).bundles "bundle" = .absent
      ∧ (execute World.next sampleStart pinnedLate).registry.artifacts.map ArtifactRow.retained = [false]
      ∧ ¬ Steps World.next (fun w e => Upholds w (w.next e)) sampleStart pinnedLate := by
  have hprotected : (execute World.next sampleStart (pinnedLate.take 6)).registry.runProtected
    "run" = true := by rfl
  refine ⟨hprotected, by rfl, by rfl, by rfl, fun h => ?_⟩
  have hremoval := (h (pinnedLate.take 6) (.step 0) ⟨[.step 0], by rfl⟩).removal "bundle" (by rfl) (by decide) "run"
    ⟨_, mem_cons_self, rfl, rfl, rfl⟩
  rw [hprotected] at hremoval; cases hremoval

end CryptoPilot.Backtests
