/- # SnapshotCache — what a shared snapshot cache answers.

The cache is bound to a fingerprint that takes the shape, the columns and the index of each source
frame, and of its values only the last row; and it keys a snapshot frame by feature and hours, not
by the readiness it was masked with. Calls that agree in all of that (`TargetsCall.Agrees`) are
answered as without the cache (`cache_transparent`). -/
import CryptoPilot.Strategy.Readiness

namespace CryptoPilot.Strategy

open CryptoPilot.Lib List

variable {η : Type}

def runCalls [DecidableEq η] (registry : FeatureRegistry) (digests : Digests η) :
    List TargetsCall → MemberSnapshotCache η → List (Except TargetsError StrategyTargets)
  | [], _ => []
  | call :: rest, cache =>
    (call.buildCached registry digests cache).1 :: runCalls registry digests rest
      (call.buildCached registry digests cache).2

namespace TargetsCall

/-- Two calls of one fingerprint have the same sources and, on the same hours, the same readiness.
-/
def Agrees (registry : FeatureRegistry) (digests : Digests η) (call call' : TargetsCall) : Prop :=
  ∀ s s', call.sources registry = .ok s → call'.sources registry = .ok s' →
    call.fingerprint digests s = call'.fingerprint digests s' →
    s.panels = s'.panels ∧ call.hourlyAvailableAt = call'.hourlyAvailableAt ∧
      (call.strategy.snapshotHourUtc = call'.strategy.snapshotHourUtc →
        call.strategy.releaseHourUtc = call'.strategy.releaseHourUtc →
        call.usedReadiness s = call'.usedReadiness s')

end TargetsCall

section Cache

variable {registry : FeatureRegistry} {digests : Digests η} {call : TargetsCall} {s : Sources}

theorem computeSourceReadiness_congr {availableAt : Frame (Option ℤ)} {decisions : List ℤ} {a b : StrategySpec}
    (hsnapshot : a.snapshotHourUtc = b.snapshotHourUtc) (hrelease : a.releaseHourUtc = b.releaseHourUtc) :
    computeSourceReadiness availableAt decisions a = computeSourceReadiness availableAt decisions b := by
  simp [computeSourceReadiness, snapshotPositions, hsnapshot, hrelease]

theorem buildUncached_eq (hs : call.sources registry = .ok s) :
    call.buildUncached registry =
      if call.readinessFits s (call.usedReadiness s) = false then .error .dataIntegrityError
      else (call.memberBooks s (fun member => Proc.ofExcept
          (s.snapshotFrame registry call.census (call.usedReadiness s) member.name)) call.strategy.members ()).1.map
        (call.assemble s) := by
  rw [TargetsCall.buildUncached, hs]
  show (if call.readinessFits s (call.usedReadiness s) = false then _ else _) = _
  split_ifs
  · rfl
  · show (_ >>= fun books => Except.ok (call.assemble s books)) = _
    cases (call.memberBooks s (fun member => Proc.ofExcept
      (s.snapshotFrame registry call.census (call.usedReadiness s) member.name)) call.strategy.members ()).1 <;> rfl

theorem proc_bind {ε σ α β : Type} (x : Proc ε σ α) (f : α → Proc ε σ β) (t : σ) :
    (x >>= f) t = match x t with
      | (.ok a, t') => f a t'
      | (.error e, t') => (.error e, t') := rfl

theorem memberBooks_run (call : TargetsCall) (s : Sources) {σ : Type} {I : σ → Prop}
    {answer : FeatureMember → Proc TargetsError σ FloatFrame}
    {build : FeatureMember → Except TargetsError FloatFrame}
    (hanswer : ∀ member t, I t → (answer member t).1 = build member ∧ I (answer member t).2) :
    ∀ (members : List FeatureMember) {t : σ}, I t →
      (call.memberBooks s answer members t).1 =
        (call.memberBooks s (fun member =>
          (Proc.ofExcept (build member) : Proc TargetsError Unit _)) members ()).1 ∧
      I (call.memberBooks s answer members t).2
  | [], t, ht => ⟨rfl, ht⟩
  | member :: rest, t, ht => by
    have hrun := hanswer member t ht
    rcases hanswered : answer member t with ⟨r, t'⟩
    rw [hanswered] at hrun
    obtain ⟨rfl, hkept⟩ : r = build member ∧ I t' := hrun
    rw [TargetsCall.memberBooks, TargetsCall.memberBooks, proc_bind, proc_bind, hanswered, Proc.ofExcept]
    cases hbuild : build member with
    | error e => exact ⟨rfl, hkept⟩
    | ok snaps =>
      have hrest := memberBooks_run call s hanswer rest hkept
      simp only
      rw [proc_bind, proc_bind]
      rcases hbooks : call.memberBooks s answer rest t' with ⟨r, t''⟩
      rcases hbuilt : call.memberBooks s (fun member =>
        (Proc.ofExcept (build member) : Proc TargetsError Unit _)) rest () with ⟨r', u⟩
      rw [hbooks, hbuilt] at hrest
      obtain ⟨rfl, hkept⟩ : r = r' ∧ I t'' := hrest
      cases r <;> exact ⟨rfl, hkept⟩

/-! ## What the cache holds -/

/-- A stored frame is the snapshot frame of a call under this fingerprint, on its key's hours. -/
def BuiltBy (registry : FeatureRegistry) (digests : Digests η) (print : Fingerprint η) (call : TargetsCall)
    (key : String × Option ℕ × Option ℕ) (frame : FloatFrame) : Prop :=
  ∃ s, call.sources registry = .ok s ∧ call.fingerprint digests s = print ∧
    key.2 = (some call.strategy.snapshotHourUtc, some call.strategy.releaseHourUtc) ∧
    s.snapshotFrame registry call.census (call.usedReadiness s) key.1 = .ok frame

/-- A stored readiness is that of a call under this fingerprint, on the hours of its key. -/
def ReadyBy (registry : FeatureRegistry) (digests : Digests η) (print : Fingerprint η) (call : TargetsCall)
    (key : ℕ × ℕ) (readiness : SourceReadiness) : Prop :=
  ∃ s, call.sources registry = .ok s ∧ call.fingerprint digests s = print ∧
    key = (call.strategy.snapshotHourUtc, call.strategy.releaseHourUtc) ∧
    readiness = computeSourceReadiness call.hourlyAvailableAt s.decisions call.strategy

structure Bound (registry : FeatureRegistry) (digests : Digests η) (print : Fingerprint η)
    (earlier : List TargetsCall)
    (cache : MemberSnapshotCache η) : Prop where
  fingerprint : cache.fingerprint = some print
  store : Memo.Holds (fun key frame => ∃ c ∈ earlier, BuiltBy registry digests print c key frame) cache.store
  readiness : Memo.Holds (fun key r => ∃ c ∈ earlier, ReadyBy registry digests print c key r) cache.readiness

variable {print : Fingerprint η} {earlier : List TargetsCall} {cache : MemberSnapshotCache η}

theorem Bound.cons (h : Bound registry digests print earlier cache) (call : TargetsCall) :
    Bound registry digests print (call :: earlier) cache where
  fingerprint := h.fingerprint
  store key frame hkey := by
    obtain ⟨c, hc, hbuilt⟩ := h.store key frame hkey; exact ⟨c, mem_cons_of_mem call hc, hbuilt⟩
  readiness key r hkey := by
    obtain ⟨c, hc, hready⟩ := h.readiness key r hkey; exact ⟨c, mem_cons_of_mem call hc, hready⟩

def AllAgree (registry : FeatureRegistry) (digests : Digests η) (call : TargetsCall)
    (earlier : List TargetsCall) : Prop :=
  ∀ c ∈ earlier, c.Agrees registry digests call

theorem agrees_self (call : TargetsCall) : call.Agrees registry digests call := by
  intro s s' hs hs' _
  obtain rfl : s = s' := Except.ok.inj (hs.symm.trans hs'); exact ⟨rfl, rfl, fun _ _ => rfl⟩

theorem AllAgree.self (h : AllAgree registry digests call earlier) :
    AllAgree registry digests call (call :: earlier) :=
  forall_mem_cons.mpr ⟨agrees_self call, h⟩

section

variable (hs : call.sources registry = .ok s)

include hs

section

variable {c : TargetsCall} (hagrees : c.Agrees registry digests call)

include hagrees

theorem BuiltBy.frame_eq {name : String} {frame : FloatFrame}
    (h : BuiltBy registry digests (call.fingerprint digests s) c
      (name, some call.strategy.snapshotHourUtc, some call.strategy.releaseHourUtc) frame)
    :
    s.snapshotFrame registry call.census (call.usedReadiness s) name = .ok frame := by
  obtain ⟨s', hs', hprint, hkey, hframe⟩ := h
  obtain ⟨hpanels, -, hready⟩ := hagrees s' s hs' hs hprint
  simp only [Prod.mk.injEq, Option.some.injEq] at hkey
  have hused := hready hkey.1.symm hkey.2.symm
  have hdecisions : s'.decisions = s.decisions := congrArg Fingerprint.decisions hprint
  have hcensus : c.census = call.census := congrArg Fingerprint.census hprint
  rw [← hframe, ← hused, ← hcensus, Sources.snapshotFrame, Sources.snapshotFrame, hpanels, hdecisions]

theorem ReadyBy.readiness_eq {readiness : SourceReadiness}
    (h : ReadyBy registry digests (call.fingerprint digests s) c
      (call.strategy.snapshotHourUtc, call.strategy.releaseHourUtc) readiness)
    :
    readiness = computeSourceReadiness call.hourlyAvailableAt s.decisions call.strategy := by
  obtain ⟨s', hs', hprint, hkey, rfl⟩ := h
  obtain ⟨-, havailable, -⟩ := hagrees s' s hs' hs hprint
  simp only [Prod.mk.injEq] at hkey
  have hdecisions : s'.decisions = s.decisions := congrArg Fingerprint.decisions hprint
  rw [havailable, hdecisions, computeSourceReadiness_congr hkey.1.symm hkey.2.symm]

end

/-! ## One call -/

theorem cachedReadiness_run (hagree : AllAgree registry digests call earlier)
    (h : Bound registry digests (call.fingerprint digests s) (call :: earlier) cache) :
    (call.cachedReadiness s cache).1 = .ok (call.usedReadiness s) ∧
    Bound registry digests (call.fingerprint digests s) (call :: earlier) (call.cachedReadiness s cache).2 := by
  rw [TargetsCall.cachedReadiness, TargetsCall.usedReadiness]
  cases call.readiness with
  | some readiness => exact ⟨rfl, h⟩
  | none =>
    have hmemo := memo_run (call.strategy.snapshotHourUtc, call.strategy.releaseHourUtc)
      (.ok (computeSourceReadiness call.hourlyAvailableAt s.decisions call.strategy) :
        Except TargetsError SourceReadiness) h.readiness
      (fun built hbuilt => ⟨call, mem_cons_self, s, hs, rfl, rfl, (Except.ok.inj hbuilt).symm⟩)
      (fun stored ⟨c, hc, hready⟩ => by rw [hready.readiness_eq hs (hagree.self c hc)])
    exact ⟨hmemo.1, h.fingerprint, h.store, hmemo.2⟩

end

variable [DecidableEq η]

theorem bindTo_bound (h : cache.fingerprint = some print) :
    MemberSnapshotCache.bindTo print cache = (.ok (), cache) := by
  rw [MemberSnapshotCache.bindTo, proc_bind]; simp [Proc.get, h]; rfl

theorem bindTo_cases (h : cache = MemberSnapshotCache.empty ∨ ∃ print, Bound registry digests print earlier cache)
    (fresh : Fingerprint η) :
    MemberSnapshotCache.bindTo fresh cache = (.error .dataIntegrityError, cache) ∨
    ∃ cache', MemberSnapshotCache.bindTo fresh cache = (.ok (), cache') ∧
      Bound registry digests fresh earlier cache' := by
  rcases h with rfl | ⟨print, hbound⟩
  · exact .inr ⟨_, rfl, rfl, Memo.holds_nil _, Memo.holds_nil _⟩
  · by_cases heq : fresh = print
    · subst heq; exact .inr ⟨cache, bindTo_bound hbound.fingerprint, hbound⟩
    · left
      rw [MemberSnapshotCache.bindTo, proc_bind]; simp [Proc.get, hbound.fingerprint, heq]; rfl

theorem snapshots_run (hs : call.sources registry = .ok s) (hagree : AllAgree registry digests call earlier)
    (member : FeatureMember) (h : Bound registry digests (call.fingerprint digests s) (call :: earlier) cache) :
    (MemberSnapshotCache.snapshots member (s.snapshotFrame registry call.census (call.usedReadiness s) member.name)
        (some call.strategy.snapshotHourUtc) (some call.strategy.releaseHourUtc) (some (call.fingerprint digests s))
        cache).1 = s.snapshotFrame registry call.census (call.usedReadiness s) member.name ∧
    Bound registry digests (call.fingerprint digests s) (call :: earlier)
      (MemberSnapshotCache.snapshots member
        (s.snapshotFrame registry call.census (call.usedReadiness s) member.name)
        (some call.strategy.snapshotHourUtc) (some call.strategy.releaseHourUtc) (some (call.fingerprint digests s))
        cache).2 := by
  have hrun : ∀ build, MemberSnapshotCache.snapshots member build (some call.strategy.snapshotHourUtc)
      (some call.strategy.releaseHourUtc) (some (call.fingerprint digests s)) cache =
        Proc.zoom MemberSnapshotCache.store (fun cache table => { cache with store := table })
          (memo (member.name, some call.strategy.snapshotHourUtc,
            some call.strategy.releaseHourUtc) build) cache := by
    intro build
    show (MemberSnapshotCache.bindTo (call.fingerprint digests s) >>= fun _ => _) cache = _
    rw [proc_bind, bindTo_bound h.fingerprint]
  have hmemo := memo_run (member.name, some call.strategy.snapshotHourUtc, some call.strategy.releaseHourUtc)
    (s.snapshotFrame registry call.census (call.usedReadiness s) member.name) h.store
    (fun built hbuilt => ⟨call, mem_cons_self, s, hs, rfl, rfl, hbuilt⟩)
    (fun stored ⟨c, hc, hbuilt⟩ => hbuilt.frame_eq hs (hagree.self c hc))
  rw [hrun]; exact ⟨hmemo.1, h.fingerprint, hmemo.2, h.readiness⟩

/-- **One call**: refused, or answered as without the cache; and the cache only holds what the calls
built. -/
theorem buildCached_run (hagree : AllAgree registry digests call earlier)
    (h : cache = MemberSnapshotCache.empty ∨ ∃ print, Bound registry digests print earlier cache) :
    ((call.buildCached registry digests cache).1 = .error .dataIntegrityError ∨
      (call.buildCached registry digests cache).1 = call.buildUncached registry) ∧
    ((call.buildCached registry digests cache).2 = MemberSnapshotCache.empty ∨
      ∃ print, Bound registry digests print (call :: earlier) (call.buildCached registry digests cache).2) := by
  have hkept : cache = MemberSnapshotCache.empty ∨ ∃ print, Bound registry digests print (call :: earlier) cache :=
    h.imp id fun ⟨print, hbound⟩ => ⟨print, hbound.cons call⟩
  rw [TargetsCall.buildCached, proc_bind, Proc.ofExcept]
  cases hs : call.sources registry with
  | error e =>
    have huncached : call.buildUncached registry = .error e := by
      rw [TargetsCall.buildUncached, hs]; rfl
    exact ⟨.inr huncached.symm, hkept⟩
  | ok s =>
    simp only
    rw [proc_bind]
    rcases bindTo_cases h (call.fingerprint digests s) with hrefused | ⟨cache', hpassed, hbound⟩
    · rw [hrefused]; exact ⟨.inl rfl, hkept⟩
    · rw [hpassed, buildUncached_eq hs]
      simp only
      rw [proc_bind]
      have hready := cachedReadiness_run hs hagree (hbound.cons call)
      rcases hread : call.cachedReadiness s cache' with ⟨r, cache''⟩
      rw [hread] at hready
      obtain ⟨rfl, hbound⟩ : r = .ok (call.usedReadiness s) ∧ _ := hready
      simp only
      split_ifs with hfits
      · exact ⟨.inl rfl, .inr ⟨_, hbound⟩⟩
      · have hbooks := memberBooks_run call s (fun member cache hcache => snapshots_run hs hagree member hcache)
          call.strategy.members hbound
        rw [proc_bind]
        rcases hrun : call.memberBooks s _ call.strategy.members cache'' with ⟨r, final⟩
        rw [hrun] at hbooks
        obtain ⟨hresult, hbound⟩ := hbooks
        rw [← hresult]
        cases r with
        | ok books | error e => exact ⟨.inr rfl, .inr ⟨_, hbound⟩⟩

theorem runCalls_transparent : ∀ {calls earlier : List TargetsCall} {cache : MemberSnapshotCache η},
    (∀ call ∈ calls, AllAgree registry digests call earlier) →
    calls.Pairwise (TargetsCall.Agrees registry digests) →
    (cache = MemberSnapshotCache.empty ∨ ∃ print, Bound registry digests print earlier cache) →
    List.Forall₂ (fun call result => result = .error .dataIntegrityError ∨ result = call.buildUncached registry)
      calls (runCalls registry digests calls cache)
  | [], _, _, _, _, _ => .nil
  | call :: rest, earlier, cache, hearlier, hcalls, hcache => by
    obtain ⟨hfirst, hrest⟩ := pairwise_cons.mp hcalls
    obtain ⟨hresult, hkept⟩ := buildCached_run (hearlier call mem_cons_self) hcache
    refine .cons hresult (runCalls_transparent (fun call' hcall' => ?_) hrest hkept)
    exact forall_mem_cons.mpr ⟨hfirst call' hcall', hearlier call' (mem_cons_of_mem call hcall')⟩

/-- The calls of a run, each of which agrees with those before it, are refused or answered as
without the cache. -/
theorem cache_transparent (registry : FeatureRegistry) (digests : Digests η) (calls : List TargetsCall)
    (h : calls.Pairwise (TargetsCall.Agrees registry digests)) :
    List.Forall₂ (fun call result => result = .error .dataIntegrityError ∨ result = call.buildUncached registry)
      calls (runCalls registry digests calls MemberSnapshotCache.empty) :=
  runCalls_transparent (fun _ _ _ hc => absurd hc not_mem_nil) h (.inl rfl)

end Cache

/-! ## An earlier row -/

inductive Digested
  | index (labels : List ℤ)
  | floats (row : Option ℤ × Option (List (Option ℚ)))
  | instants (row : Option ℤ × Option (List (Option ℤ)))
  deriving DecidableEq

def exactDigests : Digests Digested where
  index := .index
  floats := .floats
  instants := .instants

/-- `_taker_imbalance_builder(24)`. -/
def takerImbalance24 (panels : Panels) : Except TargetsError FloatFrame :=
  .ok (Frame.tabulate panels.close.index panels.close.columns fun i j =>
    let sum := fun (frame : FloatFrame) =>
      let window := (rollingWindow 24 frame.rows i).filterMap fun row => row.getD j none
      if window.length = 24 then some window.sum else none
    match sum panels.takerBuyQuote, sum panels.quoteVol with
    | some bought, some traded => if traded = 0 then none else some (bought / traded - 1 / 2)
    | _, _ => none)

def flowRegistry : FeatureRegistry := fun name => if name = "taker_imb_24h" then some takerImbalance24 else none

theorem sign_one : (1 : ℤ) = -1 ∨ (1 : ℤ) = 1 := .inr rfl

def flowStrategy : StrategySpec :=
  { earlyStrategy with
    strategyId := "flow"
    members := [⟨"taker_imb_24h", 1, sign_one⟩]
    snapshotHourUtc := 22
    releaseHourUtc := 23
    entryHourUtc := 0
    strategyId_nonempty := by decide
    members_nonempty := by simp
    members_named := by simp
    members_unique := by simp
    releaseHour_le := by decide
    entryHour_le := by decide
    snapshot_before_release := by decide }

def flowCensus : List String := ["AUSDT", "BUSDT"]

def flowHours : List ℤ := (List.range 25).map fun i => (2039 + i) * hourNs

def flowCall (bought : ℕ → ℕ → Option ℚ) : TargetsCall where
  hourlyPanels := ((∅ : Dict FloatFrame).insert "close" (.tabulate flowHours flowCensus fun _ _ => some 1)
    |>.insert "quote_vol" (.tabulate flowHours flowCensus fun _ _ => some 2)
    |>.insert "taker_buy_quote" (.tabulate flowHours flowCensus bought))
  hourlyAvailableAt := .tabulate flowHours flowCensus fun i _ => some ((2040 + i) * hourNs)
  daily := { close := .tabulate ((List.range 87).map fun i => i * dayNs) flowCensus fun _ _ => some 1
             quoteVolume := .tabulate ((List.range 87).map fun i => i * dayNs) flowCensus fun _ _ => some 1000000 }
  census := flowCensus
  marketClose := .tabulate flowHours flowCensus fun _ _ => some 1
  strategy := flowStrategy

def boughtFirst : TargetsCall := flowCall fun _ j => some (if j = 0 then 1 else 0)

def boughtSecond : TargetsCall := flowCall fun i j => some (if (i = 24) = (j = 0) then 1 else 0)

def lastTargets (result : Except TargetsError StrategyTargets) : Option (List ℚ) :=
  result.toOption.bind fun targets => targets.targetWeights.rows.getLast?

theorem sign_neg : (-1 : ℤ) = -1 ∨ (-1 : ℤ) = 1 := .inl rfl

/-- A variant of the strategy: the other sign. -/
def soldFirst : TargetsCall :=
  { boughtFirst with
    strategy :=
      { flowStrategy with
        strategyId := "fade"
        members := [⟨"taker_imb_24h", -1, sign_neg⟩]
        strategyId_nonempty := by decide
        members_nonempty := by simp
        members_named := by simp
        members_unique := by simp } }

/-- The second variant is answered from the frames of the first. -/
theorem cache_transparent_variants :
    List.Forall₂ (fun call result => result = .error .dataIntegrityError ∨ result = call.buildUncached flowRegistry)
      [boughtFirst, soldFirst] (runCalls flowRegistry exactDigests [boughtFirst, soldFirst] .empty) := by
  refine cache_transparent flowRegistry exactDigests [boughtFirst, soldFirst] (pairwise_pair.mpr ?_)
  intro s s' hs hs' _
  obtain rfl : s = s' := Except.ok.inj (hs.symm.trans hs'); exact ⟨rfl, rfl, fun _ _ => rfl⟩

/-- The second call has other buy volumes in all rows but the last. -/
theorem cache_answers_first :
    (runCalls flowRegistry exactDigests [boughtFirst, boughtSecond] .empty).map lastTargets =
      [some [1 / 2, -1 / 2], some [1 / 2, -1 / 2]] ∧
    lastTargets (boughtSecond.buildUncached flowRegistry) = some [-1 / 2, 1 / 2] := by
  decide +kernel

end CryptoPilot.Strategy
