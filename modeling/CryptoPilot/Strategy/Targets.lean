/- # Targets — building targets, with and without a snapshot cache.

`build_strategy_targets` ranks, for each decision day, the features of the roster as they stood at
the snapshot bar. With a `MemberSnapshotCache` the frame of a feature is built once and answered
from the cache afterwards, under the guard of a fingerprint of the inputs.  The features are a
parameter, and so are the digests of the fingerprint. -/
import CryptoPilot.Lib.Memo
import CryptoPilot.Strategy.Frames

namespace CryptoPilot.Strategy

open CryptoPilot.Lib

/-! ## Strategies -/

structure FeatureMember where
  name : String
  sign : ℤ
  sign_valid : sign = -1 ∨ sign = 1

structure StrategySpec where
  strategyId : String
  breadth : ℕ
  members : List FeatureMember
  minRankSymbols : ℕ
  snapshotHourUtc : ℕ
  releaseHourUtc : ℕ
  entryHourUtc : ℕ
  exposureMultiplier : ℚ := 1
  nameClip : Option ℚ := none
  strategyId_nonempty : strategyId ≠ ""
  breadth_pos : 0 < breadth
  members_nonempty : members ≠ []
  members_named : ∀ m ∈ members, m.name ≠ ""
  members_unique : (members.map FeatureMember.name).Nodup
  minRankSymbols_ge : 2 ≤ minRankSymbols
  releaseHour_le : releaseHourUtc ≤ 23
  entryHour_le : entryHourUtc ≤ 23
  snapshot_before_release : snapshotHourUtc < releaseHourUtc
  exposure_pos : 0 < exposureMultiplier
  nameClip_valid : ∀ clip ∈ nameClip, 0 < clip ∧ clip ≤ 1

structure StrategyTargets where
  targetWeights : Frame ℚ
  signalAvailableAt : List ℤ
  strategy : StrategySpec

/-- `SourceReadiness`; a bar position is `-1` where there is no snapshot bar. -/
structure SourceReadiness where
  decisions : List ℤ
  barPositions : List ℤ
  ready : List (List Bool)
  deriving DecidableEq

/-! ## Hourly sources -/

structure Panels where
  close : FloatFrame
  quoteVol : FloatFrame
  takerBuyQuote : FloatFrame
  marketClose : FloatFrame

def historyBars : ℕ := 720

/-- `index.get_indexer` for one label. -/
def getIndexer (index : List ℤ) (label : ℤ) : ℤ :=
  match index.idxOf? label with
  | some i => i
  | none => -1

/-- `decisions + snapshot_hour`, as positions in the hourly index. -/
def snapshotPositions (index decisions : List ℤ) (strategy : StrategySpec) : List ℤ :=
  decisions.map fun d => getIndexer index (d + strategy.snapshotHourUtc * hourNs)

/-- `compute_source_readiness`: every bar of the trailing history was published by the release. -/
def computeSourceReadiness (availableAt : Frame (Option ℤ)) (decisions : List ℤ) (strategy : StrategySpec) :
    SourceReadiness where
  decisions := decisions
  barPositions := snapshotPositions availableAt.index decisions strategy
  ready := List.zipWith (fun d pos => (List.range availableAt.columns.length).map fun j =>
      if 0 ≤ pos then
        (rollingWindow historyBars availableAt.rows pos.toNat).all fun row =>
          (row.getD j none).any fun t => decide (t ≤ d + strategy.releaseHourUtc * hourNs)
      else false)
    decisions (snapshotPositions availableAt.index decisions strategy)

def validatedHourlyPanels (hourlyPanels : Dict FloatFrame) (availableAt : Frame (Option ℤ))
    (marketClose : FloatFrame)
    (census : List String) (roster : Frame Bool) : Except TargetsError Panels :=
  match hourlyPanels.lookup "close", hourlyPanels.lookup "quote_vol", hourlyPanels.lookup "taker_buy_quote" with
  | some close, some quoteVol, some takerBuyQuote =>
    if ¬ [close, quoteVol, takerBuyQuote].all (fun p => isUtcHourlyGrid p.index) then .error .dataIntegrityError
    else if [close, quoteVol, takerBuyQuote].any (fun p => p.index != close.index || p.columns !=
      close.columns) then
      .error .dataIntegrityError
    else if (List.range roster.columns.length).any (fun j => (roster.rows.any fun row => row.getD j false) &&
        !decide (roster.columns.getD j "" ∈ close.columns)) then .error .dataIntegrityError
    else if availableAt.index ≠ close.index ∨ availableAt.columns ≠ close.columns then .error .dataIntegrityError
    else if availableAt.rows.any (fun row => row.any Option.isNone) then .error .dataIntegrityError
    else if (List.zipWith (fun t row => row.any fun a => a.any fun a => decide (a < t))
        close.index availableAt.rows).any id then .error .dataIntegrityError
    else if marketClose.index ≠ close.index then .error .dataIntegrityError
    else if marketClose.columns ≠ census then .error .dataIntegrityError
    else .ok { close := close, quoteVol := quoteVol, takerBuyQuote := takerBuyQuote, marketClose := marketClose }
  | _, _, _ => .error .dataIntegrityError

/-! ## The cache -/

/-- The digests of a fingerprint (`hash_pandas_object`, SHA-256): of an index, and of a last row. -/
structure Digests (η : Type) where
  index : List ℤ → η
  floats : Option ℤ × Option (List (Option ℚ)) → η
  instants : Option ℤ × Option (List (Option ℤ)) → η

structure FramePrint (η : Type) where
  key : String
  shape : ℕ × ℕ
  columns : List String
  index : η
  lastRow : η
  deriving DecidableEq

structure Fingerprint (η : Type) where
  frames : List (FramePrint η)
  decisions : List ℤ
  census : List String
  deriving DecidableEq

variable {η : Type} [DecidableEq η]

def Digests.print (digests : Digests η) (key : String) (frame : FloatFrame) : FramePrint η where
  key := key
  shape := frame.shape
  columns := frame.columns
  index := digests.index frame.index
  lastRow := digests.floats frame.lastRow

/-- `_snapshot_inputs_fingerprint`, in the order of the sorted keys. -/
def snapshotInputsFingerprint (digests : Digests η) (panels : Panels) (availableAt : Frame (Option ℤ)) :
    List (FramePrint η) :=
  [{ key := "available_at", shape := availableAt.shape, columns := availableAt.columns,
     index := digests.index availableAt.index, lastRow := digests.instants availableAt.lastRow },
    digests.print "close" panels.close, digests.print "market_close" panels.marketClose,
    digests.print "quote_vol" panels.quoteVol, digests.print "taker_buy_quote" panels.takerBuyQuote]

structure MemberSnapshotCache (η : Type) where
  store : Memo (String × Option ℕ × Option ℕ) FloatFrame
  fingerprint : Option (Fingerprint η)
  readiness : Memo (ℕ × ℕ) SourceReadiness

namespace MemberSnapshotCache

def empty : MemberSnapshotCache η where
  store := []
  fingerprint := none
  readiness := []

/-- `bind`. -/
def bindTo (fingerprint : Fingerprint η) : Proc TargetsError (MemberSnapshotCache η) Unit := do
  let cache ← Proc.get
  match cache.fingerprint with
  | none => Proc.modify fun cache => { cache with fingerprint := some fingerprint }
  | some bound => if fingerprint ≠ bound then Proc.throw .dataIntegrityError else pure ()

def sourceReadiness (availableAt : Frame (Option ℤ)) (decisions : List ℤ) (strategy : StrategySpec) :
    Proc TargetsError (MemberSnapshotCache η) SourceReadiness :=
  Proc.zoom readiness (fun cache table => { cache with readiness := table })
    (memo (strategy.snapshotHourUtc, strategy.releaseHourUtc)
      (.ok (computeSourceReadiness availableAt decisions strategy)))

def snapshots (member : FeatureMember) (build : Except TargetsError FloatFrame)
    (snapshotHour releaseHour : Option ℕ)
    (fingerprint : Option (Fingerprint η)) : Proc TargetsError (MemberSnapshotCache η) FloatFrame := do
  let cache ← Proc.get
  match fingerprint, cache.fingerprint with
  | some fingerprint, _ => bindTo fingerprint
  | none, some _ => Proc.throw .dataIntegrityError
  | none, none => pure ()
  Proc.zoom store (fun cache table => { cache with store := table })
    (memo (member.name, snapshotHour, releaseHour) build)

end MemberSnapshotCache

/-! ## Targets -/

/-- `FEATURE_REGISTRY`: the builder of each registered feature. -/
abbrev FeatureRegistry : Type := String → Option (Panels → Except TargetsError FloatFrame)

/-- The arguments of `build_strategy_targets` but for the cache. -/
structure TargetsCall where
  hourlyPanels : Dict FloatFrame
  hourlyAvailableAt : Frame (Option ℤ)
  daily : DailyCensus
  census : List String
  marketClose : FloatFrame
  strategy : StrategySpec
  blockedDecisions : Option (Frame Bool) := none
  readiness : Option SourceReadiness := none

structure Sources where
  roster : Frame Bool
  panels : Panels

namespace Sources

variable (s : Sources)

/-- `daily_idx[:-1]`. -/
def decisions : List ℤ := s.roster.index.dropLast

/-- `_snapshot_frame`: the feature at the snapshot bar, where its sources were ready. -/
def snapshotFrame (registry : FeatureRegistry) (census : List String) (readiness : SourceReadiness)
    (name : String) :
    Except TargetsError FloatFrame :=
  match registry name with
  | none => .error .valueError
  | some build => do
    let feature ← build s.panels
    -- `reindex` needs labels that are unique
    if ¬ (feature.columns.Nodup ∧ feature.index.Nodup) then .error .valueError
    else .ok (Frame.tabulate s.decisions census fun i c =>
      let position := readiness.barPositions.getD i (-1)
      match s.panels.close.columns.idxOf? (census.getD c "") with
      | some j =>
        if 0 ≤ position ∧ (readiness.ready.getD i []).getD j false = true then
          feature.cellAt (s.panels.close.index.getD position.toNat 0) (census.getD c "")
        else none
      | none => none)

end Sources

namespace TargetsCall

variable (call : TargetsCall)

def sources (registry : FeatureRegistry) : Except TargetsError Sources := do
  if call.strategy.members.any (fun m => (registry m.name).isNone) then .error .valueError
  let roster ← buildPitRoster call.daily call.census call.strategy.breadth call.blockedDecisions
  let panels ← validatedHourlyPanels call.hourlyPanels call.hourlyAvailableAt call.marketClose call.census roster
  .ok { roster := roster, panels := panels }

def fingerprint (digests : Digests η) (s : Sources) : Fingerprint η where
  frames := snapshotInputsFingerprint digests s.panels call.hourlyAvailableAt
  decisions := s.decisions
  census := call.census

/-- The readiness a call works with: its argument, or else what its availability gives. -/
def usedReadiness (s : Sources) : SourceReadiness :=
  call.readiness.getD (computeSourceReadiness call.hourlyAvailableAt s.decisions call.strategy)

def readinessFits (s : Sources) (readiness : SourceReadiness) : Bool :=
  decide (readiness.decisions = s.decisions) && decide (readiness.ready.length = s.decisions.length) &&
    readiness.ready.all (fun row => row.length == s.panels.close.columns.length) &&
    decide (readiness.barPositions = snapshotPositions s.panels.close.index s.decisions call.strategy)

def memberBook (s : Sources) (member : FeatureMember) (snaps : FloatFrame) : Frame ℚ :=
  Frame.tabulate s.decisions call.census fun i c =>
    let signal := snaps.row i
    let eligible := List.zipWith (fun seat (x : Option ℚ) => seat && x.isSome) (s.roster.row i) signal
    (rankWeightRow signal eligible member.sign call.strategy.minRankSymbols).getD c 0

/-- The ensemble of the books, clipped and levered, at the entry times. -/
def assemble (s : Sources) (books : List (Frame ℚ)) : StrategyTargets :=
  let ensemble := fun i => (List.range call.census.length).map fun c =>
    ((books.map fun book => book.cell i c).sum) / books.length
  let clipped := fun i => match call.strategy.nameClip with
    | some clip => clipRow clip (ensemble i)
    | none => ensemble i
  { targetWeights := Frame.tabulate (s.decisions.map fun d => d + dayNs + call.strategy.entryHourUtc * hourNs)
      call.census fun i c => (clipped i).getD c 0 * call.strategy.exposureMultiplier
    signalAvailableAt := s.decisions.map fun d => d + call.strategy.releaseHourUtc * hourNs
    strategy := call.strategy }

def memberBooks (s : Sources) {σ : Type} (answer : FeatureMember → Proc TargetsError σ FloatFrame) :
    List FeatureMember → Proc TargetsError σ (List (Frame ℚ))
  | [] => pure []
  | member :: rest => do
    let snaps ← answer member
    let books ← memberBooks s answer rest
    pure (call.memberBook s member snaps :: books)

/-- `build_strategy_targets` without a cache. -/
def buildUncached (registry : FeatureRegistry) : Except TargetsError StrategyTargets := do
  let s ← call.sources registry
  let readiness := call.usedReadiness s
  if call.readinessFits s readiness = false then .error .dataIntegrityError
  let books ← (call.memberBooks s (fun member =>
    Proc.ofExcept (s.snapshotFrame registry call.census readiness member.name)) call.strategy.members ()).1
  .ok (call.assemble s books)

/-- The readiness of a call, computed in the cache where it is no argument. -/
def cachedReadiness (s : Sources) : Proc TargetsError (MemberSnapshotCache η) SourceReadiness :=
  match call.readiness with
  | some readiness => pure readiness
  | none => MemberSnapshotCache.sourceReadiness call.hourlyAvailableAt s.decisions call.strategy

/-- `build_strategy_targets` with a cache. -/
def buildCached (registry : FeatureRegistry) (digests : Digests η) :
    Proc TargetsError (MemberSnapshotCache η) StrategyTargets := do
  let s ← Proc.ofExcept (call.sources registry)
  let fingerprint := call.fingerprint digests s
  MemberSnapshotCache.bindTo fingerprint
  let readiness ← call.cachedReadiness s
  if call.readinessFits s readiness = false then Proc.throw .dataIntegrityError
  else do
    let books ← call.memberBooks s (fun member => MemberSnapshotCache.snapshots member
      (s.snapshotFrame registry call.census readiness member.name) (some call.strategy.snapshotHourUtc)
      (some call.strategy.releaseHourUtc) (some fingerprint)) call.strategy.members
    pure (call.assemble s books)

end TargetsCall

end CryptoPilot.Strategy
