/- # WindowStream — the execution window generator.

`_iter_mhs_execution_windows` cuts a target path into logical partitions of 31 days and, under a
memory budget, each partition into physical pieces.  The cuts do not depend on the rosters, so the
generator is two steps here: `pieces` lists the cuts, and `materialize` builds the window of one of
them for a roster. -/
import CryptoPilot.Engine.WindowLedger

namespace CryptoPilot.Engine

open CryptoPilot.Live (Exc)

def stepNs : ℤ := 3 * minuteNs

/-- `max_window`: 31 days. -/
def maxWindowNs : ℤ := 31 * 24 * 60 * minuteNs

/-- `InstrumentSettlementRecord`, in the order the registry parser requires of its instants. -/
structure SettlementRecord where
  symbol : String
  eventId : String
  announcedAt : ℤ
  lastTradeAt : ℤ
  deliveryAt : ℤ
  settlementPrice : ℚ
  priceSource : PriceSource
  feeBps : ℚ
  digest : String
  announced_le : announcedAt ≤ lastTradeAt
  lastTrade_le : lastTradeAt ≤ deliveryAt
  price_pos : 0 < settlementPrice
  fee_nonneg : 0 ≤ feeBps

/-- `settlement_event_from_record`. -/
def SettlementRecord.event (r : SettlementRecord) : SettlementEvent where
  eventId := r.eventId
  symbol := r.symbol
  effectiveAt := r.deliveryAt
  availableAt := r.deliveryAt
  settlementPrice := r.settlementPrice
  feeBps := r.feeBps
  sourceDigest := r.digest
  announcedAt := some r.announcedAt
  lastTradeAt := some r.lastTradeAt
  priceSource := r.priceSource
  announced_le := r.announced_le
  lastTrade_le := r.lastTrade_le
  price_pos := r.price_pos
  fee_nonneg := r.fee_nonneg

/-- The market a replay reads: trade bars, funding on the bars, halts and the settlement registry.
-/
structure Market where
  high : ℤ → String → Option ℚ
  low : ℤ → String → Option ℚ
  close : ℤ → String → Option ℚ
  fundingRate : ℤ → String → ℚ
  fundingKnown : ℤ → String → Bool
  quoteVolume : ℤ → String → Option ℚ
  halts : List (ℤ × ℤ)
  registry : List SettlementRecord

structure StreamRequest where
  columns : List String
  decisions : List Decision
  start : ℤ
  stop : ℤ
  spec : ExecutionSpec
  columns_nodup : columns.Nodup

/-! ## The cuts -/

/-- `pd.date_range` with the three-minute frequency. -/
def dateRange (a b : ℤ) : List ℤ := (List.range ((b - a) / stepNs + 1).toNat).map (fun k : ℕ => a + k * stepNs)

/-- One physical piece: its bars, its decisions as global ordinals, the ordinal targets are
scheduled to, the partition, and whether it is cut for its decisions. -/
structure Piece where
  grid : List ℤ
  first : ℕ
  decisions : List Decision
  stop : ℕ
  key : ℕ × ℕ
  carries : Bool

/-- `bounds`: the partitions with the ordinals of their first decisions. -/
def partitions : ℕ → ℕ → List Decision → List (ℕ × List Decision)
  | 0, _, _ => []
  | _ + 1, _, [] => []
  | fuel + 1, i0, d :: rest =>
    let inside := rest.takeWhile (fun e => decide (e.label - d.label ≤ maxWindowNs))
    (i0, d :: inside) :: partitions fuel (i0 + 1 + inside.length) (rest.drop inside.length)

section Cuts

variable (req : StreamRequest)

/-- `resolve_ns`: the timeout label of a decision on the replay's grid, if before the fence. -/
def resolveNs (d : Decision) : Option ℤ :=
  let index := if d.signal < req.start then 0 else (d.signal - req.start) / stepNs + 1
  let label := req.start + index * stepNs
  let timeout := label + req.spec.timeoutNs
  if req.spec.timeoutNs % stepNs = 0 ∧ label ≤ req.stop - stepNs ∧ timeout ≤ req.stop - stepNs then some timeout
  else none

/-- `grid_end` of a partition that is not the last one. -/
def partitionEnd (ds : List Decision) : ℤ :=
  match (ds.filterMap (resolveNs req)).max? with
  | some resolve => resolve
  | none => (ds.getLastD ⟨0, 0, fun _ => none⟩).label + 120 * minuteNs

def partitionGrid (previous : Option Decision) (ds : List Decision) (isLast : Bool) : List ℤ :=
  let gridStart := match previous with
    | none => req.start
    | some d => d.label
  let fence := req.stop - stepNs
  let gridEnd := if isLast then req.stop else min (partitionEnd req ds) req.stop
  let effectiveEnd := if isLast = true ∨ req.stop ≤ gridEnd then fence else min gridEnd fence
  dateRange gridStart effectiveEnd

/-- `_minimum_mhs_execution_bars`. -/
def minimumBars : ℕ := max 2 (((req.spec.timeoutNs + stepNs - 1) / stepNs).toNat + 1)

/-- `searchsorted(grid, t, "left")`. -/
def posLeft (grid : List ℤ) (t : ℤ) : ℕ := (grid.filter (fun b => decide (b < t))).length

def timeoutPos (grid : List ℤ) (d : Decision) : ℕ :=
  match resolveNs req d with
  | some r => posLeft grid r
  | none => min ((grid.filter (fun b => decide (b ≤ d.signal))).length + minimumBars req - 1) (grid.length - 1)

def minimumPieceBars (grid : List ℤ) (ds : List Decision) : ℕ :=
  max (minimumBars req)
    ((ds.map (fun d => timeoutPos req grid d + 1 - posLeft grid d.label)).foldl max 0)

/-- The bars `[g0, g1]` of a grid. -/
def cut (grid : List ℤ) (g0 g1 : ℕ) : List ℤ := (grid.take (g1 + 1)).drop g0

def pieceEnd (grid : List ℤ) (planned g0 : ℕ) : ℕ := min (g0 + planned - 1) (grid.length - 1)

def fitting (grid : List ℤ) (g1 : ℕ) (ds : List Decision) : List Decision :=
  ds.takeWhile (fun e => decide (posLeft grid e.label ≤ g1) && decide (timeoutPos req grid e ≤ g1))

/-- The last position of a piece without decisions: before the next decision. -/
def gapEnd (grid : List ℤ) (g1 : ℕ) (d : Decision) : ℕ :=
  if posLeft grid d.label ≤ g1 then posLeft grid d.label - 1 else g1

/-- The loop over the decisions of a budgeted partition: pieces, position at its end, and whether
every decision was taken. -/
def decisionPieces (grid : List ℤ) (key : ℕ × ℕ) (planned : ℕ) :
    ℕ → ℕ → ℕ → List Decision → Except Exc (List Piece × ℕ × Bool)
  | 0, _, _, _ => .error .other
  | _ + 1, g0, _, [] => .ok ([], g0, true)
  | fuel + 1, g0, i, d :: rest =>
    let g1 := pieceEnd grid planned g0
    let fits := fitting req grid g1 (d :: rest)
    if fits = [] then
      let g1 := gapEnd grid g1 d
      if g1 < g0 + 1 then .error .dataIntegrityError
      else do
        let (later, g, done) ← decisionPieces grid key planned fuel g1 i (d :: rest)
        .ok (⟨cut grid g0 g1, i, [], i, key, false⟩ :: later, g, done)
    else
      let piece : Piece := ⟨cut grid g0 g1, i, fits, i + fits.length, key, true⟩
      let left := (d :: rest).drop fits.length
      if g1 = grid.length - 1 then .ok ([piece], g0, left.isEmpty)
      else do
        let (later, g, done) ← decisionPieces grid key planned fuel g1 (i + fits.length) left
        .ok (piece :: later, g, done)

def tailPieces (grid : List ℤ) (key : ℕ × ℕ) (planned : ℕ) : ℕ → ℕ → List Piece
  | 0, _ => []
  | fuel + 1, g =>
    if g < grid.length - 1 then
      let g1 := pieceEnd grid planned g
      ⟨cut grid g g1, key.2, [], key.2, key, false⟩ ::
        (if g1 = grid.length - 1 then [] else tailPieces grid key planned fuel g1)
    else []

def partitionPieces (plan : Option (ℕ × ℕ → ℕ)) (previous : Option Decision) (i0 : ℕ) (ds : List Decision)
    (isLast : Bool) : Except Exc (List Piece) :=
  let grid := partitionGrid req previous ds isLast
  let key := (i0, i0 + ds.length)
  let whole : Piece := ⟨grid, i0, ds, i0 + ds.length, key, true⟩
  if grid.length < 2 then .error .dataIntegrityError
  else
    match plan with
    | none => .ok [whole]
    | some plan =>
      let least := minimumPieceBars req grid ds
      let planned := plan key
      if grid.length < least then .error .dataIntegrityError
      else if planned < least ∨ grid.length < planned then .error .other
      else if planned = grid.length then .ok [whole]
      else do
        let (ps, g, done) ← decisionPieces req grid key planned (grid.length + ds.length + 1) 0 i0 ds
        .ok (if done then ps ++ tailPieces grid key planned grid.length g else ps)

def allPieces (plan : Option (ℕ × ℕ → ℕ)) : Option Decision → List (ℕ × List Decision) → Except Exc (List Piece)
  | _, [] => .ok []
  | previous, (i0, ds) :: rest => do
    let ps ← partitionPieces req plan previous i0 ds rest.isEmpty
    let later ← allPieces plan ds.getLast? rest
    .ok (ps ++ later)

def pieces (plan : Option (ℕ × ℕ → ℕ)) : Except Exc (List Piece) :=
  if req.stop ≤ req.start then .error .dataIntegrityError
  else if req.decisions = [] then
    .ok [⟨dateRange req.start (req.stop - stepNs), 0, [], 0, (0, 0), true⟩]
  else allPieces req plan none (partitions req.decisions.length 0 req.decisions)

end Cuts

/-! ## Rosters -/

def targeted (ds : List Decision) (s : String) :
    Bool := ds.any (fun d => (d.target s).any (fun x => decide (x ≠ 0)))

/-- `_roster_requirement` without a live callback: every column with a finite nonzero target before
`stop`. -/
def targetRequirement (req : StreamRequest) (stop : ℕ) : List String :=
  req.columns.filter (targeted (req.decisions.take stop))

/-- `_piece_roster`, in canonical order. -/
def pieceRoster (req : StreamRequest) (p : Piece) (previousActive requirement : List String) : List String :=
  req.columns.filter (fun s => targeted p.decisions s || decide (s ∈ previousActive) || decide (s ∈ requirement))

def Market.settlementsFor (m : Market) (s : String) : List SettlementRecord :=
  m.registry.filter (fun r => decide (r.symbol = s))

/-- `settled_before_piece`: delivered before the piece, and every target of it exactly zero. -/
def settledBeforePiece (m : Market) (p : Piece) (s : String) : Bool :=
  (m.settlementsFor s).any (fun r => decide (r.deliveryAt < p.grid.headD 0)) &&
    p.decisions.all (fun d => decide (d.target s = some 0))

def emittedBefore (a b : SettlementEvent) : Prop :=
  a.effectiveAt < b.effectiveAt ∨ a.effectiveAt = b.effectiveAt ∧ a.eventId ≤ b.eventId

instance : DecidableRel emittedBefore := fun a b => by
  unfold emittedBefore
  infer_instance

/-- The records of a roster symbol a piece emits: every lifecycle announced by the piece end. -/
def emittedRecords (m : Market) (grid : List ℤ) (s : String) : List SettlementRecord :=
  (m.settlementsFor s).filter (fun r => decide (r.announcedAt ≤ grid.getLastD 0))

/-- The registry contradicts the lake, or a symbol is relisted inside the replay. -/
def settlementsRejected (req : StreamRequest) (m : Market) (grid : List ℤ) (s : String) : Bool :=
  decide (1 < ((m.settlementsFor s).filter (fun r =>
    decide (¬ (r.deliveryAt ≤ req.start ∨ req.stop ≤ r.announcedAt)))).length) ||
  (emittedRecords m grid s).any (fun r => grid.any (fun b =>
    decide (r.lastTradeAt ≤ b ∧ b ≤ r.deliveryAt) && (m.quoteVolume b s).any (fun qv => decide (0 < qv))))

def settlementEventsForPiece (req : StreamRequest) (m : Market) (roster : List String) (grid : List ℤ) :
    Except Exc (List SettlementEvent) :=
  if roster.any (settlementsRejected req m grid) then .error .dataIntegrityError
  else .ok ((roster.flatMap (fun s => (emittedRecords m grid s).map SettlementRecord.event)).insertionSort
    emittedBefore)

theorem dateRange_sorted (a b : ℤ) : (dateRange a b).Pairwise (· < ·) := by
  rw [dateRange, List.pairwise_map]
  apply List.pairwise_lt_range.imp
  intro i j hij
  have hstep : (0 : ℤ) < stepNs := by decide
  nlinarith

/-- `_materialize_execution_piece`. -/
def materialize (req : StreamRequest) (m : Market) (p : Piece) (previousActive requirement : List String) :
    Except Exc Window :=
  let roster := (pieceRoster req p previousActive requirement).filter (fun s => !settledBeforePiece m p s)
  if h : p.grid.Pairwise (· < ·) then do
    let events ← settlementEventsForPiece req m roster p.grid
    .ok
      { columns := req.columns
        symbols := roster
        grid := p.grid
        high := m.high
        low := m.low
        close := m.close
        mark := m.close
        fundingRate := m.fundingRate
        fundingKnown := m.fundingKnown
        quoteVolume := m.quoteVolume
        availableAt := some (fun b => b + stepNs)
        venueHalts := m.halts.filter (fun x =>
          decide (x.1 < p.grid.getLastD 0 + stepNs) && decide (p.grid.headD 0 < x.2))
        decisions := p.decisions
        settlementEvents := events
        logicalPartition := some p.key
        grid_sorted := h
        symbols_nodup := (req.columns_nodup.filter _).filter _
        symbols_sub := fun _ hs => List.mem_of_mem_filter (List.mem_of_mem_filter hs)
        columns_nodup := req.columns_nodup }
  else .error .other

/-! ## Streams -/

def nextActive (req : StreamRequest) (p : Piece) (previous : List String) : List String :=
  if p.carries then req.columns.filter (targeted p.decisions) else previous

def targetWindows (req : StreamRequest) (m : Market) : List String → List Piece → Except Exc (List Window)
  | _, [] => .ok []
  | previous, p :: rest => do
    let w ← materialize req m p previous (targetRequirement req p.stop)
    let later ← targetWindows req m (nextActive req p previous) rest
    .ok (w :: later)

/-- `_iter_mhs_execution_windows` without a live requirement. -/
def windowStream (req : StreamRequest) (m : Market) (plan : Option (ℕ × ℕ → ℕ)) : Except Exc (List Window) := do
  let ps ← pieces req plan
  targetWindows req m [] ps

/-- `required_symbols`: the symbols held or with an unresolved order. -/
def requiredSymbols (cfg : ReplayConfig) (acc : Acc) : List String :=
  cfg.columns.filter (fun s => decide (acc.units s ≠ 0) || acc.mirrorPending.any (fun f => decide (f.symbol = s)))

/-- How a stream chooses the symbols a piece has to load besides its own intents. -/
inductive RosterMode where
  /-- the live requirement of the consuming accumulator -/
  | live
  /-- every column targeted so far -/
  | targets
  deriving DecidableEq, Repr

def drive (cfg : ReplayConfig) (req : StreamRequest) (m : Market) (mode : RosterMode)
    (state : Acc × List String) (p : Piece) : Except Exc (Acc × List String) := do
  let requirement := match mode with
    | .live => requiredSymbols cfg state.1
    | .targets => targetRequirement req p.stop
  let w ← materialize req m p state.2 requirement
  let acc ← consume cfg state.1 w
  .ok (acc, nextActive req p state.2)

def replayStream (cfg : ReplayConfig) (req : StreamRequest) (m : Market) (mode : RosterMode)
    (plan : Option (ℕ × ℕ → ℕ)) : Except Exc ReplayResult := do
  let ps ← pieces req plan
  let (acc, _) ← ps.foldlM (drive cfg req m mode) (Acc.init cfg, [])
  finalize cfg acc

/-! ## A small replay -/

def flatMarket (registry : List SettlementRecord) : Market where
  high := fun _ _ => some 1
  low := fun _ _ => some 1
  close := fun _ _ => some 1
  fundingRate := fun _ _ => 0
  fundingKnown := fun _ _ => true
  quoteVolume := fun _ _ => some 1
  halts := []
  registry := registry

def oneDecision : StreamRequest where
  columns := ["AUSDT"]
  decisions := [⟨1000 * stepNs, 1000 * stepNs, fun _ => some (1 / 2)⟩]
  start := 1000 * stepNs
  stop := 1004 * stepNs
  spec := { proxySpec with passiveTimeoutMinutes := 3, timeout_pos := by decide }
  columns_nodup := by decide

def takerConfig : ReplayConfig where
  columns := ["AUSDT"]
  initialEquity := 100
  bound := .immediateTaker
  spec := oneDecision.spec
  minEquityFraction := none
  pairSpread := fun _ _ => 0
  linspace := .exact
  equity_pos := by norm_num
  fraction_mem := by simp

end CryptoPilot.Engine
