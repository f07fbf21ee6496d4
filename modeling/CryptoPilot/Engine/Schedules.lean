/- # Schedules — the pure rules of one order.

The ladder and the peg chase as schedules over the bars of an order window, the announced-delisting
policy, the price of a settlement, the retry bar of a blocked exit and the age bound of a deferral
episode.  None of them reads the accumulator. -/
import CryptoPilot.Engine.Contracts
import Mathlib.Algebra.Order.Floor.Semiring
import Mathlib.Tactic.FieldSimp
import Mathlib.Tactic.Ring

namespace CryptoPilot.Engine

open CryptoPilot.Live (Exc)

/-- The trade-through predicate against a limit price. -/
def crossed (buy strict : Bool) (limit : ℚ) : Option ℚ → Bool
  | none => false
  | some adverse =>
    if buy then (if strict then decide (adverse < limit) else decide (adverse ≤ limit))
    else (if strict then decide (limit < adverse) else decide (limit ≤ adverse))

/-- One scheduled fill: its bar in the order window, its price and fee, and the share of the order.
-/
structure Tranche where
  rel : ℕ
  price : ℚ
  feeBps : ℚ
  fraction : ℚ
  maker : Bool
  deriving DecidableEq

namespace Microstructure

/-! ## Sub-windows -/

/-- `np.linspace(0, n, tranches + 1)`: samples from zero to `n`, one after another. -/
structure Linspace where
  sample (n tranches index : ℕ) : ℚ
  start (n tranches : ℕ) : sample n tranches 0 = 0
  stop (n : ℕ) {tranches : ℕ} (h : 0 < tranches) : sample n tranches tranches = n
  increasing {n tranches index : ℕ} (hn : 0 < n) (h : index < tranches) :
    sample n tranches index < sample n tranches (index + 1)

def Linspace.exact : Linspace where
  sample n tranches index := index * n / tranches
  start n tranches := by simp
  stop n tranches h := by
    have hne : (tranches : ℚ) ≠ 0 := Nat.cast_ne_zero.mpr h.ne'
    field_simp
  increasing {n tranches index} hn h := by
    have htranches : (0 : ℚ) < tranches := Nat.cast_pos.mpr (by omega)
    have hbars : (0 : ℚ) < n := Nat.cast_pos.mpr hn
    refine div_lt_div_of_pos_right ?_ htranches
    push_cast; nlinarith

/-- `int(b)` of a sample. -/
def Linspace.boundary (lin : Linspace) (n tranches index : ℕ) : ℕ := ⌊lin.sample n tranches index⌋₊

def firstHit {β : Type} (length : ℕ) (hit : ℕ → Option β) : Option β := (List.range length).findSome? hit

structure WindowFill where
  rel : ℕ
  price : ℚ
  feeBps : ℚ
  maker : Bool
  deriving DecidableEq

def WindowFill.tranche (fill : WindowFill) (fraction : ℚ) : Tranche :=
  ⟨fill.rel, fill.price, fill.feeBps, fraction, fill.maker⟩

/-! ## The ladder -/

section Ladder

variable (decisionPrice : ℚ) (side : ℤ) (adverse closes : List (Option ℚ)) (trancheCount : ℕ)
  (spec : ExecutionSpec) (requireStrict : Bool)

def subStart (n k : ℕ) : ℕ := k * n / trancheCount

def subEnd (n k : ℕ) : ℕ := if k + 1 < trancheCount then (k + 1) * n / trancheCount else n

/-- The limit price of tranche `k`, counted from zero. -/
def limitPrice (k : ℕ) : ℚ :=
  if k = 0 then decisionPrice
  else
    let anchor := (closes.getD (subStart trancheCount adverse.length k) none).getD 0
    decisionPrice + side * k / trancheCount * (anchor - decisionPrice)

/-- The fill of tranche `k` in its own sub-window. -/
def ladderFill (k : ℕ) : Option WindowFill :=
  let start := subStart trancheCount adverse.length k
  let limit := limitPrice decisionPrice side adverse closes trancheCount k
  firstHit (subEnd trancheCount adverse.length k - start) fun i =>
    if crossed (side == 1) requireStrict limit (adverse.getD (start + i) none) then
      some ⟨start + i, limit, spec.makerFeeBps, true⟩
    else none

def ladderRound (acc : List Tranche × ℚ) (k : ℕ) : List Tranche × ℚ :=
  let ownShare := 1 / (trancheCount : ℚ)
  match ladderFill decisionPrice side adverse closes trancheCount spec requireStrict k with
  | some fill => (acc.1 ++ [fill.tranche (acc.2 + ownShare)], 0)
  | none => (acc.1, acc.2 + ownShare)

/-- The schedule of a ladder whose inputs passed the checks. -/
def ladderSchedule : List Tranche :=
  let rounds := (List.range trancheCount).foldl
    (ladderRound decisionPrice side adverse closes trancheCount spec requireStrict) ([], 0)
  if 0 < rounds.2 then
    let fallbackClose := (closes.getD (min adverse.length (closes.length - 1)) none).getD 0
    rounds.1 ++ [⟨adverse.length, fallbackClose, spec.takerFeeBps + spec.takerSlippageBps, rounds.2, false⟩]
  else rounds.1

end Ladder

/-! ## The peg chase -/

section PegChase

variable (anchorPrice : ℚ) (side : ℤ) (adverse closes : List (Option ℚ)) (spec : ExecutionSpec)

def bandCap : ℚ := anchorPrice * (1 + side * spec.pegChaseBandBps / 10000)

/-- The pegged limit of bar `i` in the sub-window from `lo`: the close before it, capped on the
adverse side only. -/
def localPeg (lo i : ℕ) : Option ℚ :=
  (if i = 0 then some anchorPrice else closes.getD (lo + i - 1) none).map fun peg =>
    if side = 1 then min peg (bandCap anchorPrice side spec) else max peg (bandCap anchorPrice side spec)

/-- Whether bar `i` of the sub-window strictly trades through its peg. -/
def makerHit (lo i : ℕ) : Option WindowFill :=
  (localPeg anchorPrice side closes spec lo i).bind fun limit =>
    if crossed (side == 1) true limit (adverse.getD (lo + i) none) then
      some ⟨lo + i, limit, spec.makerFeeBps, true⟩
    else none

/-- `passive_len` of a sub-window. -/
def passiveLen (length : ℕ) : ℕ := min length (max 1 ⌈spec.pegPassiveFraction * length⌉.toNat)

/-- The fee of the backstop: the caller's liquidity-aware cost, or the flat one. -/
def backstopFee (takerCostBps : Option ℚ) : ℚ := takerCostBps.getD (spec.takerFeeBps + spec.takerSlippageBps)

variable (takerCostBps : Option ℚ)

/-- The backstop at bar `i`: a close is all it needs. -/
def backstopHit (lo backstopFrom i : ℕ) : Option WindowFill :=
  if backstopFrom ≤ i then
    (closes.getD (lo + i) none).map fun close => ⟨lo + i, close, backstopFee spec takerCostBps, false⟩
  else none

def subwindowFill (lo hi : ℕ) (final : Bool) : Option WindowFill :=
  let length := hi - lo
  if length = 0 then none
  else
    let passive := passiveLen spec length
    match firstHit length fun i =>
        if final && decide (passive ≤ i) then none else makerHit anchorPrice side adverse closes spec lo i with
    | some fill => some fill
    | none =>
      if final then firstHit length (backstopHit closes spec takerCostBps lo (min passive (length - 1)))
      else none

variable (lin : Linspace)

/-- The fill of tranche `index` in its own sub-window. -/
def pegFill (index : ℕ) : Option WindowFill :=
  let boundary := lin.boundary adverse.length spec.pegChaseTranches
  subwindowFill anchorPrice side adverse closes spec takerCostBps (boundary index) (boundary (index + 1))
    (index + 1 == spec.pegChaseTranches)

/-- One round of the loop: the schedule, the filled fraction and the share carried. -/
def pegRound (acc : List Tranche × ℚ × ℚ) (index : ℕ) : Option (List Tranche × ℚ × ℚ) :=
  let (schedule, filledFraction, carried) := acc
  let final := index + 1 == spec.pegChaseTranches
  let share := 1 / (spec.pegChaseTranches : ℚ) + carried
  match pegFill anchorPrice side adverse closes spec takerCostBps lin index with
  | none => if final then none else some (schedule, filledFraction, share)
  | some fill =>
    let qtyFraction := if final then 1 - filledFraction else share
    some (schedule ++ [fill.tranche qtyFraction], filledFraction + qtyFraction, 0)

/-- The schedule of a peg chase whose inputs passed the checks: empty where the last sub-window has
no close. -/
def pegSchedule : List Tranche :=
  match (List.range spec.pegChaseTranches).foldlM
      (pegRound anchorPrice side adverse closes spec takerCostBps lin) ([], 0, 0) with
  | none => []
  | some (schedule, _, _) => schedule

end PegChase

end Microstructure

/-! ## Delisting -/

/-- `lifecycle_desired_units`. -/
def lifecycleDesiredUnits (event : SettlementEvent) (information : ℤ) (current desired : ℚ) : ℚ :=
  if information < event.announced then desired
  else if event.effectiveAt ≤ information + delistForcedExitLeadNs then
    if current = 0 ∧ desired = 0 then desired else 0
  else if current = 0 then
    if desired = 0 then desired else 0
  else if desired = 0 ∨ (0 < desired ↔ 0 < current) ∧ |desired| ≤ |current| then desired
  else if ¬ (0 < desired ↔ 0 < current) then 0
  else current

/-- `settlement_fill_price`: the adverse haircut applies to proxy prices. -/
def settlementFillPrice (event : SettlementEvent) (units : ℚ) (spec : ExecutionSpec) : Except Exc ℚ :=
  let price := event.settlementPrice
  let haircut := spec.settlementPriceHaircutBps
  let result :=
    if event.priceSource = .curated ∨ event.priceSource = .venue ∨ haircut = 0 then price
    else price * (1 - (if 0 < units then 1 else if units < 0 then -1 else 0) * haircut / 10000)
  if result ≤ 0 then .error .dataIntegrityError else .ok result

/-! ## Deferred exits -/

/-- `classify_exit_block_cause` is not `None`: a valued, funded bar, halted or without a trade. -/
def exitBlockQualifies (halted : Bool) (quoteVolume : Option ℚ) (markValid fundingKnown : Bool) : Bool :=
  markValid && fundingKnown &&
    match quoteVolume with
    | none => false
    | some qv => decide (0 ≤ qv) && (halted || decide (qv = 0))

/-- `first_viable_retry_bar`: the first trading bar after `after`, to `deadline` and before the end
of trading. -/
def firstViableRetryBar (w : Window) (s : String) (after deadline : ℤ) (lastTrade : Option ℤ) : Option ℤ :=
  w.grid.find? (fun b =>
    decide (after < b ∧ b ≤ deadline) && !w.halted b && (w.quoteVolume b s).any (fun qv => decide (0 < qv)) &&
      w.fundingKnown b s && (w.close b s).isSome && lastTrade.all (fun t => decide (b < t)))

/-- `ExitEpisodeClock`. -/
structure ExitClock where
  episodes : String → Option (ℚ × ℤ)
  lastNs : Option ℤ

def ExitClock.inventoryChanged (clock : ExitClock) (s : String) : ExitClock :=
  { clock with episodes := Function.update clock.episodes s none }

def ExitClock.admit (clock : ExitClock) (s : String) (units : ℚ) (now : ℤ) : Except Exc (Bool × ExitClock) :=
  if clock.lastNs.any (fun t => decide (now < t)) then .error .dataIntegrityError
  else
    match clock.episodes s with
    | some (held, start) =>
      if held = units then .ok (decide (now - start ≤ exitDeferralMaxAgeNs), { clock with lastNs := some now })
      else
        .ok (true, { episodes := Function.update clock.episodes s (some (units, now)), lastNs := some now })
    | none =>
      .ok (true, { episodes := Function.update clock.episodes s (some (units, now)), lastNs := some now })

end CryptoPilot.Engine
