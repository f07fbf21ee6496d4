/- # Sizing — exposure under venue margin ladders.

`parse_venue_rules` reads the leverage brackets of the venue, `build_venue_ladders` gives every
symbol its ladder, and `choose_exposure` picks a rung of the policy grid below the highest one that
fits the margins (`src/market_data/binance/venue_rules.py`, `src/strategy/sizing.py`).  Numbers are
exact; a number that is not finite is `none`, and the square root is a parameter. -/
import CryptoPilot.Lib.Timeline
import Mathlib.Algebra.BigOperators.Fin
import Mathlib.Data.Rat.Floor
import Mathlib.Data.String.Basic
import Mathlib.Tactic.Linarith

namespace CryptoPilot.Strategy

open CryptoPilot.Lib List

def firstMax {α : Type} (score : α → ℚ) : α → List α → α
  | best, [] => best
  | best, r :: rest => firstMax score (if score best < score r then r else best) rest

/-! ## Venue rules -/

inductive VenueError where
  | dataIntegrityError
  deriving DecidableEq, Repr

structure VenueBracket where
  notionalFloor : ℚ
  notionalCap : ℚ
  maintMarginRatio : ℚ
  maintAmount : ℚ
  initialLeverage : ℤ
  deriving DecidableEq, Repr

def VenueBracket.admitted (t : VenueBracket) : Bool :=
  0 < t.maintMarginRatio && 0 < t.initialLeverage && t.notionalFloor < t.notionalCap

def contiguousFrom : ℚ → List VenueBracket → Bool
  | _, [] => true
  | expectedFloor, t :: rest => t.notionalFloor == expectedFloor && contiguousFrom t.notionalCap rest

theorem contiguousFrom_ordered : ∀ {l : List VenueBracket} {floor : ℚ}, contiguousFrom floor l = true →
    (∀ t ∈ l, t.admitted = true) →
    l.Pairwise (fun s t => s.notionalFloor < t.notionalFloor) ∧ ∀ t ∈ l, floor ≤ t.notionalFloor
  | [], _, _, _ => ⟨List.Pairwise.nil, nofun⟩
  | t :: rest, floor, h, hadmitted => by
    simp only [contiguousFrom, Bool.and_eq_true, beq_iff_eq] at h
    obtain ⟨hfloor, hrest⟩ := h
    obtain ⟨hordered, habove⟩ := contiguousFrom_ordered hrest fun s hs => hadmitted s (mem_cons_of_mem _ hs)
    have hcap : t.notionalFloor < t.notionalCap := by
      have := hadmitted t mem_cons_self
      simp only [VenueBracket.admitted, Bool.and_eq_true, decide_eq_true_eq] at this; exact this.2
    refine ⟨List.Pairwise.cons (fun s hs => hcap.trans_le (habove s hs)) hordered, ?_⟩
    rw [forall_mem_cons, ← hfloor]; exact ⟨le_rfl, fun s hs => (hcap.trans_le (habove s hs)).le⟩

structure BracketLadder where
  tiers : List VenueBracket
  ordered : tiers.Pairwise (fun s t => s.notionalFloor < t.notionalFloor)
  deriving DecidableEq

/-- `_parse_bracket_tiers`; an entry is `none` where it is no mapping or a value cannot be read. -/
def parseBracketTiers (raw : List (Option VenueBracket)) : Except VenueError BracketLadder :=
  if hadmitted : ∀ t ∈ sortBy VenueBracket.notionalFloor raw.reduceOption, t.admitted = true then
    if hcontiguous : raw.all Option.isSome ∧
        contiguousFrom 0 (sortBy VenueBracket.notionalFloor raw.reduceOption) = true then
      .ok ⟨_, (contiguousFrom_ordered hcontiguous.2 hadmitted).1⟩
    else .error .dataIntegrityError
  else .error .dataIntegrityError

structure VenueSymbolRules where
  symbol : String
  brackets : BracketLadder
  stepSize : Option ℚ
  minNotional : Option ℚ
  deriving DecidableEq

/-- `VenueRuleSnapshot`; the entries of `symbols` in the order of the dict. -/
structure VenueRuleSnapshot where
  symbols : List VenueSymbolRules
  rejectedSymbols : List String
  deriving DecidableEq

/-- `rules.symbols.get`. -/
def VenueRuleSnapshot.get? (rules : VenueRuleSnapshot) (symbol : String) : Option VenueSymbolRules :=
  rules.symbols.find? fun entry => entry.symbol == symbol

/-- A row of the `leverageBracket` payload; `brackets` is `none` where it is no list. -/
structure BracketRow where
  symbol : String
  brackets : Option (List (Option VenueBracket))

/-- A symbol of `exchangeInfo` with its `_extract_filters`, `none` where that raised. -/
structure InfoEntry where
  symbol : String
  filters : Option (Option ℚ × Option ℚ)

/-- `symbols[symbol] = entry`. -/
def putRules (symbols : List VenueSymbolRules) (entry : VenueSymbolRules) : List VenueSymbolRules :=
  if symbols.any (fun e => e.symbol == entry.symbol) then
    symbols.map fun e => if e.symbol = entry.symbol then entry else e
  else symbols ++ [entry]

/-- One turn of the loop over the bracket rows: the rules and the rejected symbols so far. -/
def parseRow (infos : List InfoEntry) (acc : List VenueSymbolRules × List String) (row : BracketRow) :
    List VenueSymbolRules × List String :=
  match row.brackets with
  | none | some [] => (acc.1, acc.2 ++ [row.symbol])
  | some raw =>
    if infos.any (fun i => i.symbol == row.symbol && i.filters.isNone) then (acc.1, acc.2 ++ [row.symbol])
    else match parseBracketTiers raw with
      | .error _ => (acc.1, acc.2 ++ [row.symbol])
      | .ok tiers =>
        let filters := (infos.reverse.findSome? fun i => if i.symbol =
          row.symbol then i.filters else none).getD (none, none)
        (putRules acc.1 ⟨row.symbol, tiers, filters.1, filters.2⟩, acc.2)

/-- `parse_venue_rules`; a payload is `none` in a wrong container, a row without a symbol. -/
def parseVenueRules (bracketPayload : Option (List (Option BracketRow)))
    (exchangeInfo : Option (List (Option InfoEntry)))
    (maxRejectedFraction : ℚ) : Except VenueError VenueRuleSnapshot :=
  match bracketPayload, exchangeInfo with
  | some rows, some infos =>
    if infos.any Option.isNone ∨ rows.any Option.isNone then .error .dataIntegrityError
    else
      let (symbols, rejected) := rows.reduceOption.foldl (parseRow infos.reduceOption) ([], [])
      if rows ≠ [] ∧ symbols = [] then .error .dataIntegrityError
      else if rows ≠ [] ∧ maxRejectedFraction < (rejected.length : ℚ) / rows.length then .error .dataIntegrityError
      else .ok ⟨symbols, sortBy id rejected⟩
  | _, _ => .error .dataIntegrityError

/-! ## Ladders -/

/-- One tier of a `VenueLadder`. -/
structure LadderTier where
  floor : ℚ
  ratio : ℚ
  amount : ℚ
  leverage : ℚ
  deriving DecidableEq, Repr

/-- `VenueLadder`: its parallel arrays tier by tier. -/
structure VenueLadder where
  tiers : List LadderTier
  nonempty : tiers ≠ []
  ordered : tiers.Pairwise (fun s t => s.floor < t.floor)
  deriving DecidableEq

def VenueBracket.tier (t : VenueBracket) : LadderTier :=
  ⟨t.notionalFloor, t.maintMarginRatio, t.maintAmount, t.initialLeverage⟩

def VenueSymbolRules.ladder (entry : VenueSymbolRules) : Option VenueLadder :=
  if h : entry.brackets.tiers = [] then none
  else some ⟨entry.brackets.tiers.map VenueBracket.tier, by simpa using h, pairwise_map.mpr entry.brackets.ordered⟩

/-- `build_venue_ladders`: symbols without a ladder take the first tier with the highest ratio. -/
def buildVenueLadders {n : ℕ} (symbols : Fin n → String) (rules : VenueRuleSnapshot) :
    Except VenueError ((Fin n → VenueLadder) × List String) :=
  match rules.symbols.filterMap fun entry => entry.brackets.tiers.head? with
  | [] => .error .dataIntegrityError
  | first :: firsts =>
    let punitive := (firstMax VenueBracket.maintMarginRatio first firsts).tier
    let fallback : VenueLadder := ⟨[{ punitive with floor := 0 }], by simp, pairwise_singleton _ _⟩
    let ladder? := fun i => (rules.get? (symbols i)).bind VenueSymbolRules.ladder
    .ok (fun i => (ladder? i).getD fallback,
      ((finRange n).filter fun i => (ladder? i).isNone).map symbols)

/-- The tier of a notional: `searchsorted(floors, notional, side="right") - 1`, clipped. -/
def VenueLadder.tierAt (ladder : VenueLadder) (notional : ℚ) : LadderTier :=
  ladder.tiers.get ⟨min ((ladder.tiers.filter fun t => t.floor ≤ notional).length - 1) (ladder.tiers.length - 1),
    (min_le_right _ _).trans_lt (Nat.sub_lt (length_pos_of_ne_nil ladder.nonempty) one_pos)⟩

def VenueLadder.maintenance (ladder : VenueLadder) (notional : ℚ) : ℚ :=
  max (notional * (ladder.tierAt notional).ratio - (ladder.tierAt notional).amount) 0

def VenueLadder.initial (ladder : VenueLadder) (notional : ℚ) : ℚ := notional / (ladder.tierAt notional).leverage

def maintenanceAndInitialMargin {n : ℕ} (notionalAbs : Fin n → ℚ) (ladders : Fin n → VenueLadder) :
    (Fin n → ℚ) × (Fin n → ℚ) :=
  (fun i => (ladders i).maintenance (notionalAbs i), fun i => (ladders i).initial (notionalAbs i))

/-! ## The policy -/

inductive PolicyKind where
  | fixed
  | growth
  deriving DecidableEq, Repr

structure ExposurePolicy where
  kind : PolicyKind
  exposureMax : ℚ
  exposureStep : ℚ
  meanHaircut : ℚ
  priorDays : ℚ
  minMomentDays : ℤ
  shockPerUnit : ℚ
  marginReserve : ℚ
  initialMarginCap : ℚ
  impactY : ℚ
  deriving DecidableEq, Repr

structure UnitMoments where
  mean : ℚ
  sigma : ℚ
  observations : ℕ
  deriving DecidableEq, Repr

def bayesianUnitMoments (root : ℚ → ℚ) (observations : ℕ) (total totalSq : ℚ) (priorDays : ℚ) (minMomentDays : ℤ) :
    Except VenueError (Option UnitMoments) :=
  let variance := totalSq / observations - total / observations * (total / observations)
  if priorDays ≤ 0 ∨ minMomentDays < 2 then .error .dataIntegrityError
  else if observations < minMomentDays ∨ variance ≤ 0 then .ok none
  else .ok (some ⟨total / (observations + priorDays), root (variance * (1 + 1 / (observations + priorDays))),
    observations⟩)

def policyGrid (policy : ExposurePolicy) : List ℚ :=
  (List.range ⌊policy.exposureMax / policy.exposureStep⌋.toNat).map fun k : ℕ => policy.exposureStep * (k + 1)

section Exposure

variable {n : ℕ} (weights : Fin n → ℚ) (equity : ℚ) (ladders : Fin n → VenueLadder) (policy : ExposurePolicy)

/-- Both margins fit at an exposure: the test of `margin_exposure_cap`. -/
def MarginSafe (exposure : ℚ) : Prop :=
  let margins := maintenanceAndInitialMargin (fun i => exposure * equity * |weights i|) ladders
  ∑ i, margins.1 i + policy.shockPerUnit * exposure * equity ≤ equity * (1 - policy.marginReserve) ∧
    ∑ i, margins.2 i ≤ policy.initialMarginCap * equity

instance : DecidablePred (MarginSafe weights equity ladders policy) := fun _ =>
  inferInstanceAs (Decidable (_ ∧ _))

def marginExposureCap : ℚ :=
  if equity ≤ 0 then 0
  else ((policyGrid policy).reverse.find? fun rung => MarginSafe weights equity ladders policy rung).getD 0

/-- The rungs that `choose_exposure` considers. -/
def candidateRungs : List ℚ :=
  (policyGrid policy).filter fun rung => rung ≤ marginExposureCap weights equity ladders policy + 1 / 10 ^ 9

/-- The impact of one symbol's order; there is none without a positive ADV and a finite sigma. -/
def orderImpact (root : ℚ → ℚ) (impactY delta : ℚ) (adv sigma : Option ℚ) : ℚ :=
  match adv.filter (fun a => 0 < a), sigma with
  | some adv, some sigma => delta * impactY * sigma * root (delta / adv)
  | _, _ => 0

def rungScore (root : ℚ → ℚ) (heldNotional : Fin n → ℚ) (adv dailySigma : Fin n → Option ℚ) (moments : UnitMoments)
    (rung : ℚ) : ℚ :=
  moments.mean * (1 - policy.meanHaircut) * rung - 1 / 2 * (moments.sigma * rung) ^ 2 -
    (∑ i, orderImpact root policy.impactY |rung * equity * weights i - heldNotional i| (adv i)
      (dailySigma i)) / equity

def chooseExposure (root : ℚ → ℚ) (heldNotional : Fin n → ℚ) (adv dailySigma : Fin n → Option ℚ)
    (moments : Option UnitMoments) : ℚ :=
  match policy.kind with
  | .fixed => policy.exposureMax
  | .growth =>
    if equity ≤ 0 then 0
    else match candidateRungs weights equity ladders policy, moments with
      | [], _ => 0
      | rung :: _, none => rung
      | rung :: rungs, some moments =>
        firstMax (rungScore weights equity policy root heldNotional adv dailySigma moments) rung rungs

end Exposure

end CryptoPilot.Strategy
