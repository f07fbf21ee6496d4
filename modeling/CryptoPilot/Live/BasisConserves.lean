/- # BasisConserves — the moving-average basis conserves cash.

A step of the basis moves the value of the position at its entry, realizes a gain, and pays or
receives cash.  The three balance exactly, except where a fill re-averages the entry: there they
balance up to half a quantum for each unit then held. -/
import Mathlib.Algebra.Order.BigOperators.Group.List
import CryptoPilot.Live.TaxBasis

namespace CryptoPilot.Live

open CryptoPilot.Lib

/-! ## Re-averaging -/

section Reaverage

variable {cost quantity average : ℚ}

theorem abs_round_sub_le {x : ℚ} {units : ℤ} (h : units = if (x - ⌊x⌋) * 2 > 1 ∨ (x - ⌊x⌋) * 2 = 1 ∧ ⌊x⌋ % 2 ≠ 0
    then ⌊x⌋ + 1 else ⌊x⌋) : |(units : ℚ) - x| ≤ 1 / 2 := by
  have hlow := Int.floor_le x
  have hhigh := Int.lt_floor_add_one x
  rw [h, abs_le]
  split_ifs with hup
  · push_cast
    rcases hup with hup | ⟨hup, -⟩ <;> constructor <;> linarith
  · rw [not_or] at hup
    constructor <;> linarith [hup.1]

/-- **A re-averaged entry is positive, and its cost is off by at most half a quantum for each unit
held.** -/
theorem reaveragedEntry_spec (hquantity : 0 < quantity) (h : reaveragedEntry cost quantity = .ok average) :
    0 < average ∧ |quantity * average - cost| ≤ averageEntryQuantum / 2 * quantity := by
  have hquantum : 0 < averageEntryQuantum := by norm_num [averageEntryQuantum]
  have hread : ∀ units : ℤ, (if (units : ℚ) * averageEntryQuantum ≤
    0 then (.error .dataIntegrityError : Except Exc ℚ)
      else .ok (units * averageEntryQuantum)) = .ok average → average = units * averageEntryQuantum ∧ 0 < average :=
    fun units h => by
      split_ifs at h with hpos; cases h; exact ⟨rfl, not_le.mp hpos⟩
  obtain ⟨haverage, hpos⟩ := hread _ h
  have hround := abs_round_sub_le (x := cost / quantity / averageEntryQuantum) rfl
  refine ⟨hpos, ?_⟩
  -- the cost is the ratio, scaled back
  have hcost : cost = quantity * averageEntryQuantum * (cost / quantity / averageEntryQuantum) := by
    field_simp
  generalize cost / quantity / averageEntryQuantum = ratio at haverage hround hcost
  have hscale : 0 ≤ quantity * averageEntryQuantum := (mul_pos hquantity hquantum).le
  rw [haverage, hcost]
  calc |quantity * (_ * averageEntryQuantum) - quantity * averageEntryQuantum * ratio|
      = quantity * averageEntryQuantum * |_ - ratio| := by
        rw [← abs_of_nonneg hscale, ← abs_mul, abs_of_nonneg hscale]
        congr 1; ring
    _ ≤ quantity * averageEntryQuantum * (1 / 2) := mul_le_mul_of_nonneg_left hround hscale
    _ = averageEntryQuantum / 2 * quantity := by ring

end Reaverage

/-! ## One step -/

/-- What a record pays: a fill at its price, a delivery at the exit of the venue's amount. -/
def cashFlow (r : TaxRecord) (step : FillRealization) : ℚ :=
  if r.kind = "TRADE" then -r.signedQuantity * r.price
  else if step.closedDirection = some .long then step.exitNotionalClosed else -step.exitNotionalClosed

def AverageCostPosition.entryValue (position : AverageCostPosition) : ℚ := position.quantity * position.avgEntry

/-- The rounding a step may add: for a fill that adds to a position, half a quantum per unit then
held. -/
def FillRealization.reaverageSlack (step : FillRealization) : ℚ :=
  if step.positionBefore.quantity ≠ 0 ∧ step.closedDirection = none then
    averageEntryQuantum / 2 * |step.positionAfter.quantity|
  else 0

/-- A position has an entry and an opening time exactly while it is held. -/
structure AverageCostPosition.Sound (position : AverageCostPosition) : Prop where
  entry : 0 < position.avgEntry ↔ position.quantity ≠ 0
  opened : position.openedAt = none ↔ position.quantity = 0

theorem flatPosition_sound : flatPosition.Sound := ⟨by simp [flatPosition], by simp [flatPosition]⟩

/-- Cash, realized gain and the value of the position balance up to the rounding of the step. -/
structure Balances (position : AverageCostPosition) (r : TaxRecord) (step : FillRealization) : Prop where
  cash : |cashFlow r step - (step.realizedPnl + position.entryValue -
    step.positionAfter.entryValue)| ≤ step.reaverageSlack
  sound : step.positionAfter.Sound
  split : r.kind = "TRADE" → step.closedQuantity + step.openedQuantity = r.quantity

section Step

variable {position : AverageCostPosition} {r : TaxRecord} {step : FillRealization}

theorem TaxRecord.Valid.trade (h : r.Valid) (hkind : r.kind = "TRADE") : 0 < r.quantity ∧ 0 < r.price := by
  have htrade := h.2.2.2
  rw [if_pos hkind] at htrade; exact ⟨htrade.2.2.1, htrade.2.2.2.1⟩

theorem TaxRecord.signedQuantity_abs (h : 0 < r.quantity) : |r.signedQuantity| = r.quantity := by
  rw [TaxRecord.signedQuantity]
  split_ifs
  · exact abs_of_pos h
  · rw [abs_neg, abs_of_pos h]

section

variable (hsound : position.Sound) (hkind : r.kind = "TRADE") (hquantity : 0 < r.quantity) (hprice : 0 < r.price)

include hsound hkind hquantity hprice

theorem openingFill_balances (hsame : position.quantity = 0 ∨ (0 < position.quantity ↔ 0 < r.signedQuantity))
    (h : openingFill position r = .ok step) : Balances position r step := by
  simp only [openingFill, bind_eq_ok, pure_eq_ok] at h
  obtain ⟨average, haverage, rfl⟩ := h
  have hsigned : r.signedQuantity ≠ 0 := fun hzero => by
    have habs := r.signedQuantity_abs hquantity
    rw [hzero] at habs; exact hquantity.ne habs
  unfold averageAfter at haverage
  by_cases hflat : position.quantity = 0
  · rw [if_pos hflat] at haverage
    cases haverage
    refine ⟨?_, ⟨?_, ?_⟩, fun _ => zero_add _⟩
    · simp only [cashFlow, FillRealization.reaverageSlack, AverageCostPosition.entryValue, if_pos hkind, hflat]
      simp
    · simp [hflat, hsigned, hprice]
    · simp [hflat, hsigned]
  · rw [if_neg hflat] at haverage
    have hsame := hsame.resolve_left hflat
    have hheld : 0 < |position.quantity| + r.quantity := by positivity
    obtain ⟨hpos, hround⟩ := reaveragedEntry_spec hheld haverage
    -- the fill has the sign of the position
    obtain ⟨sign, habs, hbefore, hfill⟩ : ∃ sign : ℚ, |sign| = 1 ∧ position.quantity = sign * |position.quantity| ∧
        r.signedQuantity = sign * r.quantity := by
      rw [← r.signedQuantity_abs hquantity]
      rcases lt_or_gt_of_ne hflat with hneg | hgt
      · have hnot : r.signedQuantity < 0 :=
          lt_of_le_of_ne (not_lt.mp fun hlt => not_lt.mpr hneg.le (hsame.mpr hlt)) hsigned
        exact ⟨-1, by simp, by rw [abs_of_neg hneg]; ring, by rw [abs_of_neg hnot]; ring⟩
      · have hfill := hsame.mp hgt
        exact ⟨1, by simp, by rw [abs_of_pos hgt, one_mul], by rw [abs_of_pos hfill, one_mul]⟩
    have hafter : position.quantity + r.signedQuantity = sign * (|position.quantity| + r.quantity) := by
      rw [hfill, mul_add, ← hbefore]
    have hafterAbs : |position.quantity + r.signedQuantity| = |position.quantity| + r.quantity := by
      rw [hafter, abs_mul, habs, one_mul, abs_of_pos hheld]
    have hne : position.quantity + r.signedQuantity ≠ 0 := fun hzero => by
      rw [hzero] at hafterAbs; exact hheld.ne hafterAbs
    refine ⟨?_, ⟨?_, ?_⟩, fun _ => zero_add _⟩
    · simp only [cashFlow, FillRealization.reaverageSlack, AverageCostPosition.entryValue, if_pos hkind]
      rw [if_pos ⟨hflat, trivial⟩, hafterAbs]
      refine le_trans (le_of_eq ?_) hround
      rw [← one_mul |_ * average - _|, ← habs, ← abs_mul, hafter, hfill]
      congr 1
      have hentry : position.quantity * position.avgEntry = sign * (|position.quantity| * position.avgEntry) := by
        rw [← mul_assoc, ← hbefore]
      rw [hentry]; ring
    · simp [hne, hpos]
    · simp only [if_neg hflat, hne, iff_false]; exact fun hnone => hflat (hsound.opened.mp hnone)

theorem closingFill_balances (hheld : position.quantity ≠ 0)
    (hagainst : ¬ (0 < position.quantity ↔ 0 < r.signedQuantity)) : Balances position r
    (closingFill position r) := by
  have hslack : (closingFill position r).reaverageSlack = 0 := if_neg fun hboth => by cases hboth.2
  have habs := r.signedQuantity_abs hquantity
  -- the fill is against the position
  obtain ⟨sign, hsquare, hdirection, hbefore, hfill⟩ : ∃ sign : ℚ, sign * sign = 1 ∧
    (sign = 1 ↔ 0 < position.quantity) ∧
      position.quantity = sign * |position.quantity| ∧ r.signedQuantity = -sign * r.quantity := by
    rw [← habs]
    rcases lt_or_gt_of_ne hheld with hneg | hpos
    · have hfill : 0 < r.signedQuantity := by
        by_contra hnot
        exact hagainst ⟨fun h => absurd h (not_lt.mpr hneg.le), fun h => absurd h hnot⟩
      refine ⟨-1, by ring, ⟨fun h => by norm_num at h, fun h => absurd h (not_lt.mpr hneg.le)⟩, ?_, ?_⟩
      · rw [abs_of_neg hneg]; ring
      · rw [abs_of_pos hfill]; ring
    · have hfill : r.signedQuantity ≤ 0 := not_lt.mp fun h => hagainst ⟨fun _ => h, fun _ => hpos⟩
      refine ⟨1, by ring, ⟨fun _ => hpos, fun _ => rfl⟩, ?_, ?_⟩
      · rw [abs_of_pos hpos]; ring
      · rw [abs_of_nonpos hfill]; ring
  have hrealized : (closingFill position r).realizedPnl =
      sign * ((r.price - position.avgEntry) * (closingFill position r).closedQuantity) := by
    simp only [closingFill]
    by_cases hpos : 0 < position.quantity
    · rw [if_pos hpos, if_pos rfl, hdirection.mpr hpos]; ring
    · have hneg : sign = -1 := (mul_self_eq_one_iff.mp hsquare).resolve_left fun h => hpos (hdirection.mp h)
      rw [if_neg hpos, if_neg (by decide), hneg]; ring
  have hafter : position.quantity + r.signedQuantity = sign * (|position.quantity| - r.quantity) := by
    rw [hfill, mul_sub, ← hbefore]; ring
  have hsign : sign ≠ 0 := left_ne_zero_of_mul_eq_one hsquare
  have hentry : position.entryValue = sign * (|position.quantity| * position.avgEntry) := by
    rw [AverageCostPosition.entryValue, ← mul_assoc, ← hbefore]
  have hcash : cashFlow r (closingFill position r) = sign * (r.quantity * r.price) := by
    rw [cashFlow, if_pos hkind, hfill]; ring
  rcases lt_trichotomy |position.quantity| r.quantity with hlt | heq | hgt
  · -- the fill closes the position and opens one the other way
    have hopened : r.quantity - |position.quantity| ≠ 0 := sub_ne_zero.mpr hlt.ne'
    have hposition : (closingFill position r).positionAfter =
        ⟨position.quantity + r.signedQuantity, r.price, some r.eventTime⟩ := by
      simp only [closingFill, if_pos hlt, if_true, if_neg hopened]
    have hclosed : (closingFill position r).closedQuantity = |position.quantity| := if_pos hlt
    have hne : position.quantity + r.signedQuantity ≠ 0 := by
      rw [hafter]; exact mul_ne_zero hsign (sub_ne_zero.mpr hlt.ne)
    refine ⟨?_, ?_, fun _ => ?_⟩
    · rw [hslack, abs_nonpos_iff, hcash, hrealized, hclosed, hentry, hposition,
        AverageCostPosition.entryValue, hafter]
      ring
    · rw [hposition]; exact ⟨by simp [hne, hprice], by simp [hne]⟩
    · simp only [closingFill, if_pos hlt]; ring
  · have hlt : ¬ |position.quantity| < r.quantity := heq.not_lt
    have hposition : (closingFill position r).positionAfter = flatPosition := by
      simp [closingFill, heq]
    have hclosed : (closingFill position r).closedQuantity = r.quantity := if_neg hlt
    refine ⟨?_, hposition ▸ flatPosition_sound, fun _ => ?_⟩
    · rw [hslack, abs_nonpos_iff, hcash, hrealized, hclosed, hentry, hposition, AverageCostPosition.entryValue, heq]
      simp only [flatPosition]; ring
    · simp only [closingFill, if_neg hlt]; ring
  · have hlt : ¬ |position.quantity| < r.quantity := not_lt.mpr hgt.le
    have hposition : (closingFill position r).positionAfter =
        ⟨position.quantity + r.signedQuantity, position.avgEntry, position.openedAt⟩ := by
      simp only [closingFill, if_neg hlt, if_neg hgt.ne]
    have hclosed : (closingFill position r).closedQuantity = r.quantity := if_neg hlt
    have hne : position.quantity + r.signedQuantity ≠ 0 := by
      rw [hafter]; exact mul_ne_zero hsign (sub_ne_zero.mpr hgt.ne')
    refine ⟨?_, ?_, fun _ => ?_⟩
    · rw [hslack, abs_nonpos_iff, hcash, hrealized, hclosed, hentry, hposition,
        AverageCostPosition.entryValue, hafter]
      ring
    · rw [hposition]
      exact ⟨⟨fun _ => hne, fun _ => hsound.entry.mpr hheld⟩,
        ⟨fun h => absurd (hsound.opened.mp h) hheld, fun h => absurd h hne⟩⟩
    · simp only [closingFill, if_neg hlt]; ring

end

theorem settlementClose_balances (hkind : r.kind ≠ "TRADE") (hheld : position.quantity ≠ 0) :
    Balances position r (settlementClose position r) := by
  refine ⟨?_, flatPosition_sound, fun hkind' => absurd hkind' hkind⟩
  have hslack : (settlementClose position r).reaverageSlack = 0 := if_neg fun hboth => by cases hboth.2
  rw [hslack]
  rcases lt_or_gt_of_ne hheld with hneg | hpos
  · simp only [cashFlow, if_neg hkind, settlementClose, if_neg (not_lt.mpr hneg.le), AverageCostPosition.entryValue,
      flatPosition, abs_of_neg hneg]
    simp; ring
  · simp only [cashFlow, if_neg hkind, settlementClose, if_pos hpos, AverageCostPosition.entryValue, flatPosition,
      abs_of_pos hpos]
    simp; ring

/-- **One step of the fold balances.** -/
theorem foldStep_balances (hsound : position.Sound) (h : foldStep position r = .ok step) :
    Balances position r step := by
  rw [foldStep] at h
  split_ifs at h with hkind hdelivery
  · rw [applyTaxFill, if_neg (not_not.mpr hkind), bind_eq_ok] at h
    obtain ⟨_, hvalid, h⟩ := h
    rw [validateTaxRecord_eq_ok] at hvalid
    obtain ⟨hquantity, hprice⟩ := hvalid.trade hkind
    split_ifs at h with hsame
    · exact openingFill_balances hsound hkind hquantity hprice hsame h
    · rw [not_or] at hsame
      cases h; exact closingFill_balances hsound hkind hquantity hprice hsame.1 hsame.2
  · rw [applySettlementClose, if_neg (not_not.mpr hdelivery), bind_eq_ok] at h
    obtain ⟨_, -, h⟩ := h
    split_ifs at h with hflat; cases h; exact settlementClose_balances hkind hflat

end Step

/-! ## A run -/

/-- Records applied one after another, each from the position that the one before left. -/
inductive Applied : AverageCostPosition → List TaxRecord → List FillRealization → AverageCostPosition → Prop
  | nil (position : AverageCostPosition) : Applied position [] [] position
  | cons {position after : AverageCostPosition} {r : TaxRecord} {step : FillRealization} {records : List TaxRecord}
      {steps : List FillRealization} (head : foldStep position r = .ok step)
      (tail : Applied step.positionAfter records steps after) : Applied position (r :: records)
        (step :: steps) after

/-- The loop of `fold_symbol` applies its records. -/
theorem foldSteps_applied : ∀ {records : List TaxRecord} {position : AverageCostPosition} {seen : List String}
    {steps : List FillRealization}, foldSteps position seen records = .ok steps →
    Applied position records steps ((steps.getLast?.map FillRealization.positionAfter).getD position)
  | [], position, seen, steps, h => by
    cases h; exact .nil position
  | r :: records, position, seen, steps, h => by
    rw [foldSteps] at h
    split_ifs at h
    obtain ⟨step, hstep, h⟩ := bind_eq_ok.mp h
    obtain ⟨out, hout, h⟩ := bind_eq_ok.mp h
    cases h
    have htail := foldSteps_applied hout
    refine .cons hstep ?_
    cases out with
    | nil => exact htail
    | cons next out =>
      obtain ⟨last, hlast⟩ : ∃ last, (next :: out).getLast? = some last := ⟨_, List.getLast?_cons⟩
      exact htail

def totalCash (records : List TaxRecord) (steps : List FillRealization) :
    ℚ := (List.zipWith cashFlow records steps).sum

def totalRealized (steps : List FillRealization) : ℚ := (steps.map FillRealization.realizedPnl).sum

def totalSlack (steps : List FillRealization) : ℚ := (steps.map FillRealization.reaverageSlack).sum

variable {steps : List FillRealization} {records : List TaxRecord}

theorem Applied.balances {position after : AverageCostPosition}
    (h : Applied position records steps after) (hsound : position.Sound) :
    |totalCash records steps - (totalRealized steps + position.entryValue - after.entryValue)| ≤ totalSlack steps ∧
      after.Sound ∧ List.Forall₂ (fun r step => r.kind = "TRADE" →
        step.closedQuantity + step.openedQuantity = r.quantity)
        records steps := by
  induction h with
  | nil position => exact ⟨by simp [totalCash, totalRealized, totalSlack], hsound, .nil⟩
  | @cons position after r step records steps head tail ih =>
    obtain ⟨hcash, hstep, hsplit⟩ := foldStep_balances hsound head
    obtain ⟨hrest, hafter, hsplits⟩ := ih hstep
    refine ⟨?_, hafter, .cons hsplit hsplits⟩
    have hsum : totalCash (r :: records) (step :: steps) -
      (totalRealized (step :: steps) + position.entryValue - after.entryValue) =
        (cashFlow r step - (step.realizedPnl + position.entryValue - step.positionAfter.entryValue)) +
          (totalCash records steps - (totalRealized steps + step.positionAfter.entryValue - after.entryValue)) := by
      simp only [totalCash, totalRealized, List.zipWith_cons_cons, List.map_cons, List.sum_cons]
      ring
    calc |totalCash (r :: records) (step :: steps) -
      (totalRealized (step :: steps) + position.entryValue - after.entryValue)|
        ≤ |cashFlow r step - (step.realizedPnl + position.entryValue - step.positionAfter.entryValue)| +
          |totalCash records steps - (totalRealized steps + step.positionAfter.entryValue - after.entryValue)| := by
          rw [hsum]; exact abs_add_le _ _
      _ ≤ step.reaverageSlack + totalSlack steps := add_le_add hcash hrest
      _ = totalSlack (step :: steps) := by simp [totalSlack]

/-- **The moving-average basis conserves cash**, over fills and delivery settlements from a flat
position, up to half a quantum for each unit held at a re-average. -/
theorem moving_average_conserves_cash (records : List TaxRecord) (steps : List FillRealization)
    (position : AverageCostPosition) (h : Applied flatPosition records steps position) :
    |totalCash records steps - (totalRealized steps - position.quantity * position.avgEntry)| ≤ totalSlack steps ∧
      (0 < position.avgEntry ↔ position.quantity ≠ 0) ∧ (position.openedAt = none ↔ position.quantity = 0) ∧
      List.Forall₂ (fun r step => r.kind = "TRADE" → step.closedQuantity + step.openedQuantity = r.quantity)
        records steps := by
  obtain ⟨hcash, hsound, hsplit⟩ := h.balances flatPosition_sound
  refine ⟨?_, hsound.entry, hsound.opened, hsplit⟩
  have hflat : flatPosition.entryValue = 0 := by simp [flatPosition, AverageCostPosition.entryValue]
  rw [hflat, add_zero] at hcash; exact hcash

/-- **The fold of a symbol conserves cash** from any sound position, in whatever order its records
come. -/
theorem foldSymbol_conserves_cash {initial : AverageCostPosition} (hsound : initial.Sound)
    (h : foldSymbol records initial = .ok steps) :
    let after := (steps.getLast?.map FillRealization.positionAfter).getD initial
    |totalCash (sortBy TaxRecord.sortKey records) steps -
        (totalRealized steps + initial.entryValue - after.entryValue)| ≤ totalSlack steps ∧ after.Sound := by
  rw [foldSymbol] at h
  split at h
  · cases h
  · obtain ⟨hcash, hafter, -⟩ := (foldSteps_applied h).balances hsound; exact ⟨hcash, hafter⟩

def simulatedFill (id side : String) (time quantity price : ℚ) : TaxRecord where
  recordId := id
  kind := "TRADE"
  eventTime := time
  symbol := "AUSDT"
  side := side
  quantity := quantity
  price := price
  quoteQty := quantity * price
  fee := 0
  feeAsset := "USDT"
  realizedPnl := 0
  incomeAsset := "USDT"
  isMaker := false
  venueId := 0
  source := "simulated"
  mode := "paper"

/-- Bought one at 100 and two at 101, and sold four at 102: the entry is re-averaged once, to a
quantum, and the last fill flips the position. -/
theorem moving_average_conserves_cash_flip : ∃ steps,
    |totalCash [simulatedFill "a" "BUY" 1 1 100, simulatedFill "b" "BUY" 2 2 101,
      simulatedFill "c" "SELL" 3 4 102] steps -
        (totalRealized steps - -1 * 102)| ≤ totalSlack steps ∧
      totalSlack steps = averageEntryQuantum / 2 * 3 := by
  have hsteps : ∃ steps, foldSteps flatPosition [] [simulatedFill "a" "BUY" 1 1 100,
    simulatedFill "b" "BUY" 2 2 101,
      simulatedFill "c" "SELL" 3 4 102] = .ok steps ∧
      (steps.getLast?.map FillRealization.positionAfter).getD flatPosition = ⟨-1, 102, some 3⟩ ∧
      totalSlack steps = averageEntryQuantum / 2 * 3 := by
    refine ⟨(foldSteps flatPosition [] [simulatedFill "a" "BUY" 1 1 100, simulatedFill "b" "BUY" 2 2 101,
      simulatedFill "c" "SELL" 3 4 102]).toOption.getD [], ?_, ?_, ?_⟩ <;> decide +kernel
  obtain ⟨steps, hok, hlast, hslack⟩ := hsteps
  exact ⟨steps, (moving_average_conserves_cash _ steps ⟨-1, 102, some 3⟩ (hlast ▸ foldSteps_applied hok)).1, hslack⟩

end CryptoPilot.Live
