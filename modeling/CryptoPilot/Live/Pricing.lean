/- # Pricing — the execution policy, its price rails and the post quantity.

The executor never sends a market order (I-NO-NAKED-MARKET): every order is a LIMIT whose worst
price is a contract.  This is the PURE part of it: the chase band around the decision price (the GTX
rail), the risk rail around the book mid (the IOC rail), the three passive prices and the capped IOC
price, and the head slice an order carries.  Each pricing function either posts nothing or meets
`PriceContract`. -/
import CryptoPilot.Live.Planner

namespace CryptoPilot.Live

open CryptoPilot.Lib

/-! ## Policy -/

inductive Liquidity where
  | maker
  | taker
  deriving DecidableEq, Repr

def Liquidity.text : Liquidity → String
  | .maker => "maker"
  | .taker => "taker"

/-- `FeeSchedule`; the order journal refuses a fill with a negative fee. -/
structure FeeSchedule where
  makerFeeBps : ℚ
  takerFeeBps : ℚ
  makerFeeBps_nonneg : 0 ≤ makerFeeBps
  takerFeeBps_nonneg : 0 ≤ takerFeeBps

def FeeSchedule.bpsFor (schedule : FeeSchedule) : Liquidity → ℚ
  | .maker => schedule.makerFeeBps
  | .taker => schedule.takerFeeBps

inductive PassivePricing where
  | touchChase
  | anchored
  | anchoredRepeg
  deriving DecidableEq, Repr

/-- `PassiveExecutionPolicy` with the checks of `__post_init__` as fields.  The signs of
`takerCapBps` and `chaseBandBps` are not among them: they come from the `FeeSchedule` fee, slippage
and band that a policy is made with, which are those of an `ExecutionSpec`, and its checks refuse
negative ones. -/
structure PassiveExecutionPolicy where
  pollIntervalS : ℚ
  chaseTicks : ℤ
  maxChases : ℤ
  passiveDeadlineS : ℚ
  windowDeadlineS : ℚ
  takerCapBps : ℚ
  chaseBandBps : ℚ
  maxCrossBps : ℚ
  maxSlices : ℤ
  rateWeightBudgetFraction : ℚ
  maxIocAttempts : ℤ
  maxConsecutiveReadFailures : ℤ
  rateWeightRecoverFraction : ℚ
  marginRetryS : ℚ
  maxMarginRejects : ℤ
  feeSchedule : FeeSchedule
  takerSlippageBps : ℚ
  passivePricing : PassivePricing
  repegIntervalS : ℚ
  passiveDeadlineS_lt : passiveDeadlineS < windowDeadlineS
  repegIntervalS_mem : passivePricing = .anchoredRepeg →
    0 < repegIntervalS ∧ repegIntervalS < passiveDeadlineS
  pollIntervalS_pos : 0 < pollIntervalS
  maxIocAttempts_pos : 1 ≤ maxIocAttempts
  maxCrossBps_gt : chaseBandBps < maxCrossBps
  maxConsecutiveReadFailures_pos : 1 ≤ maxConsecutiveReadFailures
  rateWeightRecoverFraction_mem :
    0 < rateWeightRecoverFraction ∧ rateWeightRecoverFraction < rateWeightBudgetFraction
  marginRetryS_pos : 0 < marginRetryS
  maxMarginRejects_pos : 1 ≤ maxMarginRejects
  takerCapBps_nonneg : 0 ≤ takerCapBps
  chaseBandBps_nonneg : 0 ≤ chaseBandBps

def bpsDenominator : ℚ := 10000

def maxSliceNotional : ℚ := 500

def executionBarSeconds : ℚ := 180

/-- `backtest_parity_execution_policy`: one bar passive, two bars in all. -/
def backtestParityExecutionPolicy (feeSchedule : FeeSchedule) (takerSlippageBps : ℚ)
    (h : 0 ≤ takerSlippageBps) : PassiveExecutionPolicy where
  pollIntervalS := 3
  chaseTicks := 2
  maxChases := 8
  passiveDeadlineS := executionBarSeconds
  windowDeadlineS := 2 * executionBarSeconds
  takerCapBps := feeSchedule.takerFeeBps + takerSlippageBps
  chaseBandBps := 10
  maxCrossBps := 50
  maxSlices := 4
  rateWeightBudgetFraction := 1 / 2
  maxIocAttempts := 10
  maxConsecutiveReadFailures := 5
  rateWeightRecoverFraction := 35 / 100
  marginRetryS := 60
  maxMarginRejects := 3
  feeSchedule := feeSchedule
  takerSlippageBps := takerSlippageBps
  passivePricing := .touchChase
  repegIntervalS := executionBarSeconds
  passiveDeadlineS_lt := by norm_num [executionBarSeconds]
  repegIntervalS_mem := by intro h; cases h
  pollIntervalS_pos := by norm_num
  maxIocAttempts_pos := by norm_num
  maxCrossBps_gt := by norm_num
  maxConsecutiveReadFailures_pos := by norm_num
  rateWeightRecoverFraction_mem := by norm_num
  marginRetryS_pos := by norm_num
  maxMarginRejects_pos := by norm_num
  takerCapBps_nonneg := add_nonneg feeSchedule.takerFeeBps_nonneg h
  chaseBandBps_nonneg := by norm_num

/-! ## Price rails -/

/-- `_band`: decision price ± `chase_band_bps`, the rail of a GTX price. -/
def band (intent : OrderIntent) (policy : PassiveExecutionPolicy) : ℚ × ℚ :=
  let halfBand := intent.decisionPrice * policy.chaseBandBps / bpsDenominator
  (intent.decisionPrice - halfBand, intent.decisionPrice + halfBand)

/-- `_risk_rail`: book mid ± `max_cross_bps`, the rail of an IOC price. -/
def riskRail (bid ask : ℚ) (policy : PassiveExecutionPolicy) : ℚ × ℚ :=
  let mid := (bid + ask) / 2
  let halfRail := mid * policy.maxCrossBps / bpsDenominator
  (mid - halfRail, mid + halfRail)

def passiveRounding (isBuy : Bool) : Rounding := if isBuy then .down else .up

/-- The clamp of `_capped_ioc_price`: cap at the rail, then lift a non-marketable result to the
touch. -/
def clampIocPrice (isBuy : Bool) (price oppositeTouch tickSize bandLow bandHigh : ℚ) : Except Exc ℚ :=
  if isBuy then do
    let high ← quantizeToMultiple bandHigh tickSize .down
    let capped := min price high
    if capped < oppositeTouch then quantizeToMultiple oppositeTouch tickSize .up else pure capped
  else do
    let low ← quantizeToMultiple bandLow tickSize .up
    let capped := max price low
    if oppositeTouch < capped then quantizeToMultiple oppositeTouch tickSize .down
    else pure capped

/-- `_capped_ioc_price`: touch ± taker cap on the tick grid, clamped; `none` for a touch outside the
rail. -/
def cappedIocPrice (oppositeTouch : ℚ) (isBuy : Bool) (takerCapBps tickSize : ℚ)
    (rail : Option (ℚ × ℚ)) : Except Exc (Option ℚ) := do
  let factor :=
    if isBuy then 1 + takerCapBps / bpsDenominator else 1 - takerCapBps / bpsDenominator
  let quantized ← quantizeToMultiple (oppositeTouch * factor) tickSize
    (if isBuy then .down else .up)
  match rail with
  | none => if quantized ≤ 0 then pure none else pure (some quantized)
  | some (bandLow, bandHigh) =>
    let price ← clampIocPrice isBuy quantized oppositeTouch tickSize bandLow bandHigh
    if price ≤ 0 then pure none
    else if (if isBuy then bandHigh < oppositeTouch else oppositeTouch < bandLow) then pure none
    else pure (some price)

/-- `_gtx_candidate`: the touch on the passive side of the grid; `none` outside the band on the
adverse side only. -/
def gtxCandidate (raw : ℚ) (isBuy : Bool) (tickSize : ℚ) (bandLow bandHigh : ℚ) :
    Except Exc (Option ℚ) := do
  let price ← quantizeToMultiple raw tickSize (passiveRounding isBuy)
  if price ≤ 0 then pure none
  else if (if isBuy then bandHigh < price else price < bandLow) then pure none
  else pure (some price)

/-- `_post_only_quote_price`: the anchor, yielding at most one tick inside the opposite touch. -/
def postOnlyQuotePrice (anchor bid ask : ℚ) (isBuy : Bool) (tickSize : ℚ) :
    Except Exc (Option ℚ) := do
  let raw := if isBuy then min anchor (ask - tickSize) else max anchor (bid + tickSize)
  let price ← quantizeToMultiple raw tickSize (passiveRounding isBuy)
  if price ≤ 0 then pure none else pure (some price)

/-- `_band_capped_peg_price`: the own touch, saturated at the band edge on the adverse side. -/
def bandCappedPegPrice (ownTouch : ℚ) (isBuy : Bool) (tickSize bandLow bandHigh : ℚ) :
    Except Exc ℚ := do
  let price ← quantizeToMultiple ownTouch tickSize (passiveRounding isBuy)
  if isBuy then
    let high ← quantizeToMultiple bandHigh tickSize .down
    pure (min price high)
  else
    let low ← quantizeToMultiple bandLow tickSize .up
    pure (max price low)

/-! ## Slices -/

/-- `_slice_quantities`: step multiples that sum to `total` exactly; the first slices absorb the
remainder. -/
def sliceQuantities (total : ℚ) (sliceCount : ℤ) (stepSize : ℚ) : Except Exc (List ℚ) :=
  if sliceCount < 1 then .error .valueError
  else if stepSize ≤ 0 then .error .valueError
  else
    let units := toIntegralValue .down (total / stepSize)
    if units * stepSize ≠ total then .error .valueError
    else if units = 0 then .ok []
    else
      let base := units / sliceCount
      let remainder := units % sliceCount
      .ok ((List.range (min sliceCount units).toNat).filterMap fun index : ℕ =>
        let count := base + if (index : ℤ) < remainder then 1 else 0
        if 0 < count then some (stepSize * count) else none)

/-- A rational rounded to binary64 (53 significant bits, ties to even), the `float(...)` of a
`Decimal` in the finite range. -/
def toFloat (x : ℚ) : ℚ :=
  if x = 0 then 0
  else
    let exponent : ℤ := (Nat.log2 x.num.natAbs : ℤ) - Nat.log2 x.den
    -- the leading bit of |x| is `exponent` or `exponent - 1`
    let lead := if |x| < (2 : ℚ) ^ exponent then exponent - 1 else exponent
    let ulp : ℚ := (2 : ℚ) ^ (lead - 52)
    let scaled := x / ulp
    let lower := ⌊scaled⌋
    let frac := scaled - lower
    let rounded :=
      if frac < 1 / 2 then lower
      else if 1 / 2 < frac then lower + 1
      else if lower % 2 = 0 then lower else lower + 1
    rounded * ulp

/-- `_post_quantity`: the head slice one active order carries. -/
def postQuantity (remaining price stepSize : ℚ) (maxSlices : ℤ) : Except Exc ℚ :=
  if price ≤ 0 then .ok remaining
  else
    let sliceCount := min maxSlices (max 1 ⌈toFloat (remaining * price / maxSliceNotional)⌉)
    if sliceCount ≤ 1 then .ok remaining
    else do
      let slices ← sliceQuantities remaining sliceCount stepSize
      pure (slices.headD remaining)

theorem sliceQuantities_head_mem {total stepSize : ℚ} {sliceCount : ℤ} {slices : List ℚ}
    (h : sliceQuantities total sliceCount stepSize = .ok slices) (htotal : 0 < total) :
    ∀ q ∈ slices, 0 < q ∧ q ≤ total := by
  unfold sliceQuantities at h
  simp only [ne_eq, ite_not] at h
  split_ifs at h with hcount hstep hsum hzero
  · cases h
    intro q hq; cases hq
  · injection h with h
    subst h
    intro q hq
    obtain ⟨index, hindex, hq⟩ := List.mem_filterMap.mp hq
    have hstep : 0 < stepSize := not_le.mp hstep
    set units := toIntegralValue .down (total / stepSize) with hunits
    have hunits_pos : 0 < units := by
      have : (0 : ℚ) < units := (mul_pos_iff_of_pos_right hstep).mp (hsum ▸ htotal)
      exact_mod_cast this
    have hcount : 1 ≤ sliceCount := not_lt.mp hcount
    simp only [Option.ite_none_right_eq_some, Option.some.injEq] at hq
    obtain ⟨hpos, rfl⟩ := hq
    set count := units / sliceCount + (if (index : ℤ) < units % sliceCount then 1 else 0) with hc
    have hle : count ≤ units := by
      have hdiv : sliceCount * (units / sliceCount) + units % sliceCount = units :=
        Int.mul_ediv_add_emod units sliceCount
      have hmul : units / sliceCount ≤ sliceCount * (units / sliceCount) :=
        le_mul_of_one_le_left (Int.ediv_nonneg hunits_pos.le (by omega)) hcount
      have hmod : 0 ≤ units % sliceCount := Int.emod_nonneg units (by omega)
      rw [hc]
      split_ifs with hlt <;> omega
    constructor
    · exact mul_pos hstep (by exact_mod_cast hpos)
    · calc stepSize * (count : ℚ) ≤ stepSize * (units : ℚ) := by gcongr
        _ = total := by rw [mul_comm]; exact hsum

/-- **A posted order carries a positive part of what remains.** -/
theorem postQuantity_mem {remaining price stepSize q : ℚ} {maxSlices : ℤ}
    (h : postQuantity remaining price stepSize maxSlices = .ok q)
    (hpos : 0 < remaining) : 0 < q ∧ q ≤ remaining := by
  unfold postQuantity at h
  simp only at h
  split_ifs at h with hprice hcount
  · cases h; exact ⟨hpos, le_rfl⟩
  · cases h; exact ⟨hpos, le_rfl⟩
  · rw [bind_eq_ok] at h
    obtain ⟨slices, hslices, h⟩ := h
    rw [pure_eq_ok] at h
    subst h
    cases slices with
    | nil => exact ⟨hpos, le_rfl⟩
    | cons q rest => exact sliceQuantities_head_mem hslices hpos q List.mem_cons_self

/-! ## The price contract -/

inductive TimeInForce where
  | gtx
  | ioc
  deriving DecidableEq, Repr

/-- The passive price of `_poll_or_post`: the anchored modes quote the last re-peg level (or
decision price), `touch_chase` the own touch. -/
def passivePrice (policy : PassiveExecutionPolicy) (intent : OrderIntent) (filters : SymbolFilters)
    (passiveQuote bid ask : ℚ) : Except Exc (Option ℚ) :=
  let isBuy := decide (intent.side = .buy)
  match policy.passivePricing with
  | .touchChase =>
    gtxCandidate (if isBuy then bid else ask) isBuy filters.tickSize
      (band intent policy).1 (band intent policy).2
  | .anchored | .anchoredRepeg =>
    postOnlyQuotePrice (if 0 < passiveQuote then passiveQuote else intent.decisionPrice) bid ask
      isBuy filters.tickSize

/-- The backstop price of `_poll_or_post`. -/
def backstopPrice (policy : PassiveExecutionPolicy) (intent : OrderIntent)
    (filters : SymbolFilters) (bid ask : ℚ) : Except Exc (Option ℚ) :=
  let isBuy := decide (intent.side = .buy)
  cappedIocPrice (if isBuy then ask else bid) isBuy policy.takerCapBps filters.tickSize
    (some (riskRail bid ask policy))

/-- **The price contract** of a posted order against the book it was priced on. -/
structure PriceContract (policy : PassiveExecutionPolicy) (intent : OrderIntent) (tick bid ask : ℚ)
    (timeInForce : TimeInForce) (price : ℚ) : Prop where
  pos : 0 < price
  onGrid : OnGrid tick price
  /-- a GTX price never chases past the band -/
  gtxBand : timeInForce = .gtx →
    (intent.side = .buy →
      price ≤ intent.decisionPrice * (1 + policy.chaseBandBps / bpsDenominator)) ∧
    (intent.side = .sell →
      intent.decisionPrice * (1 - policy.chaseBandBps / bpsDenominator) ≤ price)
  /-- an anchored GTX price stays strictly inside the opposite touch -/
  gtxInside : timeInForce = .gtx → policy.passivePricing ≠ .touchChase →
    (intent.side = .buy → price < ask) ∧ (intent.side = .sell → bid < price)
  /-- an IOC price is marketable and inside both caps -/
  iocRail : timeInForce = .ioc →
    (intent.side = .buy → ask ≤ price ∧
      price ≤ min (ask * (1 + policy.takerCapBps / bpsDenominator))
        ((bid + ask) / 2 * (1 + policy.maxCrossBps / bpsDenominator))) ∧
    (intent.side = .sell → price ≤ bid ∧
      max (bid * (1 - policy.takerCapBps / bpsDenominator))
        ((bid + ask) / 2 * (1 - policy.maxCrossBps / bpsDenominator)) ≤ price)

/-- The re-peg level never leaves the band on the adverse side (0 is "no re-peg yet"). -/
def QuoteInBand (policy : PassiveExecutionPolicy) (intent : OrderIntent) (passiveQuote : ℚ) : Prop :=
  0 < passiveQuote →
    (intent.side = .buy → passiveQuote ≤ (band intent policy).2) ∧
    (intent.side = .sell → (band intent policy).1 ≤ passiveQuote)

section Contract

variable {policy : PassiveExecutionPolicy} {intent : OrderIntent} {filters : SymbolFilters}
  {bid ask price step x p : ℚ}

theorem le_of_le_roundTo_down (hs : 0 < step) (hp : 0 < p) (h : p ≤ roundTo .down step x) : p ≤ x := by
  have hx : 0 < x := pos_of_roundTo_pos hs (hp.trans_le h); exact h.trans (roundTo_down_le hs hx.le)

theorem le_of_roundTo_up_le (hs : 0 < step) (hp : 0 < p) (h : roundTo .up step x ≤ p) : x ≤ p := by
  rcases le_or_gt 0 x with hx | hx
  · exact (le_roundTo_up hs hx).trans h
  · exact hx.le.trans hp.le

theorem band_snd_eq :
    (band intent policy).2
      = intent.decisionPrice * (1 + policy.chaseBandBps / bpsDenominator) := by
  simp only [band]; ring

theorem band_fst_eq :
    (band intent policy).1
      = intent.decisionPrice * (1 - policy.chaseBandBps / bpsDenominator) := by
  simp only [band]; ring

theorem decisionPrice_mem_band :
    (band intent policy).1 ≤ intent.decisionPrice ∧
      intent.decisionPrice ≤ (band intent policy).2 := by
  have hhalf : 0 ≤ intent.decisionPrice * policy.chaseBandBps / bpsDenominator :=
    div_nonneg (mul_nonneg intent.decisionPrice_pos.le policy.chaseBandBps_nonneg)
      (by norm_num [bpsDenominator])
  simp only [band]
  constructor <;> linarith

theorem bandCappedPegPrice_inBand {ownTouch : ℚ}
    (h : bandCappedPegPrice ownTouch (decide (intent.side = .buy)) filters.tickSize
      (band intent policy).1 (band intent policy).2 = .ok price) :
    QuoteInBand policy intent price := by
  intro hpos
  obtain ⟨raw, hraw, h⟩ := bind_eq_ok.mp h
  obtain ⟨htick, rfl⟩ := quantizeToMultiple_eq_ok hraw
  cases hside : intent.side with
  | buy =>
    simp only [hside, decide_true, if_true, bind_eq_ok] at h
    obtain ⟨high, hhigh, h⟩ := h
    obtain ⟨-, rfl⟩ := quantizeToMultiple_eq_ok hhigh
    rw [pure_eq_ok] at h
    subst h
    refine ⟨fun _ => ?_, nofun⟩
    exact le_of_le_roundTo_down htick hpos (min_le_right _ _)
  | sell =>
    simp only [hside, reduceCtorEq, decide_false, Bool.false_eq_true, if_false, bind_eq_ok] at h
    obtain ⟨low, hlow, h⟩ := h
    obtain ⟨-, rfl⟩ := quantizeToMultiple_eq_ok hlow
    rw [pure_eq_ok] at h
    subst h
    refine ⟨nofun, fun _ => ?_⟩
    exact le_of_roundTo_up_le htick hpos (le_max_right _ _)

theorem gtxCandidate_spec {raw tick bandLow bandHigh : ℚ} {isBuy : Bool}
    (h : gtxCandidate raw isBuy tick bandLow bandHigh = .ok (some price)) :
    0 < price ∧ OnGrid tick price ∧ (isBuy = true → price ≤ bandHigh) ∧
      (isBuy = false → bandLow ≤ price) := by
  obtain ⟨raw', hraw, h⟩ := bind_eq_ok.mp h
  obtain ⟨-, rfl⟩ := quantizeToMultiple_eq_ok hraw
  split_ifs at h with hpos hbuy hout hout <;> rw [pure_eq_ok] at h <;> cases h
  · exact ⟨not_le.mp hpos, onGrid_roundTo _ _ _, fun _ => not_lt.mp hout, by simp [hbuy]⟩
  · exact ⟨not_le.mp hpos, onGrid_roundTo _ _ _, by simp [hbuy], fun _ => not_lt.mp hout⟩

theorem postOnlyQuotePrice_spec {anchor tick : ℚ} {isBuy : Bool}
    (h : postOnlyQuotePrice anchor bid ask isBuy tick = .ok (some price)) :
    0 < price ∧ OnGrid tick price ∧ (isBuy = true → price ≤ anchor ∧ price < ask) ∧
      (isBuy = false → anchor ≤ price ∧ bid < price) := by
  obtain ⟨price', hprice, h⟩ := bind_eq_ok.mp h
  split at h
  · cases h
  · next hpos =>
    rw [pure_eq_ok, Option.some.injEq] at h
    subst h
    have hpos : 0 < price' := not_le.mp hpos
    cases isBuy with
    | true =>
      obtain ⟨htick, rfl⟩ := quantizeToMultiple_eq_ok hprice
      have hle := le_of_le_roundTo_down htick hpos le_rfl
      refine ⟨hpos, onGrid_roundTo _ _ _, fun _ => ⟨hle.trans (min_le_left _ _), ?_⟩, nofun⟩
      have hinside := hle.trans (min_le_right _ _); linarith
    | false =>
      obtain ⟨htick, rfl⟩ := quantizeToMultiple_eq_ok hprice
      have hle := le_of_roundTo_up_le htick hpos le_rfl
      refine ⟨hpos, onGrid_roundTo _ _ _, nofun, fun _ => ⟨(le_max_left _ _).trans hle, ?_⟩⟩
      have hinside := (le_max_right _ _).trans hle; linarith

/-- **Every passive price meets the contract**, in all three pricing modes. -/
theorem passivePrice_contract {passiveQuote : ℚ} (hquote : QuoteInBand policy intent passiveQuote)
    (h : passivePrice policy intent filters passiveQuote bid ask = .ok (some price)) :
    PriceContract policy intent filters.tickSize bid ask .gtx price := by
  -- the anchor the two anchored modes quote is inside the band
  have hanchor : (intent.side = .buy →
        (if 0 < passiveQuote then passiveQuote else intent.decisionPrice)
          ≤ (band intent policy).2) ∧
      (intent.side = .sell → (band intent policy).1
          ≤ (if 0 < passiveQuote then passiveQuote else intent.decisionPrice)) := by
    split
    · next hpos => exact hquote hpos
    · exact ⟨fun _ => decisionPrice_mem_band.2, fun _ => decisionPrice_mem_band.1⟩
  rw [band_fst_eq, band_snd_eq] at hanchor
  cases hmode : policy.passivePricing with
  | touchChase =>
    simp only [passivePrice, hmode] at h
    obtain ⟨hpos, hgrid, hbuy, hsell⟩ := gtxCandidate_spec h
    rw [band_snd_eq] at hbuy
    rw [band_fst_eq] at hsell
    refine ⟨hpos, hgrid, fun _ => ⟨fun hs => hbuy (by simp [hs]), fun hs => hsell (by simp [hs])⟩,
      fun _ hne => absurd hmode hne, nofun⟩
  | anchored | anchoredRepeg =>
    simp only [passivePrice, hmode] at h
    obtain ⟨hpos, hgrid, hbuy, hsell⟩ := postOnlyQuotePrice_spec h
    refine ⟨hpos, hgrid, fun _ => ⟨fun hs => ?_, fun hs => ?_⟩, fun _ _ => ⟨fun hs => ?_, fun hs => ?_⟩, nofun⟩
    · exact (hbuy (by simp [hs])).1.trans (hanchor.1 hs)
    · exact (hanchor.2 hs).trans (hsell (by simp [hs])).1
    · exact (hbuy (by simp [hs])).2
    · exact (hsell (by simp [hs])).2

variable {raw touch tick low high : ℚ}

theorem clampIocPrice_buy (htouch : OnGrid tick touch)
    (h : clampIocPrice true raw touch tick low high = .ok price) (hpos : 0 < price) :
    OnGrid tick raw → 0 < tick ∧ OnGrid tick price ∧ touch ≤ price ∧
      (price ≤ raw ∨ price = touch) ∧ (price ≤ high ∨ price = touch) := by
  intro hraw
  simp only [clampIocPrice, if_true, bind_eq_ok] at h
  obtain ⟨high', hhigh, h⟩ := h
  obtain ⟨htick, rfl⟩ := quantizeToMultiple_eq_ok hhigh
  split at h
  · obtain ⟨-, rfl⟩ := quantizeToMultiple_eq_ok h
    rw [htouch.roundTo_eq htick]; exact ⟨htick, htouch, le_rfl, .inr rfl, .inr rfl⟩
  · next hmarket =>
    rw [pure_eq_ok] at h
    subst h
    refine ⟨htick, ?_, not_lt.mp hmarket, .inl (min_le_left _ _), .inl ?_⟩
    · rcases min_choice raw (roundTo .down tick high) with hm | hm <;> rw [hm]
      · exact hraw
      · exact onGrid_roundTo _ _ _
    · exact le_of_le_roundTo_down htick hpos (min_le_right _ _)

theorem clampIocPrice_sell (htouch : OnGrid tick touch)
    (h : clampIocPrice false raw touch tick low high = .ok price) (hpos : 0 < price) :
    OnGrid tick raw → 0 < tick ∧ OnGrid tick price ∧ price ≤ touch ∧
      (raw ≤ price ∨ price = touch) ∧ (low ≤ price ∨ price = touch) := by
  intro hraw
  simp only [clampIocPrice, Bool.false_eq_true, if_false, bind_eq_ok] at h
  obtain ⟨low', hlow, h⟩ := h
  obtain ⟨htick, rfl⟩ := quantizeToMultiple_eq_ok hlow
  split at h
  · obtain ⟨-, rfl⟩ := quantizeToMultiple_eq_ok h
    rw [htouch.roundTo_eq htick]; exact ⟨htick, htouch, le_rfl, .inr rfl, .inr rfl⟩
  · next hmarket =>
    rw [pure_eq_ok] at h
    subst h
    refine ⟨htick, ?_, not_lt.mp hmarket, .inl (le_max_left _ _), .inl ?_⟩
    · rcases max_choice raw (roundTo .up tick low) with hm | hm <;> rw [hm]
      · exact hraw
      · exact onGrid_roundTo _ _ _
    · exact le_of_roundTo_up_le htick hpos (le_max_right _ _)

/-- **Every backstop price meets the contract** on a book that is on the tick grid. -/
theorem backstopPrice_contract (hbid : 0 < bid) (hask : 0 < ask)
    (hbidGrid : OnGrid filters.tickSize bid) (haskGrid : OnGrid filters.tickSize ask)
    (h : backstopPrice policy intent filters bid ask = .ok (some price)) :
    PriceContract policy intent filters.tickSize bid ask .ioc price := by
  have hcap : 0 ≤ policy.takerCapBps / bpsDenominator :=
    div_nonneg policy.takerCapBps_nonneg (by norm_num [bpsDenominator])
  have hrail : (riskRail bid ask policy).1
        = (bid + ask) / 2 * (1 - policy.maxCrossBps / bpsDenominator) ∧
      (riskRail bid ask policy).2
        = (bid + ask) / 2 * (1 + policy.maxCrossBps / bpsDenominator) := by
    simp only [riskRail]
    constructor <;> ring
  obtain ⟨raw, hraw, h⟩ := bind_eq_ok.mp h
  simp only [bind_eq_ok] at h
  obtain ⟨clamped, hclamped, h⟩ := h
  obtain ⟨htick, rfl⟩ := quantizeToMultiple_eq_ok hraw
  split_ifs at h with hpos hbuy hout hout <;> rw [pure_eq_ok] at h <;> cases h
  · have hpos : 0 < price := not_le.mp hpos
    have hside : intent.side = .buy := by simpa using hbuy
    simp only [hside, decide_true, if_true] at hclamped hout
    obtain ⟨-, hgrid, htouch, hcapped, hhigh⟩ := clampIocPrice_buy haskGrid hclamped hpos (onGrid_roundTo _ _ _)
    have hup : ask ≤ ask * (1 + policy.takerCapBps / bpsDenominator) := le_mul_of_one_le_right hask.le (by linarith)
    refine ⟨hpos, hgrid, nofun, nofun, fun _ => ⟨fun _ => ⟨htouch, le_min ?_ ?_⟩, ?_⟩⟩
    · rcases hcapped with hc | rfl
      · exact le_of_le_roundTo_down htick hpos hc
      · exact hup
    · rw [← hrail.2]
      rcases hhigh with hh | rfl
      · exact hh
      · exact not_lt.mp hout
    · intro hs
      rw [hside] at hs; cases hs
  · have hpos : 0 < price := not_le.mp hpos
    have hside : intent.side = .sell := by
      cases hs : intent.side with
      | buy => simp [hs] at hbuy
      | sell => rfl
    simp only [hside, reduceCtorEq, decide_false, Bool.false_eq_true, if_false]
      at hclamped hout
    obtain ⟨-, hgrid, htouch, hcapped, hlow⟩ := clampIocPrice_sell hbidGrid hclamped hpos (onGrid_roundTo _ _ _)
    have hdown : bid * (1 - policy.takerCapBps / bpsDenominator) ≤ bid :=
      mul_le_of_le_one_right hbid.le (by linarith)
    refine ⟨hpos, hgrid, nofun, nofun, fun _ => ⟨?_, fun _ => ⟨htouch, max_le ?_ ?_⟩⟩⟩
    · intro hs
      rw [hside] at hs; cases hs
    · rcases hcapped with hc | rfl
      · exact le_of_roundTo_up_le htick hpos hc
      · exact hdown
    · rw [← hrail.1]
      rcases hlow with hl | rfl
      · exact hl
      · exact not_lt.mp hout

end Contract

end CryptoPilot.Live
