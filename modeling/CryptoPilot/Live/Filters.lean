/- # Filters — exchange symbol filters and order quantization.

Every amount is an exact rational: the module's rule is that no binary float enters an order
parameter, and `Decimal` arithmetic is exact on the magnitudes a venue filter admits. -/
import CryptoPilot.Lib.Rounding
import CryptoPilot.Lib.Effect
import CryptoPilot.Live.Errors

namespace CryptoPilot.Live

open CryptoPilot.Lib

/-- `SymbolFilters`: one symbol's exchange filters. -/
structure SymbolFilters where
  symbol : String
  tickSize : ℚ
  stepSize : ℚ
  minQty : ℚ
  minNotional : ℚ
  maxQty : ℚ
  minQty_nonneg : 0 ≤ minQty

/-- `QuantizedOrder`; the sign of `quantity` is the direction. -/
structure QuantizedOrder where
  quantity : ℚ
  price : ℚ
  reduceOnly : Bool
  deriving DecidableEq

/-- `quantize_to_multiple`: raises on a non-positive multiple. -/
def quantizeToMultiple (value multiple : ℚ) (rounding : Rounding) : Except Exc ℚ :=
  if multiple ≤ 0 then .error .valueError else .ok (roundTo rounding multiple value)

theorem quantizeToMultiple_eq_ok {value multiple r : ℚ} {rounding : Rounding}
    (h : quantizeToMultiple value multiple rounding = .ok r) :
    0 < multiple ∧ r = roundTo rounding multiple value := by
  unfold quantizeToMultiple at h
  split at h
  · cases h
  · next hm => exact ⟨not_le.mp hm, (Except.ok.inj h).symm⟩

/-- `quantize_order`: the quantity is rounded down, the price to the passive side; a quantity under
the venue minimum is dropped, but a reduction is exempt from the minimum notional. -/
def quantizeOrder (filters : SymbolFilters) (targetQty referencePrice : ℚ) (reduceOnly : Bool) :
    Except Exc (Option QuantizedOrder) := do
  let sideBuy := decide (0 ≤ targetQty)
  let qty ← quantizeToMultiple (min |targetQty| filters.maxQty) filters.stepSize .down
  if qty < filters.minQty then
    pure none
  else
    let quantized ← quantizeToMultiple referencePrice filters.tickSize
      (if sideBuy then .down else .up)
    let price := if quantized ≤ 0 then filters.tickSize else quantized
    if qty * price < filters.minNotional ∧ ¬ (reduceOnly = true ∧ targetQty ≠ 0) then
      pure none
    else
      pure (some ⟨if sideBuy then qty else -qty, price, reduceOnly⟩)

theorem quantizeOrder_bounds {filters : SymbolFilters} {targetQty referencePrice : ℚ}
    {reduceOnly : Bool} {order : QuantizedOrder}
    (h : quantizeOrder filters targetQty referencePrice reduceOnly = .ok (some order)) :
    |order.quantity| ≤ |targetQty| ∧
      (0 ≤ targetQty → 0 ≤ order.quantity) ∧ (targetQty < 0 → order.quantity ≤ 0) := by
  simp only [quantizeOrder, bind_eq_ok] at h
  obtain ⟨qty, hqty, h⟩ := h
  obtain ⟨hstep, hqty⟩ := quantizeToMultiple_eq_ok hqty
  split at h
  · cases h
  · next hmin =>
    have hqty_nonneg : 0 ≤ qty := le_trans filters.minQty_nonneg (not_lt.mp hmin)
    -- a positive rounded quantity comes from a positive request
    have hle : qty ≤ |targetQty| := by
      rcases hqty_nonneg.eq_or_lt with hz | hpos
      · rw [← hz]; exact abs_nonneg _
      · have hraw : 0 < min |targetQty| filters.maxQty :=
          pos_of_roundTo_pos hstep (hqty ▸ hpos)
        calc qty ≤ min |targetQty| filters.maxQty := hqty ▸ roundTo_down_le hstep hraw.le
          _ ≤ |targetQty| := min_le_left _ _
    obtain ⟨quantized, -, h⟩ := bind_eq_ok.mp h
    generalize (if quantized ≤ 0 then filters.tickSize else quantized) = price at h
    split at h
    · cases h
    · rw [pure_eq_ok, Option.some.injEq] at h
      subst h
      by_cases hs : 0 ≤ targetQty
      · simp only [hs, decide_true, if_true, abs_of_nonneg hqty_nonneg]
        exact ⟨hle, fun _ => hqty_nonneg, fun hneg => absurd hs (not_le.mpr hneg)⟩
      · simp only [hs, decide_false, Bool.false_eq_true, if_false, abs_neg,
          abs_of_nonneg hqty_nonneg]
        exact ⟨hle, fun hpos => hpos.elim, fun _ => by linarith⟩

end CryptoPilot.Live
