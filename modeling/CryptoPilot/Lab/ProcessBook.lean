/- # ProcessBook — the path of a unit book: smoothing, adoption, sizing and the hourly ledger.

The functions of `process.py`, `books.py` and `pnl.py` that turn target rows into holdings,
exposures and returns. Floats are any type with the operations of `FloatArith`, of which nothing is
assumed, so that whatever is said here holds of rounded arithmetic with NaNs in it as well. -/
import CryptoPilot.Lib.Causal
import CryptoPilot.Lib.Effect

namespace CryptoPilot.Lab

open CryptoPilot.Lib
open CryptoPilot.Lib.Series (AgreeTo)

/-! ## §1 Floats and rows -/

/-- The operations on floats; `sum`, `prod` and `mean` are numpy's. -/
class FloatArith (V : Type) extends Zero V, One V, Add V, Sub V, Mul V, Div V where
  nan : V
  abs : V → V
  exp : V → V
  log1p : V → V
  isFinite : V → Bool
  isNan : V → Bool
  isZero : V → Bool
  lt : V → V → Bool
  le : V → V → Bool
  sum : List V → V
  prod : List V → V
  mean : List V → V
  const : ℚ → V

/-- What a check of the process is about. -/
inductive ProcessFault where
  | rates
  | unitTargets
  | exposure
  | ledgerIndex
  | ledgerCell
  | ledgerEquity
  | ledgerReturn
  | executionMask
  | clock
  | friction
  | identity
  | planes
  | fundingKnowledge
  | labels
  | fitCutoff
  | schedule
  | candidateBooks
  | evaluationTiers
  | decisionBps
  | leverageCap
  | selection
  | innerEvidence
  deriving DecidableEq, Repr

inductive ProcessExc where
  | valueError (fault : ProcessFault)
  | dataIntegrityError (fault : ProcessFault)
  | indexError
  | linAlgError
  deriving DecidableEq, Repr

abbrev Row (V : Type) (n : ℕ) : Type := Fin n → V

variable {V : Type} [FloatArith V] {n : ℕ}

open FloatArith

def zeroRow : Row V n := fun _ => 0

def rowSum (row : Row V n) : V := sum (List.ofFn row)

/-- `np.where(np.isfinite(x), x, 0.0)`. -/
def finiteOrZero (x : V) : V := if isFinite x then x else 0

/-- `fillna(0.0)`. -/
def fillna (x : V) : V := if isNan x then 0 else x

/-- `x.where(x > 0)`. -/
def wherePositive (x : V) : V := if lt 0 x then x else nan

/-- `clip(lower, upper)`. -/
def clip (lower upper x : V) : V := if lt x lower then lower else if lt upper x then upper else x

/-! ## §2 Books -/

/-- The loop of `smoothed_book_path`: each row moves towards its target at the rate. -/
def smoothedRows (rate : V) (targets : Series (Row V n)) : Series (Row V n) :=
  targets.scan (fun state target i => state i + rate * (target i - state i)) zeroRow

/-- `smoothed_book_path`, the rate given on an index. -/
def smoothedBookPath (rate : V) (rateIndex : List ℤ) (targets : Series (Row V n)) :
    Except ProcessExc (Series (Row V n)) :=
  if rateIndex ≠ targets.index then .error (.valueError .rates) else .ok (smoothedRows rate targets)

/-- `scale_book_to_target_gross` at a gross of one, on one row. -/
def scaleRowToUnitGross (row : Row V n) : Row V n :=
  let gross : V := rowSum fun i => abs (finiteOrZero (row i))
  let scale : V := if lt 0 gross then 1 / gross else 0
  fun i => finiteOrZero (row i) * scale

/-- `portfolio_rebalance_trigger`: the row adopted last is held until the target is far from it. -/
def portfolioRebalanceTrigger (threshold : V) (target : Series (Row V n)) : Series (Row V n) :=
  (target.scan (fun held row =>
    let values : Row V n := fun i => finiteOrZero (row i)
    match held with
    | none => some values
    | some adopted => if le threshold (rowSum fun i =>
        abs (values i - adopted i)) then some values else some adopted)
    none).mapRows fun _ held => held.getD zeroRow

/-- `apply_process_execution_policy`; without a positive threshold the rows stay. -/
def applyProcessExecutionPolicy (threshold : Option V) (targets : Series (Row V n)) :
    Except ProcessExc (Series (Row V n)) :=
  if ¬ targets.Sorted ∨ (targets.any fun p => (List.ofFn p.2).any fun x => !isFinite x) then
    .error (.valueError .unitTargets)
  else
    match threshold with
    | none => .ok targets
    | some threshold => .ok (if isZero threshold then targets else portfolioRebalanceTrigger threshold targets)

/-- `target_weights.where(execution_mask, other=0.0)`. -/
def maskedRows (targets : Series (Row V n)) (mask : Series (Fin n → Bool)) : Series (Row V n) :=
  (targets.beside mask).mapRows fun _ p i => if p.2 i then p.1 i else 0

/-- `apply_process_execution_availability`: unavailable cells are zero. -/
def applyProcessExecutionAvailability (targets : Series (Row V n)) (mask : Series (Fin n → Bool)) :
    Except ProcessExc (Series (Row V n)) :=
  if mask.index ≠ targets.index then .error (.dataIntegrityError .executionMask)
  else .ok (maskedRows targets mask)

section Agree

variable {d : ℤ} {rate : V} {rateIndex : List ℤ} {threshold : Option V} {s s' r r' : Series (Row V n)}
  {mask mask' : Series (Fin n → Bool)}

theorem index_smoothedRows (rate : V) (s : Series (Row V n)) : (smoothedRows rate s).index = s.index :=
  Series.index_scan _ _ _

theorem smoothedRows_agree (rate : V) (hs : s.Sorted) (hs' : s'.Sorted) (hagree : AgreeTo d s s') :
    AgreeTo d (smoothedRows rate s) (smoothedRows rate s') := hagree.scan hs hs' _ _

theorem index_maskedRows (h : mask.index = s.index) : (maskedRows s mask).index = s.index := by
  rw [maskedRows, Series.index_mapRows, Series.index_beside h]

theorem maskedRows_agree (hindex : mask.index = s.index) (hindex' : mask'.index = s'.index)
    (hagree : AgreeTo d s s')
    (hmask : AgreeTo d mask mask') : AgreeTo d (maskedRows s mask) (maskedRows s' mask') :=
  (hagree.beside hmask hindex hindex').mapRows fun _ _ _ _ => rfl

theorem smoothedBookPath_index
    (h : smoothedBookPath rate rateIndex s = .ok r) : r.index = s.index ∧ s.index = rateIndex := by
  unfold smoothedBookPath at h
  split at h
  next => cases h
  next hindex =>
    cases h; exact ⟨index_smoothedRows rate s, (not_not.mp hindex).symm⟩

theorem smoothedBookPath_agree {rateIndex' : List ℤ} (h : smoothedBookPath rate rateIndex s = .ok r)
    (h' : smoothedBookPath rate rateIndex' s' = .ok r') (hs : s.Sorted) (hs' : s'.Sorted)
    (hagree : AgreeTo d s s') :
    AgreeTo d r r' := by
  unfold smoothedBookPath at h h'
  split at h
  next => cases h
  next =>
    split at h'
    next => cases h'
    next =>
      cases h; cases h'; exact smoothedRows_agree rate hs hs' hagree

theorem portfolioRebalanceTrigger_index (threshold : V) (s : Series (Row V n)) :
    (portfolioRebalanceTrigger threshold s).index = s.index := by
  rw [portfolioRebalanceTrigger, Series.index_mapRows, Series.index_scan]

theorem portfolioRebalanceTrigger_agree (threshold : V) (hs : s.Sorted) (hs' : s'.Sorted)
    (hagree : AgreeTo d s s') :
    AgreeTo d (portfolioRebalanceTrigger threshold s) (portfolioRebalanceTrigger threshold s') :=
  (hagree.scan hs hs' _ _).mapRows fun _ _ _ _ => rfl

section

variable (h : applyProcessExecutionPolicy threshold s = .ok r)

include h

theorem applyProcessExecutionPolicy_index :
    r.index = s.index ∧ s.Sorted := by
  unfold applyProcessExecutionPolicy at h
  split at h
  next => cases h
  next hvalid =>
    rw [not_or, not_not] at hvalid
    refine ⟨?_, hvalid.1⟩
    split at h
    next => cases h; rfl
    next threshold =>
      cases h
      split
      next => rfl
      next => exact portfolioRebalanceTrigger_index threshold s

theorem applyProcessExecutionPolicy_agree (h' : applyProcessExecutionPolicy threshold s' = .ok r')
    (hagree : AgreeTo d s s') : AgreeTo d r r' := by
  obtain ⟨-, hs⟩ := applyProcessExecutionPolicy_index h
  obtain ⟨-, hs'⟩ := applyProcessExecutionPolicy_index h'
  unfold applyProcessExecutionPolicy at h h'
  split at h
  next => cases h
  next =>
    split at h'
    next => cases h'
    next =>
      split at h
      next =>
        cases h; cases h'; exact hagree
      next threshold =>
        cases h
        cases h'
        split
        next => exact hagree
        next => exact portfolioRebalanceTrigger_agree threshold hs hs' hagree

end

section

variable (h : applyProcessExecutionAvailability s mask = .ok r)

include h

theorem applyProcessExecutionAvailability_index :
    r.index = s.index ∧ mask.index = s.index := by
  unfold applyProcessExecutionAvailability at h
  split at h
  next => cases h
  next hindex =>
    cases h; exact ⟨index_maskedRows (not_not.mp hindex), not_not.mp hindex⟩

theorem applyProcessExecutionAvailability_agree
    (h' : applyProcessExecutionAvailability s' mask' = .ok r') (hagree : AgreeTo d s s')
    (hmask : AgreeTo d mask mask') :
    AgreeTo d r r' := by
  obtain ⟨-, hindex⟩ := applyProcessExecutionAvailability_index h
  obtain ⟨-, hindex'⟩ := applyProcessExecutionAvailability_index h'
  unfold applyProcessExecutionAvailability at h h'
  rw [if_neg (not_not.mpr hindex)] at h
  rw [if_neg (not_not.mpr hindex')] at h'
  cases h; cases h'; exact maskedRows_agree hindex hindex' hagree hmask

end

end Agree

/-! ## §3 Exposure -/

/-- What pandas and the estimators of the process compute, as arbitrary functions. -/
structure ProcessNumerics (V : Type) (m : ℕ) where
  /-- `ema_smoothing_rate(PROCESS_SMOOTHING_HALFLIFE_DAYS)` -/
  smoothingRate : V
  /-- `float(np.sqrt(365.0))` -/
  sqrtYear : V
  /-- the last value of `ewm(halflife, min_periods).std()` -/
  ewmStd : ℕ → ℕ → List V → V
  /-- the median of `expanding().median()` -/
  median : List V → V
  /-- `long_only_growth_weights(estimation_adjusted_mean(train), ledoit_wolf_covariance(train))` -/
  growthWeights : Series (Fin (m + 1) → V) → Except ProcessExc (Fin (m + 1) → V)
  /-- `_paired_growth_lcb` -/
  pairedGrowthLcb : List V → V → ℕ → ℤ → V
  /-- `t - pd.DateOffset(months)` -/
  monthsBefore : ℤ → ℕ → ℤ

def pnlVolTargetEwmaHalflifeDays : ℕ := 20

structure ProcessRiskSizingSpec (V : Type) where
  annualVolatilityTarget : V
  ewmaHalflifeDays : ℕ
  minimumObservations : ℕ
  leverageCap : V
  halflife_pos : 1 ≤ ewmaHalflifeDays
  minimum_pos : 1 ≤ minimumObservations

section Exposure

variable {m : ℕ} (num : ProcessNumerics V m)

/-- The volatility forecast of a day from the returns before it: `ewm(…).std().shift(1)`. -/
def priorVolatility (halflife minimum : ℕ) (returns : Series V) : Series V :=
  (returns.expanding (num.ewmStd halflife minimum)).shift nan

def volatilityScaledExposure (cap : V) (returns : Series V) : Except ProcessExc (Series V) :=
  if lt 0 cap = false ∨ ¬ returns.index.Pairwise (· ≤ ·) ∨ (returns.any fun p => !isFinite p.2) then
    .error (.valueError .exposure)
  else
    let vol := priorVolatility num pnlVolTargetEwmaHalflifeDays pnlVolTargetEwmaHalflifeDays returns
    let median := vol.expanding num.median
    .ok ((median.beside vol).mapRows fun _ p => fillna (clip 0 cap (cap * p.1 / wherePositive p.2)))

def causalVolatilityScaledExposure (spec : ProcessRiskSizingSpec V) (returns : Series V) :
    Except ProcessExc (Series V) :=
  if ¬ returns.Sorted ∨ (returns.any fun p =>
    !isFinite p.2 || le p.2 (const (-1))) then .error (.valueError .exposure)
  else
    .ok ((priorVolatility num spec.ewmaHalflifeDays spec.minimumObservations returns).mapRows fun _ vol =>
      fillna (clip 0 spec.leverageCap (spec.annualVolatilityTarget / wherePositive (vol * num.sqrtYear))))

def processExposure (cap : V) : Option (ProcessRiskSizingSpec V) → Series V → Except ProcessExc (Series V)
  | none, returns => volatilityScaledExposure num cap returns
  | some spec, returns => causalVolatilityScaledExposure num spec returns

variable {num} {d : ℤ} {cap : V} {spec : Option (ProcessRiskSizingSpec V)} {s s' r r' : Series V}

variable (halflife minimum : ℕ)

theorem priorVolatility_index (s : Series V) : (priorVolatility num halflife minimum s).index = s.index := by
  rw [priorVolatility, Series.index_shift, Series.index_expanding]

theorem priorVolatility_agree (hs : s.Sorted) (hindex : s.index = s'.index) (hagree : AgreeTo (d - 1) s s') :
    AgreeTo d (priorVolatility num halflife minimum s) (priorVolatility num halflife minimum s') := by
  have hs' : s'.Sorted := by rw [Series.Sorted, ← hindex]; exact hs
  refine AgreeTo.shift_before _ (hagree.expanding hs hs' _) ?_ ?_
  · rw [Series.index_expanding, Series.index_expanding, hindex]
  · rw [Series.Sorted, Series.index_expanding]; exact hs

theorem volatilityScaledExposure_index (h : volatilityScaledExposure num cap s = .ok r) : r.index = s.index := by
  unfold volatilityScaledExposure at h
  split at h
  next => cases h
  next =>
    cases h
    rw [Series.index_mapRows, Series.index_beside, Series.index_expanding, priorVolatility_index]
    rw [Series.index_expanding]

theorem volatilityScaledExposure_agree (h : volatilityScaledExposure num cap s = .ok r)
    (h' : volatilityScaledExposure num cap s' = .ok r') (hs : s.Sorted) (hindex : s.index = s'.index)
    (hagree : AgreeTo (d - 1) s s') : AgreeTo d r r' := by
  have hvol : AgreeTo d (priorVolatility num _ _ s) (priorVolatility num _ _ s') :=
    priorVolatility_agree pnlVolTargetEwmaHalflifeDays pnlVolTargetEwmaHalflifeDays hs hindex hagree
  have hsorted : ∀ {s : Series V}, s.Sorted →
      (priorVolatility num pnlVolTargetEwmaHalflifeDays pnlVolTargetEwmaHalflifeDays s).Sorted := fun hs => by
    rw [Series.Sorted, priorVolatility_index]; exact hs
  have hs' : s'.Sorted := by rw [Series.Sorted, ← hindex]; exact hs
  unfold volatilityScaledExposure at h h'
  split at h
  next => cases h
  next =>
    split at h'
    next => cases h'
    next =>
      cases h
      cases h'
      have hmedian := hvol.expanding (hsorted hs) (hsorted hs') num.median
      exact (hmedian.beside hvol (Series.index_expanding _ _).symm (Series.index_expanding _ _).symm).mapRows
        fun _ _ _ _ => rfl

section

variable {spec : ProcessRiskSizingSpec V} (h : causalVolatilityScaledExposure num spec s = .ok r)

include h

theorem causalVolatilityScaledExposure_index : r.index = s.index := by
  unfold causalVolatilityScaledExposure at h
  split at h
  next => cases h
  next =>
    cases h
    rw [Series.index_mapRows, priorVolatility_index]

theorem causalVolatilityScaledExposure_agree
    (h' : causalVolatilityScaledExposure num spec s' = .ok r') (hs : s.Sorted)
    (hindex : s.index = s'.index) (hagree : AgreeTo (d - 1) s s') : AgreeTo d r r' := by
  have hvol : AgreeTo d (priorVolatility num _ _ s) (priorVolatility num _ _ s') :=
    priorVolatility_agree spec.ewmaHalflifeDays spec.minimumObservations hs hindex hagree
  unfold causalVolatilityScaledExposure at h h'
  split at h
  next => cases h
  next =>
    split at h'
    next => cases h'
    next =>
      cases h; cases h'; exact hvol.mapRows fun _ _ _ _ => rfl

end

theorem processExposure_index (h : processExposure num cap spec s = .ok r) : r.index = s.index := by
  cases spec with
  | none => exact volatilityScaledExposure_index h
  | some spec => exact causalVolatilityScaledExposure_index h

theorem processExposure_agree (h : processExposure num cap spec s = .ok r)
    (h' : processExposure num cap spec s' = .ok r')
    (hs : s.Sorted) (hindex : s.index = s'.index) (hagree : AgreeTo (d - 1) s s') : AgreeTo d r r' := by
  cases spec with
  | none => exact volatilityScaledExposure_agree h h' hs hindex hagree
  | some spec => exact causalVolatilityScaledExposure_agree h h' hs hindex hagree

end Exposure

/-! ## §4 The hourly ledger -/

section Ledger

/-- `opens.ffill(axis=0)`. -/
def ffillOpens (opens : Series (Row V n)) : Series (Row V n) :=
  opens.scan (fun prev row i => if isNan (row i) then prev i else row i) fun _ => nan

/-- `o2o`: each open against the one before it, zero in the first row. -/
def openReturns (opens : Series (Row V n)) : Series (Row V n) :=
  (((ffillOpens opens).mapRows fun _ row => some row).withPrev none).mapRows fun _ p =>
    match p with
    | (some prev, some row) => fun i => row i / prev i - 1
    | _ => zeroRow

/-- What the ledger knows of a bar: the weights held before and over it, the open return and the
funding rate. -/
abbrev LedgerBar (V : Type) (n : ℕ) : Type := ((Row V n × Row V n) × Row V n) × Row V n

/-- `_xs_composite_inputs`: weights are held two bars after they are formed. -/
def ledgerBars (weights opens funding : Series (Row V n)) : Series (LedgerBar V n) :=
  ((((weights.shift zeroRow).shift zeroRow).withPrev zeroRow).beside (openReturns opens)).beside funding

def LedgerBar.missingActive (bar : LedgerBar V n) : Bool :=
  (List.finRange n).any fun i => !isZero (bar.1.1.2 i) && (!isFinite (bar.1.2 i) || !isFinite (bar.2 i))

def LedgerBar.turnover (bar : LedgerBar V n) : V := rowSum fun i => abs (bar.1.1.2 i - bar.1.1.1 i)

/-- `_ledger_pnl` on one bar. -/
def LedgerBar.net (costRate : V) (bar : LedgerBar V n) : V :=
  (rowSum fun i => bar.1.1.2 i * finiteOrZero (bar.1.2 i)) - bar.turnover * costRate
    - rowSum fun i => bar.1.1.2 i * finiteOrZero (bar.2 i)

def initialEquity : V := const 10000

/-- `fee_rate + slippage_rate`, each half of the one-way cost. -/
def roundTripCostRate (oneWayBps : V) : V :=
  oneWayBps / const 2 * const (1 / 10000) + oneWayBps / const 2 * const (1 / 10000)

/-- `equity.pct_change().dropna()`. -/
def pctChange (equity : Series V) : Series V :=
  (((equity.mapRows fun _ e => some e).withPrev none).mapRows fun _ p =>
    match p with
    | (some prev, some e) => e / prev - 1
    | _ => nan).filter fun p => !isNan p.2

def ledgerEquity (costRate : V) (bars : Series (LedgerBar V n)) : Series V :=
  (bars.scan (fun e bar => e * (1 + bar.net costRate)) 1).mapRows fun _ e => initialEquity * e

/-- `mhs_ledger_pnl`: the net return and the turnover of each bar. -/
def mhsLedgerPnl (weights opens funding : Series (Row V n)) (oneWayBps : V) :
    Except ProcessExc (Series V × Series V) :=
  if opens.index ≠ weights.index ∨ funding.index ≠ weights.index then .error (.dataIntegrityError .ledgerIndex)
  else
    let bars := ledgerBars weights opens funding
    if bars.any fun p => p.2.missingActive then .error (.dataIntegrityError .ledgerCell)
    else
      let equity := ledgerEquity (roundTripCostRate oneWayBps) bars
      if equity.any fun p => !isFinite p.2 || le p.2 0 then .error (.dataIntegrityError .ledgerEquity)
      else .ok (pctChange equity, bars.mapRows fun _ bar => bar.turnover)

def rejectInvalidLedgerReturns (returns : Series V) : Except ProcessExc Unit :=
  if returns.any fun p => !isFinite p.2 || le p.2 (const (-1)) then .error (.dataIntegrityError .ledgerReturn)
  else .ok ()

def dayNs : ℤ := 86400000000000

/-- The return of a day: the product of its hourly returns. -/
def dailyReturn (net : Series V) (day : ℤ) : V :=
  if day % dayNs ≠ 0 then 0
  else
    match net.within day (day + dayNs) with
    | [] => 0
    | hours => fillna (prod (hours.map fun p => 1 + p.2) - 1)

/-- `((1.0 + net).resample("1D").prod() - 1.0).reindex(days).fillna(0.0)`. -/
def dailyReturns (net : Series V) (days : List ℤ) : Series V := days.map fun day => (day, dailyReturn net day)

/-- `frame.reindex(grid, method="ffill").fillna(0.0)`. -/
def hourlyWeights (weights : Series (Row V n)) (grid : List ℤ) : Series (Row V n) :=
  grid.map fun hour => (hour, fun i => fillna ((weights.asof hour).getD zeroRow i))

variable {d : ℤ} {w w' o o' f f' : Series (Row V n)} {bps : V} {net net' turnover turnover' : Series V}

theorem index_ffillOpens (o : Series (Row V n)) : (ffillOpens o).index = o.index := Series.index_scan _ _ _

theorem index_openReturns (o : Series (Row V n)) : (openReturns o).index = o.index := by
  rw [openReturns, Series.index_mapRows, Series.index_withPrev, Series.index_mapRows, index_ffillOpens]

theorem openReturns_agree (ho : o.Sorted) (ho' : o'.Sorted) (hagree : AgreeTo d o o') :
    AgreeTo d (openReturns o) (openReturns o') := by
  have hfill : AgreeTo d (ffillOpens o) (ffillOpens o') := hagree.scan ho ho' _ _
  have hsorted : ∀ {o : Series (Row V n)}, o.Sorted →
    Series.Sorted ((ffillOpens o).mapRows fun _ row => some row) :=
    fun ho => by
      rw [Series.Sorted, Series.index_mapRows, index_ffillOpens]; exact ho
  exact ((hfill.mapRows fun _ _ _ _ => rfl).withPrev (hsorted ho) (hsorted ho') none).mapRows fun _ _ _ _ => rfl

section Bars

variable (ho : o.index = w.index) (hf : f.index = w.index)

include ho hf

theorem index_ledgerBars : (ledgerBars w o f).index = w.index := by
  have hlagged : (((w.shift zeroRow).shift zeroRow).withPrev zeroRow).index = w.index := by
    rw [Series.index_withPrev, Series.index_shift, Series.index_shift]
  have hopens : (openReturns o).index = (((w.shift zeroRow).shift zeroRow).withPrev zeroRow).index := by
    rw [index_openReturns, hlagged, ho]
  rw [ledgerBars, Series.index_beside, Series.index_beside hopens, hlagged]
  rw [Series.index_beside hopens, hlagged, hf]

theorem ledgerBars_agree (ho' : o'.index = w'.index) (hf' : f'.index = w'.index) (hw : w.Sorted) (hw' : w'.Sorted)
    (hweights : AgreeTo d w w') (hopens : AgreeTo d o o') (hfunding : AgreeTo d f f') :
    AgreeTo d (ledgerBars w o f) (ledgerBars w' o' f') := by
  have hsorted : ∀ {w : Series (Row V n)}, w.Sorted → (w.shift zeroRow).Sorted := fun hw => by
    rw [Series.Sorted, Series.index_shift]; exact hw
  have hlagged := ((hweights.shift hw hw' zeroRow).shift (hsorted hw) (hsorted hw') zeroRow).withPrev
    (hsorted (hsorted hw)) (hsorted (hsorted hw')) zeroRow
  have hindex : ∀ {w o : Series (Row V n)}, o.index = w.index →
      (openReturns o).index = (((w.shift zeroRow).shift zeroRow).withPrev zeroRow).index := fun ho => by
    rw [index_openReturns, Series.index_withPrev, Series.index_shift, Series.index_shift, ho]
  have hbars : ∀ {w o f : Series (Row V n)}, o.index = w.index → f.index = w.index →
      f.index = ((((w.shift zeroRow).shift zeroRow).withPrev zeroRow).beside (openReturns o)).index
        := fun ho hf => by
    rw [Series.index_beside (hindex ho), Series.index_withPrev, Series.index_shift, Series.index_shift, hf]
  have hreturns := openReturns_agree (by rw [Series.Sorted, ho]; exact hw)
    (by rw [Series.Sorted, ho']; exact hw') hopens
  exact (hlagged.beside hreturns (hindex ho) (hindex ho')).beside hfunding (hbars ho hf) (hbars ho' hf')

end Bars

theorem pctChange_agree {e e' : Series V} (he : e.Sorted) (he' : e'.Sorted) (hagree : AgreeTo d e e') :
    AgreeTo d (pctChange e) (pctChange e') := by
  have hsorted : ∀ {e : Series V}, e.Sorted → Series.Sorted (e.mapRows fun _ x => some x) := fun he => by
    rw [Series.Sorted, Series.index_mapRows]; exact he
  exact (((hagree.mapRows fun _ _ _ _ => rfl).withPrev (hsorted he) (hsorted he') none).mapRows
    fun _ _ _ _ => rfl).filter _

theorem mhsLedgerPnl_agree (h : mhsLedgerPnl w o f bps = .ok (net, turnover))
    (h' : mhsLedgerPnl w' o' f' bps = .ok (net', turnover')) (hw : w.Sorted) (hw' : w'.Sorted)
    (hweights : AgreeTo d w w') (hopens : AgreeTo d o o') (hfunding : AgreeTo d f f') : AgreeTo d net net' := by
  unfold mhsLedgerPnl at h h'
  split at h
  next => cases h
  next hindex =>
    split at h'
    next => cases h'
    next hindex' =>
      rw [not_or, not_not, not_not] at hindex hindex'
      dsimp only at h h'
      split at h
      next => cases h
      next =>
        split at h'
        next => cases h'
        next =>
          split at h
          next => cases h
          next =>
            split at h'
            next => cases h'
            next =>
              cases h
              cases h'
              have hbars := ledgerBars_agree hindex.1 hindex.2 hindex'.1 hindex'.2 hw hw' hweights hopens hfunding
              have hsorted : ∀ {w o f : Series (Row V n)}, o.index = w.index → f.index = w.index → w.Sorted →
                  (ledgerBars w o f).Sorted := fun ho hf hw => by
                rw [Series.Sorted, index_ledgerBars ho hf]; exact hw
              have hb := hsorted hindex.1 hindex.2 hw
              have hb' := hsorted hindex'.1 hindex'.2 hw'
              have hequity : ∀ {bars : Series (LedgerBar V n)}, bars.Sorted →
                  (ledgerEquity (roundTripCostRate bps) bars).Sorted := fun hb => by
                rw [Series.Sorted, ledgerEquity, Series.index_mapRows, Series.index_scan]; exact hb
              exact pctChange_agree (hequity hb) (hequity hb') ((hbars.scan hb hb' _ _).mapRows fun _ _ _ _ => rfl)

theorem dailyReturn_agree {day : ℤ} (hnet : AgreeTo d net net') (hday : day + dayNs ≤ d) :
    dailyReturn net day = dailyReturn net' day := by
  rw [dailyReturn, dailyReturn, hnet.within hday]

theorem index_dailyReturns (net : Series V) (days : List ℤ) : (dailyReturns net days).index = days := by
  simp [dailyReturns, Series.index, Function.comp_def]

theorem dailyReturns_agree {days : List ℤ} (hnet : AgreeTo d net net')
    (hdays : ∀ day ∈ days, day < d → day + dayNs ≤ d) :
    AgreeTo (d - 1) (dailyReturns net days) (dailyReturns net' days) := by
  have hmap : ∀ net : Series V, dailyReturns net days
      = Series.mapRows (fun day _ => dailyReturn net day) (days.map fun day => (day, ())) := fun net => by
    rw [Series.mapRows, List.map_map]; rfl
  rw [hmap, hmap]
  refine (AgreeTo.refl _ _).mapRows fun day _ hmem hle => dailyReturn_agree hnet (hdays day ?_ (by omega))
  obtain ⟨t, ht, heq⟩ := List.mem_map.mp hmem; cases heq; exact ht

theorem index_hourlyWeights (w : Series (Row V n)) (grid : List ℤ) : (hourlyWeights w grid).index = grid := by
  simp [hourlyWeights, Series.index, Function.comp_def]

theorem hourlyWeights_agree (grid : List ℤ) (hagree : AgreeTo d w w') :
    AgreeTo d (hourlyWeights w grid) (hourlyWeights w' grid) := by
  have hmap : ∀ w : Series (Row V n), hourlyWeights w grid = Series.mapRows
      (fun hour _ i => fillna ((w.asof hour).getD zeroRow i)) (grid.map fun hour => (hour, ())) := fun w => by
    rw [Series.mapRows, List.map_map]; rfl
  rw [hmap, hmap]; exact (AgreeTo.refl _ _).mapRows fun hour _ _ hle => by rw [hagree.asof hle]

end Ledger

end CryptoPilot.Lab
