/- # UnitProxy — the daily return of the unit book, as the live history records it.

`unit_proxy_returns` of `strategy_book.py`.  A decision day is priced from its snapshot close to the
next one, pays the funding settled between them and is charged for the change of the weights; the
return is labelled two days after the decision. -/
import Mathlib.Algebra.BigOperators.Ring.Finset
import CryptoPilot.Lib.Float
import CryptoPilot.Live.SignalStep

namespace CryptoPilot.Live

open CryptoPilot.Lib List

/-! ## §1 Funding -/

/-- A funding series: the instants of its settlements and their rates, of which a NaN is none. -/
abbrev FundingSeries : Type := List (ℤ × Option ℚ)

/-- `FUNDING_DEFAULT_INTERVAL_MS` and `FUNDING_TIME_TOLERANCE_MS`. -/
def fundingDefaultIntervalMs : ℤ := 8 * 3600000
def fundingTimeToleranceMs : ℤ := 60000

def fundingIntervalSample : ℕ := 6

/-- `infer_funding_interval_ms`: the shortest of the last steps, in whole hours. -/
def inferFundingIntervalMs (timestampsMs : List ℤ) : ℤ :=
  let ts := (timestampsMs.dedup).insertionSort (· ≤ ·)
  let tail := ts.drop (ts.length - (fundingIntervalSample + 1))
  match (tail.zip tail.tail).map fun p => p.2 - p.1 with
  | [] => fundingDefaultIntervalMs
  | diff :: diffs => max 1 (roundHalfEven ((diffs.foldl min diff : ℤ) / 3600000)) * 3600000

def settledIn (series : FundingSeries) (start stop : ℤ) : FundingSeries :=
  series.filter fun p => decide (start < p.1 ∧ p.1 ≤ stop)

/-- `_funding_sum_in_window`; none is a NaN. -/
def fundingSumInWindow (series : FundingSeries) (start stop : ℤ) : Option ℚ :=
  ((settledIn series start stop).mapM Prod.snd).map List.sum

def fundingCoverageMs (series : FundingSeries) : Option ℤ × ℤ :=
  let millis := series.map fun p => p.1 / 1000000
  match millis with
  | [] => (none, fundingDefaultIntervalMs)
  | first :: rest => (some (rest.foldl max first), inferFundingIntervalMs millis)

/-! ## §2 One decision day -/

/-- The settlement price of a delivered symbol, as `SettlementEvidence` proves it. -/
structure ProxySettlement where
  price : ℚ
  deliveryTime : ℤ

/-- What `unit_proxy_returns` reads beside the book. -/
structure ProxyReads where
  panelLastBar : ℤ
  funding : String → FundingSeries
  settlements : String → Option ProxySettlement

def snapshotHourUtc : ℤ := 22

def snapshotAnchor (day : ℤ) : ℤ := day * signalDayNs + snapshotHourUtc * signalHourNs

/-- The release of a day's snapshot close, from which and up to which funding is paid. -/
def fundingInstant (day : ℤ) : ℤ := day * signalDayNs + (snapshotHourUtc + 1) * signalHourNs

def settledBefore (settlements : String → Option ProxySettlement) (instant : ℤ) (s : String) :
    Option ProxySettlement :=
  (settlements s).filter fun e => decide (e.deliveryTime < instant)

section Legs

variable (closes : ℤ → String → Option ℚ) (funding : String → FundingSeries)
  (settlements : String → Option ProxySettlement)

/-- `row_s` and `row_n`: the snapshot close, or the settlement price of a symbol delivered before
the anchor. -/
def pricedClose (day : ℤ) (s : String) : Option ℚ :=
  (closes day s).orElse fun _ => (settledBefore settlements (snapshotAnchor day) s).map ProxySettlement.price

/-- `stop_eff`: the end of the funding window, earlier for a symbol delivered inside it. -/
def fundingStop (day : ℤ) (s : String) : ℤ :=
  ((settledBefore settlements (fundingInstant (day + 1)) s).map ProxySettlement.deliveryTime).getD
    (fundingInstant (day + 1))

/-- The funding of a symbol over the day; nothing is settled after its delivery. -/
def fundingOf (day : ℤ) (s : String) : Option ℚ :=
  if fundingStop settlements day s ≤ fundingInstant day then some 0
  else fundingSumInWindow (funding s) (fundingInstant day) (fundingStop settlements day s)

/-- The return of a unit of a symbol from one snapshot close to the next. -/
def closeReturn (day : ℤ) (s : String) : ℚ :=
  (pricedClose closes settlements (day + 1) s).getD 0 / (pricedClose closes settlements day s).getD 0 - 1

end Legs

section Day

variable (book : LiveStrategyBook) (reads : ProxyReads) (costBps : ℚ)

def heldSymbols (day : ℤ) : List String := book.columns.filter fun s => decide (book.unitWeights day s ≠ 0)

abbrev seenClose (day : ℤ) (s : String) : Option ℚ := pricedClose book.snapshotCloses reads.settlements day s

/-- `price_ret`. -/
def priceReturn (day : ℤ) : ℚ :=
  ((heldSymbols book day).map fun s =>
    book.unitWeights day s * closeReturn book.snapshotCloses reads.settlements day s).sum

def fundingPay (day : ℤ) : ℚ :=
  ((heldSymbols book day).map fun s =>
    book.unitWeights day s * (fundingOf reads.funding reads.settlements day s).getD 0).sum

def turnover (previous : String → ℚ) (day : ℤ) : ℚ :=
  (book.columns.map fun s => |book.unitWeights day s - previous s|).sum * costBps / 10000

def proxyValue (previous : String → ℚ) (day : ℤ) : Except SignalExc ℚ :=
  if (heldSymbols book day).any fun s =>
      (seenClose book reads day s).isNone || (seenClose book reads (day + 1) s).isNone then
    .error (.dataIntegrityError (.proxyClose (day + 2)))
  else if (heldSymbols book day).any fun s => decide (seenClose book reads day s = some 0) then
    .error .zeroDivisionError
  else if (heldSymbols book day).any fun s => (fundingOf reads.funding reads.settlements day s).isNone then
    .error (.dataIntegrityError (.nonFiniteProxy (day + 2)))
  else .ok (priceReturn book reads day - fundingPay book reads day - turnover book costBps previous day)

def fundingObserved (day : ℤ) : Bool :=
  (heldSymbols book day).all fun s =>
    match fundingCoverageMs (reads.funding s) with
    | (none, _) => false
    | (some lastMs, intervalMs) =>
      decide (fundingStop reads.settlements day s ≤ fundingInstant day
        ∨ fundingStop reads.settlements day s / 1000000 - intervalMs - fundingTimeToleranceMs ≤ lastMs)

/-- A decision that a call can score: both closes in the book and observed, and its funding. -/
structure Scorable (day : ℤ) : Prop where
  row : day ∈ book.index
  next : day + 1 ∈ book.index
  closed : snapshotAnchor (day + 1) ≤ reads.panelLastBar
  funded : fundingObserved book reads day = true

/-! ## §3 A call -/

/-- The loop over the decisions, the weights before the next one at hand. -/
def scoreDecisions : (String → ℚ) → List ℤ → Except SignalExc UnitSeries
  | _, [] => .ok []
  | previous, day :: rest =>
    if day + 1 ∉ book.index ∨ reads.panelLastBar < snapshotAnchor (day + 1) then
      scoreDecisions (book.unitWeights day) rest
    else do
      let value ← proxyValue book reads costBps previous day
      if fundingObserved book reads day then do
        let scored ← scoreDecisions (book.unitWeights day) rest
        pure ((day + 2, value) :: scored)
      else pure []

def unitProxyReturns : Except SignalExc UnitSeries :=
  scoreDecisions book reads costBps (fun _ => 0) (book.index.insertionSort (· ≤ ·))

end Day

variable {book book' : LiveStrategyBook} {reads reads' : ProxyReads} {costBps : ℚ} {day label : ℤ} {v v' : ℚ}

theorem mem_scoreDecisions : ∀ {days : List ℤ} {previous : String → ℚ} {out : UnitSeries},
    (∀ day ∈ days, day ∈ book.index) →
    scoreDecisions book reads costBps previous days = .ok out → (label, v) ∈ out →
    ∃ pre day post, days = pre ++ day :: post ∧ label = day + 2 ∧ Scorable book reads day
      ∧ proxyValue book reads costBps ((pre.getLast?.map book.unitWeights).getD previous) day = .ok v
  | [], _, out, _, h, hmem => by
    cases h; cases hmem
  | day :: rest, previous, out, hrows, h, hmem => by
    obtain ⟨hrow, hrows⟩ := forall_mem_cons.mp hrows
    -- one decision later the weights at hand are those of `day`
    have hlater : ∀ {scored}, scoreDecisions book reads costBps (book.unitWeights day) rest = .ok scored →
        (label, v) ∈ scored → ∃ pre day' post, day :: rest = pre ++ day' :: post ∧ label = day' + 2
          ∧ Scorable book reads day'
          ∧ proxyValue book reads costBps ((pre.getLast?.map book.unitWeights).getD previous) day' = .ok v := by
      intro scored hscored hin
      obtain ⟨pre, day', post, hsplit, hlabel, hscorable, hvalue⟩ := mem_scoreDecisions hrows hscored hin
      refine ⟨day :: pre, day', post, by rw [hsplit, cons_append], hlabel, hscorable, ?_⟩
      rw [getLast?_cons]
      cases hlast : pre.getLast? <;> simpa [hlast] using hvalue
    unfold scoreDecisions at h
    split at h
    next => exact hlater h hmem
    next hclosed =>
      obtain ⟨value, hvalue, h⟩ := bind_eq_ok.mp h
      split at h
      next hfunded =>
        obtain ⟨scored, hscored, h⟩ := bind_eq_ok.mp h
        rw [pure_eq_ok] at h
        subst h
        rcases mem_cons.mp hmem with heq | hin
        · cases heq
          rw [not_or, not_not, not_lt] at hclosed
          exact ⟨[], day, rest, rfl, rfl, ⟨hrow, hclosed.1, hclosed.2, hfunded⟩, hvalue⟩
        · exact hlater hscored hin
      next =>
        rw [pure_eq_ok] at h
        subst h; cases hmem

def LiveStrategyBook.StartsAt (book : LiveStrategyBook) (start : ℤ) : Prop :=
  ∃ n : ℕ, book.index = (List.range n).map fun i : ℕ => start + (i : ℤ)

theorem mem_unitProxyReturns {start : ℤ} (hstart : book.StartsAt start) {out : UnitSeries}
    (h : unitProxyReturns book reads costBps = .ok out) (hmem : (label, v) ∈ out) :
    start ≤ label - 2 ∧ Scorable book reads (label - 2) ∧ proxyValue book reads costBps
      (if start < label - 2 then book.unitWeights (label - 3) else fun _ => 0) (label - 2) = .ok v := by
  obtain ⟨n, hindex⟩ := hstart
  have hsorted : book.index.insertionSort (· ≤ ·) = book.index := by
    refine List.Pairwise.insertionSort_eq ?_
    rw [hindex, pairwise_map]; exact pairwise_lt_range.imp fun h => by omega
  rw [unitProxyReturns, hsorted] at h
  obtain ⟨pre, day, post, hsplit, rfl, hscorable, hvalue⟩ := mem_scoreDecisions (fun _ h => h) h hmem
  rw [hindex] at hsplit
  have hlength := congrArg List.length hsplit
  rw [length_map, length_range, length_append, length_cons] at hlength
  have hday : day = start + (pre.length : ℤ) := by
    have hget := congrArg (fun days => days[pre.length]?) hsplit
    simp only [getElem?_map, getElem?_append_right le_rfl, Nat.sub_self, getElem?_cons_zero] at hget
    rw [getElem?_range (by omega), Option.map_some, Option.some_inj] at hget; exact hget.symm
  have hlast : pre.getLast? = if pre.length = 0 then none else some (day - 1) := by
    split
    next hzero => rw [length_eq_zero_iff.mp hzero]; rfl
    next hpos =>
      have hget := congrArg (fun days => days[pre.length - 1]?) hsplit
      simp only [getElem?_map] at hget
      rw [getElem?_append_left (by omega), getElem?_range (by omega), Option.map_some] at hget
      rw [getLast?_eq_getElem?, ← hget]
      congr 1; omega
  rw [hlast] at hvalue
  rw [show day + 2 - 2 = day by omega, show day + 2 - 3 = day - 1 by omega]
  refine ⟨by omega, hscorable, ?_⟩
  split at hvalue
  next hzero => rwa [if_neg (by omega)]
  next hpos => rwa [if_pos (by omega)]

/-! ## §4 The lake behind the books -/

/-- What the lake finally gives: weights and closes of every day, and all settlements. -/
structure Lake where
  symbols : List String
  weights : ℤ → String → ℚ
  closes : ℤ → String → Option ℚ
  funding : String → FundingSeries
  settlements : String → Option ProxySettlement
  symbols_nodup : symbols.Nodup
  weights_eq_zero : ∀ day s, s ∉ symbols → weights day s = 0

namespace Lake

variable (lake : Lake) (costBps : ℚ)

def gross (day : ℤ) : ℚ := (lake.symbols.map fun s => |lake.weights day s|).sum

def change (day : ℤ) : ℚ := (lake.symbols.map fun s => |lake.weights day s - lake.weights (day - 1) s|).sum

/-- The return of a decision day, charged for the change against the true previous decision. -/
def unitReturn (day : ℤ) : ℚ :=
  (lake.symbols.map fun s => lake.weights day s * closeReturn lake.closes lake.settlements day s).sum
    - (lake.symbols.map fun s => lake.weights day s * (fundingOf lake.funding lake.settlements day s).getD 0).sum
    - lake.change day * costBps / 10000

end Lake

def LiveStrategyBook.weightOf (book : LiveStrategyBook) (day : ℤ) (s : String) : ℚ :=
  if s ∈ book.columns then book.unitWeights day s else 0

def ShowsWeights (lake : Lake) (book : LiveStrategyBook) (day : ℤ) : Prop :=
  ∀ s, book.weightOf day s = lake.weights day s

/-- A call sees of a day what the lake finally gives: its weights and, for each symbol held, both
closes, the day's settlements and whether it is delivered. -/
structure Shows (lake : Lake) (book : LiveStrategyBook) (reads : ProxyReads) (day : ℤ) : Prop where
  weights : ShowsWeights lake book day
  closes : ∀ s, lake.weights day s ≠ 0 → book.snapshotCloses day s = lake.closes day s
    ∧ book.snapshotCloses (day + 1) s = lake.closes (day + 1) s
  delivered : ∀ s, lake.weights day s ≠ 0 →
    settledBefore reads.settlements (fundingInstant (day + 1)) s =
      settledBefore lake.settlements (fundingInstant (day + 1)) s
  funding : ∀ s, lake.weights day s ≠ 0 →
    settledIn (reads.funding s) (fundingInstant day) (fundingInstant (day + 1))
      = settledIn (lake.funding s) (fundingInstant day) (fundingInstant (day + 1))

theorem weightOf_of_notMem {s : String} (h : s ∉ book.columns) : book.weightOf day s = 0 := if_neg h

theorem weightOf_of_mem {s : String} (h : s ∈ book.columns) :
    book.weightOf day s = book.unitWeights day s := if_pos h

theorem sum_columns_congr {l l' : List String} (hl : l.Nodup) (hl' : l'.Nodup) {f g : String → ℚ}
    (hfg : ∀ s, f s = g s) (hf : ∀ s, s ∉ l → f s = 0) (hg : ∀ s, s ∉ l' → g s = 0) :
    (l.map f).sum = (l'.map g).sum := by
  rw [← sum_toFinset f hl, ← sum_toFinset g hl']
  calc ∑ s ∈ l.toFinset, f s
      = ∑ s ∈ l.toFinset ∪ l'.toFinset, f s :=
        Finset.sum_subset Finset.subset_union_left fun s _ hs => hf s (by simpa using hs)
    _ = ∑ s ∈ l.toFinset ∪ l'.toFinset, g s := Finset.sum_congr rfl fun s _ => hfg s
    _ = ∑ s ∈ l'.toFinset, g s :=
        (Finset.sum_subset Finset.subset_union_right fun s _ hs => hg s (by simpa using hs)).symm

theorem sum_held (g : String → ℚ) : ((heldSymbols book day).map fun s => book.unitWeights day s * g s).sum
    = (book.columns.map fun s => book.weightOf day s * g s).sum := by
  have hcolumns : ∀ l : List String, (∀ s ∈ l, s ∈ book.columns) →
      ((l.filter fun s => decide (book.unitWeights day s ≠ 0)).map fun s => book.unitWeights day s * g s).sum
        = (l.map fun s => book.weightOf day s * g s).sum := by
    intro l hl
    induction l with
    | nil => rfl
    | cons s rest ih =>
      obtain ⟨hs, hrest⟩ := forall_mem_cons.mp hl
      rw [map_cons, sum_cons, ← ih hrest, weightOf_of_mem hs]
      by_cases hzero : book.unitWeights day s = 0
      · simp [hzero]
      · simp [hzero]
  exact hcolumns book.columns fun s hs => hs

section Lake

variable {lake : Lake}

section

variable (h : ShowsWeights lake book day)

include h

theorem sum_held_eq {f g : String → ℚ} (hfg : ∀ s, lake.weights day s ≠ 0 → f s = g s) :
    ((heldSymbols book day).map fun s => book.unitWeights day s * f s).sum
      = (lake.symbols.map fun s => lake.weights day s * g s).sum := by
  rw [sum_held]
  refine sum_columns_congr book.columns_nodup lake.symbols_nodup (fun s => ?_) (fun s hs => ?_) fun s hs => ?_
  · rw [h s]
    by_cases hzero : lake.weights day s = 0
    · rw [hzero, zero_mul, zero_mul]
    · rw [hfg s hzero]
  · rw [weightOf_of_notMem hs, zero_mul]
  · rw [lake.weights_eq_zero day s hs, zero_mul]

theorem turnover_eq_change (hprevious : ShowsWeights lake book (day - 1)) :
    turnover book costBps (book.unitWeights (day - 1)) day = lake.change day * costBps / 10000 := by
  have hsum : (book.columns.map fun s => |book.unitWeights day s - book.unitWeights (day - 1) s|)
      = book.columns.map fun s => |book.weightOf day s - book.weightOf (day - 1) s| :=
    map_congr_left fun s hs => by rw [weightOf_of_mem hs, weightOf_of_mem hs]
  rw [turnover, hsum, Lake.change]
  rw [sum_columns_congr book.columns_nodup lake.symbols_nodup (fun s => by rw [h s, hprevious s])
    (fun s hs => by rw [weightOf_of_notMem hs, weightOf_of_notMem hs, sub_zero, abs_zero])
    (fun s hs => by rw [lake.weights_eq_zero _ s hs, lake.weights_eq_zero _ s hs, sub_zero, abs_zero])]

theorem turnover_eq_gross : turnover book costBps (fun _ => 0) day = lake.gross day * costBps / 10000 := by
  have hsum : (book.columns.map fun s => |book.unitWeights day s - 0|) = book.columns.map fun s =>
    |book.weightOf day s| :=
    map_congr_left fun s hs => by rw [weightOf_of_mem hs, sub_zero]
  rw [turnover, hsum, Lake.gross]
  rw [sum_columns_congr book.columns_nodup lake.symbols_nodup (fun s => by rw [h s])
    (fun s hs => by rw [weightOf_of_notMem hs, abs_zero])
    (fun s hs => by rw [lake.weights_eq_zero _ s hs, abs_zero])]

end

theorem settledBefore_of_le {settlements settlements' : String → Option ProxySettlement}
    {instant stop : ℤ} {s : String}
    (hle : instant ≤ stop) (h : settledBefore settlements stop s = settledBefore settlements' stop s) :
    settledBefore settlements instant s = settledBefore settlements' instant s := by
  have hfilter : ∀ e : Option ProxySettlement, (e.filter fun e => decide (e.deliveryTime < instant))
      = (e.filter fun e => decide (e.deliveryTime < stop)).filter fun e => decide (e.deliveryTime < instant) := by
    intro e
    cases e with
    | none => rfl
    | some e =>
      by_cases hlt : e.deliveryTime < instant
      · have hstop : e.deliveryTime < stop := by omega
        simp [Option.filter, hlt, hstop]
      · by_cases hstop : e.deliveryTime < stop <;> simp [Option.filter, hlt, hstop]
  unfold settledBefore at h ⊢
  rw [hfilter, h, ← hfilter]

theorem snapshotAnchor_lt (day : ℤ) : snapshotAnchor day < fundingInstant day := by
  unfold snapshotAnchor fundingInstant signalHourNs; omega

theorem fundingInstant_lt (day : ℤ) : fundingInstant day < fundingInstant (day + 1) := by
  unfold fundingInstant signalDayNs; omega

section Shown

variable (h : Shows lake book reads day)

include h

theorem pricedClose_eq {s : String} (hheld : lake.weights day s ≠ 0) :
    seenClose book reads day s = pricedClose lake.closes lake.settlements day s
      ∧ seenClose book reads (day + 1) s = pricedClose lake.closes lake.settlements (day + 1) s := by
  have hdelivered := h.delivered s hheld
  have hnow : snapshotAnchor day ≤ fundingInstant (day + 1) :=
    (snapshotAnchor_lt day).le.trans (fundingInstant_lt day).le
  unfold seenClose pricedClose
  rw [(h.closes s hheld).1, (h.closes s hheld).2, settledBefore_of_le hnow hdelivered,
    settledBefore_of_le (snapshotAnchor_lt (day + 1)).le hdelivered]
  exact ⟨rfl, rfl⟩

theorem fundingOf_eq {s : String} (hheld : lake.weights day s ≠ 0) :
    fundingOf reads.funding reads.settlements day s = fundingOf lake.funding lake.settlements day s := by
  have hstop : fundingStop reads.settlements day s = fundingStop lake.settlements day s := by
    rw [fundingStop, fundingStop, h.delivered s hheld]
  have hbound : fundingStop lake.settlements day s ≤ fundingInstant (day + 1) := by
    unfold fundingStop settledBefore
    cases lake.settlements s with
    | none => exact le_rfl
    | some e => by_cases hlt : e.deliveryTime < fundingInstant (day + 1) <;> simp [Option.filter, hlt, le_of_lt]
  -- the settlements up to an earlier stop are among those of the day
  have hsub : ∀ series : FundingSeries, settledIn series (fundingInstant day) (fundingStop lake.settlements day s)
      = (settledIn series (fundingInstant day) (fundingInstant (day + 1))).filter
          fun p => decide (p.1 ≤ fundingStop lake.settlements day s) := by
    intro series
    rw [settledIn, settledIn, filter_filter]
    refine filter_congr fun p _ => ?_
    rw [← Bool.decide_and, decide_eq_decide]; omega
  unfold fundingOf fundingSumInWindow
  rw [hstop, hsub, hsub, h.funding s hheld]

theorem proxyValue_eq {previous : String → ℚ} (hv : proxyValue book reads costBps previous day = .ok v)
    (hturnover : turnover book costBps previous day = lake.change day * costBps / 10000) :
    v = lake.unitReturn costBps day := by
  have hprice : priceReturn book reads day
      = (lake.symbols.map fun s => lake.weights day s * closeReturn lake.closes lake.settlements day s).sum :=
    sum_held_eq h.weights fun s hheld => by
      obtain ⟨hnow, hnext⟩ := pricedClose_eq h hheld
      unfold seenClose at hnow hnext
      rw [closeReturn, hnow, hnext, closeReturn]
  have hfunding : fundingPay book reads day
      = (lake.symbols.map fun s => lake.weights day s *
        (fundingOf lake.funding lake.settlements day s).getD 0).sum :=
    sum_held_eq h.weights fun s hheld => by rw [fundingOf_eq h hheld]
  unfold proxyValue at hv
  split at hv
  next => cases hv
  next =>
    split at hv
    next => cases hv
    next =>
      split at hv
      next => cases hv
      next =>
        rw [← Except.ok.inj hv, hprice, hfunding, hturnover]; rfl

end Shown

theorem label_eq_unitReturn {start : ℤ} (hstart : book.StartsAt start) (hearlier : start < label - 2)
    (h : Shows lake book reads (label - 2)) (hprevious : ShowsWeights lake book (label - 3)) {out : UnitSeries}
    (hout : unitProxyReturns book reads costBps = .ok out) (hmem : (label, v) ∈ out) :
    v = lake.unitReturn costBps (label - 2) := by
  obtain ⟨-, -, hvalue⟩ := mem_unitProxyReturns hstart hout hmem
  rw [if_pos hearlier] at hvalue
  refine proxyValue_eq h hvalue ?_
  have hday : label - 3 = label - 2 - 1 := by omega
  rw [hday] at hprevious ⊢; exact turnover_eq_change h.weights hprevious

end Lake

end CryptoPilot.Live
