/- # Contracts — the window contract of the execution replay.

A window is a run of completed bars with its market planes, its decisions and the settlement
evidence of its roster.  Instants are nanoseconds.  A plane is a function of the bar label and the
symbol: the source keeps arrays by grid position, and a position is used only to reach a label or to
cut a run of labels, so that `searchsorted` becomes `firstFrom` and a slice becomes a filter of the
grid.  A float that may be NaN is an `Option ℚ`; arithmetic is exact. -/
import Mathlib.Algebra.Order.Ring.Rat
import Mathlib.Algebra.Order.Floor.Ring
import Mathlib.Data.Rat.Floor
import Mathlib.Data.List.Sort
import Mathlib.Data.List.Nodup
import Mathlib.Tactic.Linarith
import CryptoPilot.Live.Errors

namespace CryptoPilot.Engine

open List

open CryptoPilot.Live (Exc)

def qtyEps : ℚ := 1 / 10 ^ 12

def minuteNs : ℤ := 60000000000

/-- `DELIST_FORCED_EXIT_LEAD`: 72 hours. -/
def delistForcedExitLeadNs : ℤ := 72 * 60 * minuteNs

/-- `EXIT_DEFERRAL_MAX_AGE`: 24 hours. -/
def exitDeferralMaxAgeNs : ℤ := 24 * 60 * minuteNs

inductive ExecutionBound where
  | strictProxy
  | touchProxy
  | immediateTaker
  | ladderedProxy
  | pegChaseProxy
  deriving DecidableEq, Repr

/-- `ExecutionSpec`, with the rules of its `__post_init__` that later arithmetic rests on. -/
structure ExecutionSpec where
  makerFeeBps : ℚ := 2
  takerFeeBps : ℚ := 5
  takerSlippageBps : ℚ := 3
  passiveTimeoutMinutes : ℕ := 30
  ladderTranches : ℕ := 4
  /-- `decision_anchor == "submit_bar"` -/
  submitAnchored : Bool := false
  pegPassiveFraction : ℚ := 3 / 5
  pegChaseBandBps : ℚ := 10
  pegChaseTranches : ℕ := 1
  /-- `liquidity_cost_model == "corwin_schultz"` -/
  corwinSchultz : Bool := false
  spreadEwmaAlpha : ℚ := 1 / 4
  nameDriftTrimMaxWeight : Option ℚ := none
  nameDriftTrimIntervalHours : ℕ := 4
  settlementPriceHaircutBps : ℚ := 0
  timeout_pos : 1 ≤ passiveTimeoutMinutes := by decide
  interval_pos : 1 ≤ nameDriftTrimIntervalHours := by decide
  tranches_pos : 1 ≤ ladderTranches := by decide
  pegTranches_pos : 1 ≤ pegChaseTranches := by decide

def proxySpec : ExecutionSpec := { pegTranches_pos := Nat.zero_lt_one }

/-- `timeout_ns_delta`. -/
def ExecutionSpec.timeoutNs (spec : ExecutionSpec) : ℤ := spec.passiveTimeoutMinutes * minuteNs

theorem ExecutionSpec.timeoutNs_pos (spec : ExecutionSpec) : 0 < spec.timeoutNs := by
  have h := spec.timeout_pos
  rw [timeoutNs, minuteNs]; omega

def ExecutionSpec.oneWayTakerBps (spec : ExecutionSpec) : ℚ := spec.takerFeeBps + spec.takerSlippageBps

/-- `price_source` of a settlement: identity prices, or a proxy that is subject to the haircut. -/
inductive PriceSource where
  | flat1hKlines
  | twap30Proxy
  | curated
  | venue
  deriving DecidableEq, Repr

/-- `InstrumentSettlementEvent`, with the rules of `_require_settlement_timing` and of the price and
fee. -/
structure SettlementEvent where
  eventId : String
  symbol : String
  effectiveAt : ℤ
  availableAt : ℤ
  settlementPrice : ℚ
  feeBps : ℚ
  sourceDigest : String
  announcedAt : Option ℤ := none
  lastTradeAt : Option ℤ := none
  priceSource : PriceSource := .venue
  announced_le : announcedAt.getD effectiveAt ≤ lastTradeAt.getD effectiveAt
  lastTrade_le : lastTradeAt.getD effectiveAt ≤ effectiveAt
  price_pos : 0 < settlementPrice
  fee_nonneg : 0 ≤ feeBps
  deriving DecidableEq

namespace SettlementEvent

variable (event : SettlementEvent)

def announced : ℤ := event.announcedAt.getD event.effectiveAt

def lastTrade : ℤ := event.lastTradeAt.getD event.effectiveAt

def due : ℤ := max event.effectiveAt event.availableAt

theorem lastTrade_le_due : event.lastTrade ≤ event.due :=
  event.lastTrade_le.trans (le_max_left _ _)

end SettlementEvent

/-- A decision row: its label, the instant of its signal, and a target for each symbol (`none` is
NaN, a hold). -/
structure Decision where
  label : ℤ
  signal : ℤ
  target : String → Option ℚ

/-- `ExecutionReplayWindow`. -/
structure Window where
  columns : List String
  /-- the roster -/
  symbols : List String
  /-- `minute_grid` -/
  grid : List ℤ
  high : ℤ → String → Option ℚ
  low : ℤ → String → Option ℚ
  close : ℤ → String → Option ℚ
  /-- `marks`, or the closes where the window has none -/
  mark : ℤ → String → Option ℚ
  fundingRate : ℤ → String → ℚ
  fundingKnown : ℤ → String → Bool
  quoteVolume : ℤ → String → Option ℚ
  /-- `bar_available_at`; `none` when it is not explicit -/
  availableAt : Option (ℤ → ℤ)
  /-- the halts `[start, end)` -/
  venueHalts : List (ℤ × ℤ)
  decisions : List Decision
  settlementEvents : List SettlementEvent
  logicalPartition : Option (ℕ × ℕ)
  grid_sorted : grid.Pairwise (· < ·)
  symbols_nodup : symbols.Nodup
  symbols_sub : ∀ s ∈ symbols, s ∈ columns
  columns_nodup : columns.Nodup

namespace Window

variable (w : Window)

/-- `grid_ns[0]`. -/
def first : ℤ := w.grid.headD 0

/-- `grid_ns[-1]`. -/
def last : ℤ := w.grid.getLastD 0

/-- `bar_ns`: the width of a bar. -/
def barNs : ℤ := w.grid.tail.headD 0 - w.grid.headD 0

def avail (b : ℤ) : ℤ :=
  match w.availableAt with
  | none => b
  | some stamp => stamp b

/-- `mark_avail`: one bar behind the availability of the bar. -/
def markAvail (b : ℤ) : ℤ :=
  w.avail b - (w.avail (w.grid.tail.headD 0) - w.avail (w.grid.headD 0))

/-- `_halted_rows`. -/
def halted (b : ℤ) : Bool := w.venueHalts.any (fun h => decide (h.1 ≤ b ∧ b < h.2))

/-- `mark_valid`: a finite strictly positive mark. -/
def validMark (b : ℤ) (s : String) : Option ℚ := (w.mark b s).filter (fun m => decide (0 < m))

/-- The first bar at or after an instant: the label at `searchsorted(grid, t, "left")`. -/
def firstFrom (t : ℤ) : Option ℤ := (w.grid.filter (fun b => decide (t ≤ b))).head?

end Window

inductive FillReason where
  | passiveFill
  | timeoutTaker
  | delistSettlement
  | driftTrim
  deriving DecidableEq, Repr

structure Fill where
  bar : ℤ
  symbol : String
  quantity : ℚ
  price : ℚ
  feeBps : ℚ
  postUnits : ℚ
  reason : FillReason
  preTradeEquity : ℚ
  deriving DecidableEq

def Fill.fee (f : Fill) : ℚ := f.feeBps / 10000 * |f.quantity| * f.price

def Fill.flow (f : Fill) : ℚ := -(f.quantity * f.price + f.fee)

section Grid

variable {w : Window}

theorem Window.firstFrom_mem {t b : ℤ} (h : w.firstFrom t = some b) : b ∈ w.grid ∧ t ≤ b := by
  have hmem := mem_of_mem_head? (Option.mem_def.mpr h); simpa using hmem

theorem Window.firstFrom_le {t b c : ℤ} (h : w.firstFrom t = some b) (hc : c ∈ w.grid) (htc : t ≤ c) : b ≤ c := by
  have hsorted : (w.grid.filter (fun b => decide (t ≤ b))).Pairwise (· < ·) := w.grid_sorted.filter _
  have hmem : c ∈ w.grid.filter (fun b => decide (t ≤ b)) := by simp [hc, htc]
  rw [Window.firstFrom] at h
  cases hl : w.grid.filter (fun b => decide (t ≤ b)) with
  | nil => simp [hl] at hmem
  | cons x rest =>
    rw [hl] at h hsorted hmem
    rw [head?_cons, Option.some.injEq] at h
    subst h
    rcases mem_cons.mp hmem with rfl | hrest
    · exact le_refl _
    · exact (rel_of_pairwise_cons hsorted hrest).le

theorem Window.firstFrom_eq_none {t : ℤ} (h : w.firstFrom t = none) : ∀ b ∈ w.grid, b < t := by
  intro b hb
  rw [Window.firstFrom, head?_eq_none_iff, filter_eq_nil_iff] at h
  have := h b hb; simpa using this

theorem Window.mem_le_last {b : ℤ} (hb : b ∈ w.grid) : b ≤ w.last := by
  rw [Window.last]
  have hne : w.grid ≠ [] := ne_nil_of_mem hb
  rw [getLastD_eq_getLast?, getLast?_eq_some_getLast hne, Option.getD_some]
  have hsorted := w.grid_sorted
  rw [← dropLast_append_getLast hne, pairwise_append] at hsorted
  rw [← dropLast_append_getLast hne, mem_append, mem_singleton] at hb
  rcases hb with hb | hb
  · exact (hsorted.2.2 b hb _ (mem_singleton_self _)).le
  · rw [hb]

end Grid

end CryptoPilot.Engine
