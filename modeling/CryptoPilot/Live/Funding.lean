/- # Funding — simulated funding: what a held position pays at each funding epoch.

A funding series and a series of trade closes are lists of instants and readings; a reading that is
no finite number is `none`.  Each symbol has a watermark, the last epoch accounted for.
`accrueSymbol` is one turn of `accrue_funding_by_watermark`: it walks the epochs above the watermark
in order, stops at the first one it cannot price, and then either keeps the symbol's watermark,
keeps it and reports a lag, or drops it. -/
import Mathlib.Data.List.Dedup
import CryptoPilot.Lib.Calendar
import CryptoPilot.Live.Ledger

namespace CryptoPilot.Live

open CryptoPilot.Lib List Except

/-! ## Reading the position history -/

def PositionSnapshot.held (snap : PositionSnapshot) (symbol : String) : ℚ := snap.positions.get symbol 0

/-- `position_at`: the last snapshot, from the front, that is in force strictly before `at`. -/
def positionAt (history : List PositionSnapshot) (symbol : String) (instant : ℚ) : Except Exc ℚ :=
  match (history.takeWhile fun snap => decide (snap.effectiveFrom < instant)).getLast? with
  | none => .error .dataIntegrityError
  | some snap => .ok (snap.held symbol)

/-- The walk of `_held_since`, newest snapshot first. -/
def heldSinceFrom (symbol : String) (start : ℚ) : List PositionSnapshot → ℚ
  | [] => start
  | snap :: rest =>
    if snap.held symbol = 0 then start else heldSinceFrom symbol snap.effectiveFrom rest

def heldSince (history : List PositionSnapshot) (symbol : String) : Option ℚ :=
  match history.reverse with
  | [] => none
  | last :: earlier =>
    if last.held symbol = 0 then none else some (heldSinceFrom symbol last.effectiveFrom earlier)

/-- The walk of `_released_at`, newest snapshot first; `after` is the snapshot just passed. -/
def releasedFrom (symbol : String) (after : Option ℚ) : List PositionSnapshot → Option ℚ
  | [] => none
  | snap :: rest =>
    if snap.held symbol ≠ 0 then after else releasedFrom symbol (some snap.effectiveFrom) rest

/-- `_released_at`: when the last holding of a symbol ended; `none` while held, or if never held. -/
def releasedAt (history : List PositionSnapshot) (symbol : String) : Option ℚ :=
  releasedFrom symbol none history.reverse

/-! ## Accrual -/

/-- `FundingEvent`: one accrued settlement. -/
structure FundingEvent where
  symbol : String
  epoch : ℚ
  rate : ℚ
  quantity : ℚ
  price : ℚ
  amount : ℚ
  priceSource : String := "trade_close_1h"
  deriving DecidableEq

/-- Instants with their readings; `none` is a reading that is no finite number. -/
abbrev Series : Type := List (ℚ × Option ℚ)

/-- `Series.sort_index()`. -/
def sortIndex (series : Series) : Series := series.insertionSort (fun a b => a.1 ≤ b.1)

/-- The start of the hour of an instant: `epoch.floor("h")`. -/
def floorHour (t : ℚ) : ℚ := (⌊t / 3600⌋ : ℤ) * 3600

/-- A usable trade close for the bar of an epoch: present, finite and positive. -/
def closeAt (closes : Option Series) (epoch : ℚ) : Option ℚ :=
  match closes with
  | none => none
  | some series =>
    match series.lookup (floorHour epoch) with
    | some (some px) => if px ≤ 0 then none else some px
    | _ => none

/-- The walk over the epochs of a window. -/
def accrueWindow (history : List PositionSnapshot) (symbol : String) (closes : Option Series) :
    ℚ → Series → Except Exc (ℚ × List FundingEvent)
  | watermark, [] => .ok (watermark, [])
  | watermark, (epoch, rate) :: rest => do
    let qty ← positionAt history symbol epoch
    if qty ≠ 0 then
      match rate, closeAt closes epoch with
      | some rate, some px => do
        let (reached, events) ← accrueWindow history symbol closes epoch rest
        .ok (reached,
          { symbol := symbol, epoch := epoch, rate := rate, quantity := qty, price := px,
            amount := -(rate * qty * px) } :: events)
      | _, _ => .ok (watermark, [])
    else accrueWindow history symbol closes epoch rest

/-- The middle of a sorted list, the mean of the two middle elements when their number is even. -/
def median (sorted : List ℚ) : ℚ :=
  let n := sorted.length
  if n % 2 = 1 then sorted.getD (n / 2) 0
  else (sorted.getD (n / 2 - 1) 0 + sorted.getD (n / 2) 0) / 2

/-- Python's `round`: ties to even. -/
def roundHalfEven (x : ℚ) : ℤ :=
  let low := ⌊x⌋
  if x - low < 1 / 2 then low
  else if 1 / 2 < x - low then low + 1
  else if low % 2 = 0 then low else low + 1

/-- `_funding_interval`: eight hours without evidence, else the median step of the last four epochs
in hours. -/
def fundingInterval : Option Series → ℚ
  | none => 8 * 3600
  | some series =>
    if series.length < 2 then 8 * 3600
    else
      let epochs := (sortIndex series).map Prod.fst
      let lastFour := epochs.drop (epochs.length - 4)
      let diffs := (zipWith (fun a b => b - a) lastFour lastFour.tail).insertionSort (· ≤ ·)
      max 1 (roundHalfEven (median diffs / 3600)) * 3600

structure SymbolAccrual where
  symbol : String
  watermark : ℚ
  events : List FundingEvent
  interval : ℚ
  /-- the watermark is kept -/
  kept : Bool
  lag : Option ℚ

structure AccrualInput where
  history : List PositionSnapshot
  watermarks : Dict ℚ
  funding : Dict Series
  closes : Dict Series
  now : ℚ
  closedAt : Dict ℚ

/-- `history[-1].positions if history else {}`. -/
def currentPositions (history : List PositionSnapshot) : Dict ℚ :=
  (history.getLast?.map PositionSnapshot.positions).getD ∅

/-- `watermarks.get(symbol) or _held_since(history, symbol)`. -/
def AccrualInput.watermarkOf (a : AccrualInput) (symbol : String) : Option ℚ :=
  (a.watermarks.lookup symbol).or (heldSince a.history symbol)

/-- `min(now_ts, closed[symbol]) if symbol in closed else now_ts`. -/
def AccrualInput.upper (a : AccrualInput) (symbol : String) : ℚ :=
  match a.closedAt.lookup symbol with
  | some closed => min a.now closed
  | none => a.now

/-- The epochs of a series in `(watermark, upper]`, in order. -/
def accrualWindow (watermark upper : ℚ) (series : Series) : Series :=
  sortIndex (series.filter fun p => decide (watermark < p.1 ∧ p.1 ≤ upper))

def AccrualInput.window (a : AccrualInput) (symbol : String) (watermark : ℚ) : Series :=
  match a.funding.lookup symbol with
  | none => []
  | some series => accrualWindow watermark (a.upper symbol) series

/-- The symbol was released after the watermark `reached`. -/
def unreachedRelease (history : List PositionSnapshot) (symbol : String) (reached : ℚ) : Bool :=
  match releasedAt history symbol with
  | some released => decide (reached < released)
  | none => false

/-- One turn of the loop of `accrue_funding_by_watermark`. -/
def accrueSymbol (a : AccrualInput) (symbol : String) : Except Exc (Option SymbolAccrual) :=
  match a.watermarkOf symbol with
  | none => .ok none
  | some watermark => do
    let (reached, events) ←
      accrueWindow a.history symbol (a.closes.lookup symbol) watermark (a.window symbol watermark)
    let held := ((currentPositions a.history).lookup symbol).isSome
    let closed := (a.closedAt.lookup symbol).isSome
    let unreached := unreachedRelease a.history symbol reached
    .ok <| some {
      symbol := symbol, watermark := reached, events := events,
      interval := fundingInterval (a.funding.lookup symbol),
      kept := held || closed || unreached,
      lag := if !closed && (held || unreached) then some (a.now - reached) else none }

structure FundingAccrual where
  cashDelta : ℚ
  watermarks : Dict ℚ
  lagBySymbol : Dict ℚ
  intervalBySymbol : Dict ℚ
  events : List FundingEvent

/-- `sorted(set(watermarks) | set(current))`. -/
def AccrualInput.symbols (a : AccrualInput) : List String :=
  (a.watermarks.keys ++ (currentPositions a.history).keys).dedup.insertionSort (fun x y => x ≤ y)

def FundingAccrual.ofSymbols (turns : List SymbolAccrual) : FundingAccrual where
  cashDelta := ((turns.flatMap SymbolAccrual.events).map FundingEvent.amount).sum
  watermarks := Dict.ofPairs ((turns.filter SymbolAccrual.kept).map fun t => (t.symbol, t.watermark))
  lagBySymbol := Dict.ofPairs (turns.filterMap fun t => t.lag.map fun lag => (t.symbol, lag))
  intervalBySymbol := Dict.ofPairs (turns.map fun t => (t.symbol, t.interval))
  events := turns.flatMap SymbolAccrual.events

def accrueFundingByWatermark (a : AccrualInput) : Except Exc FundingAccrual := do
  let turns ← a.symbols.mapM (accrueSymbol a)
  .ok (FundingAccrual.ofSymbols (turns.filterMap id))

def paperFundingLagHalt : ℚ := 24 * 3600

def paperFundingLagGrace : ℚ := 3600

/-- `_enforce_funding_lag`: raises on a lag over the halt bound; else the symbols it alerts on. -/
def enforceFundingLag (accrual : FundingAccrual) : Except Exc (List String) :=
  if accrual.lagBySymbol.entries.any fun e => decide (paperFundingLagHalt < e.2) then
    .error .dataIntegrityError
  else .ok <| (accrual.lagBySymbol.entries.filter fun e =>
    decide (2 * accrual.intervalBySymbol.get e.1 0 + paperFundingLagGrace < e.2)).map Sigma.fst

/-! ## What an accrual does -/

variable {a : AccrualInput} {symbol : String} {accrual : FundingAccrual}

theorem AccrualInput.mem_window {watermark : ℚ} {p : ℚ × Option ℚ} (h : p ∈ a.window symbol watermark) :
    watermark < p.1 ∧ p.1 ≤ a.upper symbol := by
  unfold AccrualInput.window at h
  split at h
  · cases h
  · rw [accrualWindow, sortIndex, mem_insertionSort, mem_filter] at h; exact of_decide_eq_true h.2

theorem AccrualInput.upper_le_now (a : AccrualInput) (symbol : String) : a.upper symbol ≤ a.now := by
  unfold AccrualInput.upper
  split
  · exact min_le_left _ _
  · exact le_rfl

theorem AccrualInput.window_sorted (a : AccrualInput) (symbol : String) (watermark : ℚ) :
    (a.window symbol watermark).Pairwise fun p q => p.1 ≤ q.1 := by
  unfold AccrualInput.window
  split
  · exact List.Pairwise.nil
  · exact pairwise_insertionSort (fun p q : ℚ × Option ℚ => p.1 ≤ q.1) _

/-- **The walk over a window**: the watermark rises to an epoch of the window or stays; each event
is of the symbol, at an epoch of the window that was reached. -/
theorem accrueWindow_eq_ok {history : List PositionSnapshot} {closes : Option Series} {window : Series} :
    ∀ {watermark reached : ℚ} {events : List FundingEvent},
      (∀ p ∈ window, watermark ≤ p.1) → window.Pairwise (fun p q => p.1 ≤ q.1) →
      accrueWindow history symbol closes watermark window = .ok (reached, events) →
      watermark ≤ reached ∧ (reached = watermark ∨ reached ∈ window.map Prod.fst) ∧
        ∀ ev ∈ events, ev.symbol = symbol ∧ ev.epoch ∈ window.map Prod.fst ∧ ev.epoch ≤ reached := by
  induction window with
  | nil =>
    intro watermark reached events _ _ h
    obtain ⟨rfl, rfl⟩ := h; simp
  | cons p rest ih =>
    intro watermark reached events hge hsorted h
    obtain ⟨epoch, rate⟩ := p
    have hepoch : watermark ≤ epoch := hge (epoch, rate) mem_cons_self
    obtain ⟨hhead, htail⟩ := pairwise_cons.mp hsorted
    -- what the rest of the walk gives, once it starts from this epoch
    have hnext : ∀ {reached' : ℚ} {events' : List FundingEvent},
        accrueWindow history symbol closes epoch rest = .ok (reached', events') →
        epoch ≤ reached' ∧ (reached' = watermark ∨ reached' ∈ ((epoch, rate) :: rest).map Prod.fst) ∧
          ∀ ev ∈ events', ev.symbol = symbol ∧ ev.epoch ∈ ((epoch, rate) :: rest).map Prod.fst ∧
            ev.epoch ≤ reached' := by
      intro reached' events' h'
      obtain ⟨hle, hin, hev⟩ := ih (fun q hq => hhead q hq) htail h'
      refine ⟨hle, ?_, fun ev hmem => ?_⟩
      · rcases hin with rfl | hin
        · exact Or.inr mem_cons_self
        · exact Or.inr (mem_cons_of_mem _ hin)
      · obtain ⟨hs, he, hle'⟩ := hev ev hmem; exact ⟨hs, mem_cons_of_mem _ he, hle'⟩
    rw [accrueWindow, bind_eq_ok] at h
    obtain ⟨qty, -, h⟩ := h
    split_ifs at h with hqty
    · cases rate with
      | none =>
        obtain ⟨rfl, rfl⟩ := h; simp
      | some rate =>
        cases hclose : closeAt closes epoch with
        | none =>
          simp only [hclose, ok.injEq, Prod.mk.injEq] at h
          obtain ⟨rfl, rfl⟩ := h; simp
        | some px =>
          simp only [hclose] at h
          obtain ⟨⟨reached', events'⟩, hrest, h⟩ := bind_eq_ok.mp h
          obtain ⟨rfl, rfl⟩ := h
          obtain ⟨hle, hin, hev⟩ := hnext hrest
          refine ⟨hepoch.trans hle, hin, fun ev hmem => ?_⟩
          rcases mem_cons.mp hmem with rfl | hmem
          · exact ⟨rfl, mem_cons_self, hle⟩
          · exact hev ev hmem
    · obtain ⟨hle, hin, hev⟩ := hnext h; exact ⟨hepoch.trans hle, hin, hev⟩

/-- **One turn of the loop.** -/
theorem accrueSymbol_eq_ok {t : SymbolAccrual} (h : accrueSymbol a symbol = .ok (some t)) :
    t.symbol = symbol ∧ ∃ watermark, a.watermarkOf symbol = some watermark ∧
      accrueWindow a.history symbol (a.closes.lookup symbol) watermark (a.window symbol watermark)
        = .ok (t.watermark, t.events) ∧
      t.kept = (((currentPositions a.history).lookup symbol).isSome ||
        (a.closedAt.lookup symbol).isSome || unreachedRelease a.history symbol t.watermark) ∧
      t.lag = if !(a.closedAt.lookup symbol).isSome &&
          (((currentPositions a.history).lookup symbol).isSome ||
            unreachedRelease a.history symbol t.watermark)
        then some (a.now - t.watermark) else none := by
  unfold accrueSymbol at h
  cases hw : a.watermarkOf symbol with
  | none =>
    rw [hw] at h; simp at h
  | some watermark =>
    rw [hw] at h
    obtain ⟨⟨reached, events⟩, hwalk, h⟩ := bind_eq_ok.mp h
    simp only [ok.injEq, Option.some.injEq] at h
    subst h; exact ⟨rfl, watermark, rfl, hwalk, rfl, rfl⟩

section

variable (h : accrueFundingByWatermark a = .ok accrual)

include h

theorem accrueFundingByWatermark_eq_ok :
    ∃ turns : List SymbolAccrual, accrual = FundingAccrual.ofSymbols turns ∧
      (turns.map SymbolAccrual.symbol).Nodup ∧
      (∀ t ∈ turns, t.symbol ∈ a.symbols ∧ accrueSymbol a t.symbol = .ok (some t)) ∧
      ∀ symbol ∈ a.symbols, (accrueSymbol a symbol = .ok none) ∨
        ∃ t ∈ turns, accrueSymbol a symbol = .ok (some t) := by
  obtain ⟨results, hresults, h⟩ := bind_eq_ok.mp h
  have hall := forall₂_of_mapM_eq_ok hresults
  refine ⟨results.filterMap id, (ok.inj h).symm, ?_, ?_, ?_⟩
  · have hsub : ∀ {symbols : List String} {results : List (Option SymbolAccrual)},
        List.Forall₂ (fun s r => accrueSymbol a s = .ok r) symbols results →
        ((results.filterMap id).map SymbolAccrual.symbol).Sublist symbols := by
      intro symbols results hf
      induction hf with
      | nil => exact List.Sublist.refl _
      | @cons s r symbols results hsr _ ih =>
        cases r with
        | none => exact List.Sublist.cons _ (by simpa using ih)
        | some t =>
          have ht := (accrueSymbol_eq_ok hsr).1; simpa [ht] using ih
    have hnodup : a.symbols.Nodup := (perm_insertionSort _ _).nodup_iff.mpr (nodup_dedup _)
    exact (hsub hall).nodup hnodup
  · intro t ht
    obtain ⟨r, hr, hrt⟩ := mem_filterMap.mp ht
    obtain rfl : r = some t := hrt
    obtain ⟨s, hs, hst⟩ := mem_of_mapM_eq_ok hresults (some t) hr
    rw [(accrueSymbol_eq_ok hst).1]; exact ⟨hs, hst⟩
  · intro symbol hsymbol
    obtain ⟨r, hr, hsr⟩ := forall₂_exists_right hall hsymbol
    cases r with
    | none => exact Or.inl hsr
    | some t => exact Or.inr ⟨t, mem_filterMap.mpr ⟨some t, hr, rfl⟩, hsr⟩

theorem lookup_watermarks {w : ℚ} (hw : accrual.watermarks.lookup symbol = some w) :
    ∃ t, accrueSymbol a symbol = .ok (some t) ∧ t.watermark = w := by
  obtain ⟨turns, rfl, hnodup, hturns, -⟩ := accrueFundingByWatermark_eq_ok h
  have hkeys : (((turns.filter SymbolAccrual.kept).map fun t => (t.symbol, t.watermark)).map
      Prod.fst).Nodup := by
    rw [map_map]; exact hnodup.sublist (filter_sublist.map _)
  have hmem := (Dict.lookup_ofPairs _ _ hkeys).mp hw
  obtain ⟨t, ht, hpair⟩ := mem_map.mp hmem
  obtain ⟨rfl, rfl⟩ := Prod.mk.inj hpair; exact ⟨t, (hturns t (mem_filter.mp ht).1).2, rfl⟩

theorem lookup_lagBySymbol {lag : ℚ} (hlag : accrual.lagBySymbol.lookup symbol = some lag) :
    ∃ t, accrueSymbol a symbol = .ok (some t) ∧ t.lag = some lag := by
  obtain ⟨turns, rfl, hnodup, hturns, -⟩ := accrueFundingByWatermark_eq_ok h
  have hkeys : ((turns.filterMap fun t => t.lag.map fun lag => (t.symbol, lag)).map Prod.fst).Nodup := by
    have hsub : ∀ turns : List SymbolAccrual,
        ((turns.filterMap fun t => t.lag.map fun lag => (t.symbol, lag)).map Prod.fst).Sublist
          (turns.map SymbolAccrual.symbol) := by
      intro turns
      induction turns with
      | nil => exact List.Sublist.refl _
      | cons t rest ih =>
        cases hl : t.lag with
        | none => simpa [filterMap_cons, hl] using ih.cons t.symbol
        | some l => simpa [filterMap_cons, hl] using ih
    exact hnodup.sublist (hsub turns)
  have hmem := (Dict.lookup_ofPairs _ _ hkeys).mp hlag
  obtain ⟨t, ht, hpair⟩ := mem_filterMap.mp hmem
  obtain ⟨l, hl, hpair⟩ := Option.map_eq_some_iff.mp hpair
  obtain ⟨rfl, rfl⟩ := Prod.mk.inj hpair; exact ⟨t, (hturns t ht).2, hl⟩

end

theorem accrueSymbol_watermark_le {t : SymbolAccrual} (h : accrueSymbol a symbol = .ok (some t)) :
    ∃ w, a.watermarkOf symbol = some w ∧ w ≤ t.watermark ∧ ∀ ev ∈ t.events, ev.epoch ≤ t.watermark := by
  obtain ⟨-, w, hw, hwalk, -⟩ := accrueSymbol_eq_ok h
  obtain ⟨hle, -, hevents⟩ := accrueWindow_eq_ok
    (fun p hp => (AccrualInput.mem_window hp).1.le) (AccrualInput.window_sorted _ _ _) hwalk
  exact ⟨w, hw, hle, fun ev hev => (hevents ev hev).2.2⟩

end CryptoPilot.Live
