/- # FundingWalks — the walk of an accrual in two, and an accrual as a sum.

A walk over a window is a walk over what had arrived of it, with the prices that had arrived, and a
walk from where that one stopped (`accrueWindow_split`). -/
import Mathlib.Algebra.BigOperators.Group.Finset.Basic
import CryptoPilot.Live.Funding

namespace CryptoPilot.Live

open CryptoPilot.Lib List

/-! ## Evidence that arrives late -/

/-- The series of each symbol, earlier and later: what has arrived stays, the rest is newer. -/
structure Grows (early late : Dict Series) : Prop where
  arrived : ∀ symbol series, early.lookup symbol = some series →
    ∃ series', late.lookup symbol = some series' ∧ series <+: series'
  ordered : ∀ symbol series, late.lookup symbol = some series → series.Pairwise fun p q => p.1 < q.1

section Windows

variable {w u v : ℚ} {series late : Series}

section

variable (h : series.Pairwise fun p q => p.1 < q.1)

include h

theorem sortIndex_ordered : sortIndex series = series :=
  List.Pairwise.insertionSort_eq (h.imp fun h => h.le)

theorem accrualWindow_ordered : accrualWindow w u series = series.filter fun p => decide (w < p.1 ∧ p.1 ≤ u) :=
  sortIndex_ordered (h.sublist filter_sublist)

theorem filter_le_append (huv : u ≤ v) :
    (series.filter fun p => decide (w < p.1 ∧ p.1 ≤ u)) <+: series.filter fun p => decide (w < p.1 ∧ p.1 ≤ v) := by
  induction series with
  | nil => exact prefix_rfl
  | cons p rest ih =>
    obtain ⟨hhead, htail⟩ := pairwise_cons.mp h
    by_cases hu : p.1 ≤ u
    · have hv : p.1 ≤ v := hu.trans huv
      by_cases hw : w < p.1
      · simpa [hw, hu, hv] using ih htail
      · simpa [hw] using ih htail
    · -- everything from here on is above `u`
      have hnone : (p :: rest).filter (fun p => decide (w < p.1 ∧ p.1 ≤ u)) = [] := by
        refine filter_eq_nil_iff.mpr fun q hq => ?_
        have hle : p.1 ≤ q.1 := by
          rcases mem_cons.mp hq with rfl | hq
          · exact le_rfl
          · exact (hhead q hq).le
        simpa using fun _ => lt_of_lt_of_le (not_le.mp hu) hle
      rw [hnone]; exact nil_prefix

end

theorem accrualWindow_prefix (harrived : series <+: late) (h : late.Pairwise fun p q => p.1 < q.1) (huv : u ≤ v) :
    accrualWindow w u series <+: accrualWindow w v late := by
  have hseries := h.sublist harrived.sublist
  rw [accrualWindow_ordered hseries, accrualWindow_ordered h]
  exact (filter_le_append hseries huv).trans (harrived.filter _)

theorem accrualWindow_from (h : series.Pairwise fun p q => p.1 < q.1) (hwu : w ≤ u) :
    accrualWindow u v series = (accrualWindow w v series).filter fun p => decide (u < p.1) := by
  rw [accrualWindow_ordered h, accrualWindow_ordered h, filter_filter]
  refine filter_congr fun p _ => ?_
  grind

end Windows

/-! ## The walk, in two -/

section Walks

variable {history later : List PositionSnapshot} {symbol : String} {closes closes' : Option Series} {t : ℚ}

theorem positionAt_append (hlater : ∀ snap ∈ later, t ≤ snap.effectiveFrom) {epoch : ℚ} (he : epoch ≤ t) :
    positionAt (history ++ later) symbol epoch = positionAt history symbol epoch := by
  have htake : (history ++ later).takeWhile (fun snap => decide (snap.effectiveFrom < epoch)) =
      history.takeWhile fun snap => decide (snap.effectiveFrom < epoch) := by
    induction history with
    | nil =>
      cases later with
      | nil => rfl
      | cons snap rest =>
        have hsnap : ¬ snap.effectiveFrom < epoch := by
          have := hlater snap mem_cons_self; linarith
        simp [hsnap]
    | cons snap rest ih =>
      rw [cons_append, takeWhile_cons, takeWhile_cons, ih]
  rw [positionAt, positionAt, htake]

theorem closeAt_grown {epoch px : ℚ} {series series' : Series} (harrived : series <+: series')
    (h : closeAt (some series) epoch = some px) : closeAt (some series') epoch = some px := by
  obtain ⟨rest, rfl⟩ := harrived
  simp only [closeAt] at h ⊢
  cases hlookup : series.lookup (floorHour epoch) with
  | none => simp [hlookup] at h
  | some reading =>
    have hlate : (series ++ rest).lookup (floorHour epoch) = some reading := by
      rw [lookup_append, hlookup]; rfl
    rw [hlate]; rwa [hlookup] at h

theorem accrueWindow_split {history' : List PositionSnapshot} :
    ∀ {early window : Series} {w reached : ℚ} {events : List FundingEvent}, early <+: window →
      window.Pairwise (fun p q => p.1 < q.1) → (∀ p ∈ window, w < p.1) →
      (∀ p ∈ early, positionAt history symbol p.1 = positionAt history' symbol p.1) →
      (∀ p ∈ early, ∀ px, closeAt closes p.1 = some px → closeAt closes' p.1 = some px) →
      accrueWindow history' symbol closes' w window = .ok (reached, events) →
      ∃ between first second, accrueWindow history symbol closes w early = .ok (between, first) ∧
        accrueWindow history' symbol closes' between (window.filter fun p => decide (between < p.1)) =
          .ok (reached, second) ∧ w ≤ between ∧ events = first ++ second := by
  intro early
  induction early with
  | nil =>
    intro window w reached events _ _ habove _ _ h
    have hall : (window.filter fun p => decide (w < p.1)) = window :=
      filter_eq_self.mpr fun p hp => decide_eq_true (habove p hp)
    exact ⟨w, [], events, rfl, by rw [hall]; exact h, le_rfl, rfl⟩
  | cons p early ih =>
    intro window w reached events hearly hordered habove hposition hclose h
    obtain ⟨epoch, rate⟩ := p
    obtain ⟨rest, rfl⟩ := hearly
    obtain ⟨hhead, htail⟩ := pairwise_cons.mp hordered
    have hall : (((epoch, rate) :: early ++ rest).filter fun p => decide (w < p.1)) =
      (epoch, rate) :: early ++ rest :=
      filter_eq_self.mpr fun p hp => decide_eq_true (habove p hp)
    -- what the induction gives once the walk has passed this epoch
    have hnext : ∀ {reached' : ℚ} {events' : List FundingEvent},
        accrueWindow history' symbol closes' epoch (early ++ rest) = .ok (reached', events') →
        ∃ between first second, accrueWindow history symbol closes epoch early = .ok (between, first) ∧
          accrueWindow history' symbol closes' between
            (((epoch, rate) :: early ++ rest).filter fun p => decide (between < p.1)) = .ok (reached', second) ∧
          w ≤ between ∧ events' = first ++ second := by
      intro reached' events' h'
      obtain ⟨between, first, second, hfirst, hsecond, hle, heq⟩ := ih (prefix_append early rest) htail
        (fun q hq => hhead q hq) (fun q hq => hposition q (mem_cons_of_mem _ hq))
        (fun q hq => hclose q (mem_cons_of_mem _ hq)) h'
      have hpassed : ¬ between < epoch := not_lt.mpr hle
      refine ⟨between, first, second, hfirst, ?_, (habove (epoch, rate) (by simp)).le.trans hle, heq⟩
      simpa [hpassed] using hsecond
    rw [cons_append, accrueWindow, bind_eq_ok] at h
    obtain ⟨qty, hqty, h⟩ := h
    have hqty' : positionAt history symbol epoch = .ok qty := (hposition (epoch, rate) (by simp)).trans hqty
    simp only [accrueWindow, hqty']
    split_ifs at h with hheld
    · cases rate with
      | none =>
        refine ⟨w, [], events, by simp [bind_eq_ok, hheld], ?_, le_rfl, rfl⟩
        rw [hall, cons_append, accrueWindow, hqty]; simpa [bind_eq_ok, hheld] using h
      | some rate =>
        cases hpx : closeAt closes epoch with
        | none =>
          refine ⟨w, [], events, by simp [bind_eq_ok, hheld], ?_, le_rfl, rfl⟩
          rw [hall, cons_append, accrueWindow, hqty]; simpa [bind_eq_ok, hheld] using h
        | some px =>
          have hpx' : closeAt closes' epoch = some px := hclose (epoch, some rate) (by simp) px hpx
          simp only [hpx'] at h
          obtain ⟨⟨reached', events'⟩, hrest, h⟩ := bind_eq_ok.mp h
          obtain ⟨rfl, rfl⟩ := h
          obtain ⟨between, first, second, hfirst, hsecond, hle, heq⟩ := hnext hrest
          refine ⟨between, _ :: first, second, ?_, hsecond, hle, by rw [heq]; rfl⟩
          simp [bind_eq_ok, hheld, hfirst]
    · obtain ⟨between, first, second, hfirst, hsecond, hle, heq⟩ := hnext h
      refine ⟨between, first, second, ?_, hsecond, hle, heq⟩
      simpa [bind_eq_ok, not_not.mp hheld] using hfirst

end Walks

/-! ## An accrual as a sum over symbols -/

def AccrualInput.turn (a : AccrualInput) (symbol : String) : Option SymbolAccrual :=
  match accrueSymbol a symbol with
  | .ok turn => turn
  | .error _ => none

def charged (turn : Option SymbolAccrual) : List FundingEvent := (turn.map SymbolAccrual.events).getD []

def marked (turn : Option SymbolAccrual) : Option ℚ := turn.bind fun t => if t.kept then some t.watermark else none

def amountOf (events : List FundingEvent) : ℚ := (events.map FundingEvent.amount).sum

/-- `symbol in history[-1].positions`. -/
def listed (history : List PositionSnapshot) (symbol : String) : Bool :=
  ((currentPositions history).lookup symbol).isSome

section Turns

variable {a : AccrualInput} {accrual : FundingAccrual} {symbol : String}

section

variable {history : List PositionSnapshot} (h : listed history symbol = false)

include h

theorem held_of_not_listed {last : PositionSnapshot} (hlast : history.getLast? = some last) :
    last.held symbol = 0 := by
  rw [listed, currentPositions, hlast, Option.isSome_eq_false_iff, Option.isNone_iff_eq_none] at h
  exact (congrArg (Option.getD · 0) h).trans rfl

theorem heldSince_of_not_listed :
    heldSince history symbol = none := by
  rw [heldSince]
  cases hrev : history.reverse with
  | nil => rfl
  | cons last earlier =>
    have hlast : history.getLast? = some last := by rw [getLast?_eq_head?_reverse, hrev]; rfl
    simp [held_of_not_listed h hlast]

end

theorem accrueSymbol_not_mem (h : symbol ∉ a.symbols) : accrueSymbol a symbol = .ok none := by
  have hmem : symbol ∉ a.watermarks.keys ++ (currentPositions a.history).keys := fun hin =>
    h ((mem_insertionSort _).mpr (mem_dedup.mpr hin))
  rw [mem_append, not_or] at hmem
  have hwatermark : a.watermarks.lookup symbol = none := AList.lookup_eq_none.mpr hmem.1
  have hheld : heldSince a.history symbol = none := by
    refine heldSince_of_not_listed ?_
    rw [listed, AList.lookup_eq_none.mpr hmem.2]; rfl
  rw [accrueSymbol, AccrualInput.watermarkOf, hwatermark, hheld]; rfl

theorem mapM_eq_ok {α β ε : Type} {f : α → Except ε β} {g : α → β} :
    ∀ {xs : List α}, (∀ x ∈ xs, f x = .ok (g x)) → xs.mapM f = .ok (xs.map g)
  | [], _ => rfl
  | x :: xs, h => by
    rw [mapM_cons, h x mem_cons_self, mapM_eq_ok fun y hy => h y (mem_cons_of_mem x hy)]
    rfl

theorem accrueFundingByWatermark_of_turns (h : ∀ symbol, accrueSymbol a symbol = .ok (a.turn symbol)) :
    accrueFundingByWatermark a = .ok (FundingAccrual.ofSymbols (a.symbols.filterMap a.turn)) := by
  rw [accrueFundingByWatermark, mapM_eq_ok fun symbol _ => h symbol]
  show Except.ok _ = Except.ok _
  rw [filterMap_map]; rfl

theorem AccrualInput.turn_eq {turn : Option SymbolAccrual} (h : accrueSymbol a symbol = .ok turn) :
    a.turn symbol = turn := by
  rw [AccrualInput.turn, h]

theorem AccrualInput.turn_not_mem (h : symbol ∉ a.symbols) : a.turn symbol = none :=
  AccrualInput.turn_eq (accrueSymbol_not_mem h)

theorem turns_of_accrue (h : accrueFundingByWatermark a = .ok accrual) :
    (∀ symbol, accrueSymbol a symbol = .ok (a.turn symbol)) ∧
    accrual = FundingAccrual.ofSymbols (a.symbols.filterMap a.turn) := by
  have hturns : ∀ symbol, accrueSymbol a symbol = .ok (a.turn symbol) := by
    intro symbol
    by_cases hmem : symbol ∈ a.symbols
    · have h' := h
      rw [accrueFundingByWatermark, bind_eq_ok] at h'
      obtain ⟨results, hresults, -⟩ := h'
      obtain ⟨turn, -, hturn⟩ := forall₂_exists_right (forall₂_of_mapM_eq_ok hresults) hmem
      rw [hturn, AccrualInput.turn_eq hturn]
    · rw [accrueSymbol_not_mem hmem, AccrualInput.turn_not_mem hmem]
  exact ⟨hturns, Except.ok.inj (h.symm.trans (accrueFundingByWatermark_of_turns hturns))⟩

theorem AccrualInput.symbols_nodup (a : AccrualInput) : a.symbols.Nodup :=
  (perm_insertionSort _ _).nodup_iff.mpr (nodup_dedup _)

theorem AccrualInput.turn_symbol {t : SymbolAccrual} (h : a.turn symbol = some t) : t.symbol = symbol := by
  rw [AccrualInput.turn] at h
  split at h
  · next hturn => exact (accrueSymbol_eq_ok (h ▸ hturn)).1
  · cases h

theorem exists_accrual (h : ∀ symbol, ∃ turn, accrueSymbol a symbol = .ok turn) :
    ∃ accrual, accrueFundingByWatermark a = .ok accrual := by
  refine ⟨_, accrueFundingByWatermark_of_turns fun symbol => ?_⟩
  obtain ⟨turn, hturn⟩ := h symbol
  rw [hturn, AccrualInput.turn_eq hturn]

theorem accrued_events (h : accrueFundingByWatermark a = .ok accrual) :
    accrual.events = a.symbols.flatMap fun s => charged (a.turn s) := by
  obtain ⟨-, rfl⟩ := turns_of_accrue h
  show (a.symbols.filterMap a.turn).flatMap SymbolAccrual.events = _
  induction a.symbols with
  | nil => rfl
  | cons s rest ih =>
    cases hturn : a.turn s with
    | none | some t => simpa [hturn, charged] using ih

theorem accrued_cash (symbols : Finset String) (h : accrueFundingByWatermark a = .ok accrual)
    (hsub : a.symbols.toFinset ⊆ symbols) : accrual.cashDelta = ∑ s ∈ symbols, amountOf (charged (a.turn s)) := by
  have hcash : accrual.cashDelta = amountOf accrual.events := by
    obtain ⟨-, rfl⟩ := turns_of_accrue h; rfl
  have hlist : amountOf (a.symbols.flatMap fun s => charged (a.turn s)) =
      (a.symbols.map fun s => amountOf (charged (a.turn s))).sum := by
    rw [amountOf]
    induction a.symbols with
    | nil => rfl
    | cons s rest ih => simp [ih, amountOf]
  rw [hcash, accrued_events h, hlist, ← sum_toFinset _ a.symbols_nodup]
  refine Finset.sum_subset hsub fun s _ hs => ?_
  rw [AccrualInput.turn_not_mem (by simpa using hs)]; rfl

theorem accrued_watermark (h : accrueFundingByWatermark a = .ok accrual) (symbol : String) :
    accrual.watermarks.lookup symbol = marked (a.turn symbol) := by
  obtain ⟨-, rfl⟩ := turns_of_accrue h
  have hsymbols : ((a.symbols.filterMap a.turn).map SymbolAccrual.symbol).Nodup := by
    refine List.Nodup.sublist ?_ a.symbols_nodup
    induction a.symbols with
    | nil => exact List.Sublist.slnil
    | cons s rest ih =>
      cases hturn : a.turn s with
      | none => simpa [hturn] using ih.cons s
      | some t => simpa [hturn, AccrualInput.turn_symbol hturn] using ih
  have hkeys : ((((a.symbols.filterMap a.turn).filter SymbolAccrual.kept).map fun t =>
      (t.symbol, t.watermark)).map Prod.fst).Nodup := by
    rw [map_map]; exact hsymbols.sublist (filter_sublist.map _)
  refine Option.ext fun w => (Dict.lookup_ofPairs symbol w hkeys).trans ?_
  constructor
  · intro h
    obtain ⟨t, ht, heq⟩ := mem_map.mp h
    obtain ⟨hmem, hkept⟩ := mem_filter.mp ht
    obtain ⟨s, -, hturn⟩ := mem_filterMap.mp hmem
    obtain ⟨rfl, rfl⟩ := Prod.mk.inj heq
    rw [AccrualInput.turn_symbol hturn, hturn]; simp [marked, hkept]
  · intro h
    rw [marked, Option.bind_eq_some_iff] at h
    obtain ⟨t, hturn, ht⟩ := h
    split_ifs at ht with hkept
    obtain rfl := Option.some.inj ht
    have hmem : symbol ∈ a.symbols := by
      by_contra hnot
      rw [AccrualInput.turn_not_mem hnot] at hturn; cases hturn
    refine mem_map.mpr ⟨t, mem_filter.mpr ⟨mem_filterMap.mpr ⟨symbol, hmem, hturn⟩, hkept⟩, ?_⟩
    rw [AccrualInput.turn_symbol hturn]

end Turns

end CryptoPilot.Live
