/- # ForceCloses — retrieving what the venue closed by force.

`fetch_venue_force_closes` pages through the force orders of a window by their update time.  The
cursor goes on after the latest filled order of a full page, so orders that share its millisecond
but did not fit on the page are lost, and a full page without a filled order ends the retrieval;
`force_closes_complete_iff` says when nothing is. -/
import CryptoPilot.Lib.Paging
import CryptoPilot.Live.Account

namespace CryptoPilot.Live

open CryptoPilot.Lib List

/-! ## The retrieval -/

/-- A `Decimal`: its value and its digits, since `1.0` and `1.00` are equal and written differently.
-/
structure Decimal where
  value : ℚ
  digits : String
  deriving DecidableEq

/-- A row of `GET /fapi/v1/forceOrders`; `updateTime` is in milliseconds. -/
structure ForceOrder where
  symbol : String
  side : String
  executedQty : Decimal
  avgPrice : Decimal
  updateTime : ℤ
  orderId : String
  autoCloseType : String
  deriving DecidableEq

/-- `VenueForceClose`; `updatedAt` is in nanoseconds. -/
structure VenueForceClose where
  symbol : String
  side : String
  executedQty : Decimal
  avgPrice : Decimal
  autoCloseType : String
  orderId : String
  updatedAt : ℤ
  deriving DecidableEq

def nsPerMs : ℤ := 1000000

def ForceOrder.close (r : ForceOrder) : VenueForceClose where
  symbol := r.symbol
  side := r.side
  executedQty := r.executedQty
  avgPrice := r.avgPrice
  autoCloseType := r.autoCloseType
  orderId := r.orderId
  updatedAt := r.updateTime * nsPerMs

/-- `f"{symbol}|{order_id}|{ts_ms}|{qty}|{price}"`: no field has the bar in it. -/
def ForceOrder.seenKey (r : ForceOrder) : String × String × ℤ × String × String :=
  (r.symbol, r.orderId, r.updateTime, r.executedQty.digits, r.avgPrice.digits)

structure PageRead where
  maxTs : Option ℤ
  seen : List (String × String × ℤ × String × String)
  out : List VenueForceClose

/-- One turn of the loop over a page. -/
def readEntry (acc : PageRead) : Option ForceOrder → Except Exc PageRead
  | none => .error .dataIntegrityError
  | some r =>
    if r.side ≠ "BUY" ∧ r.side ≠ "SELL" then .error .dataIntegrityError
    else if r.executedQty.value < 0 then .error .dataIntegrityError
    else if r.executedQty.value = 0 then .ok acc
    else if r.avgPrice.value ≤ 0 then .error .dataIntegrityError
    else if r.autoCloseType ≠ "LIQUIDATION" ∧ r.autoCloseType ≠ "ADL" then .error .dataIntegrityError
    else
      let maxTs := match acc.maxTs with
        | none => r.updateTime
        | some ts => if ts < r.updateTime then r.updateTime else ts
      if r.seenKey ∈ acc.seen then .ok { acc with maxTs := some maxTs }
      else .ok { maxTs := some maxTs, seen := acc.seen ++ [r.seenKey], out := acc.out ++ [r.close] }

def forceOrderLimit : ℕ := 100

/-- The loop over the pages; `none` where the fuel ends first. -/
def fetchPages (client : ℤ → ℤ → List (Option ForceOrder)) (untilMs : ℤ) :
    ℕ → ℤ → List (String × String × ℤ × String × String) → List VenueForceClose →
      Option (Except Exc (List VenueForceClose))
  | 0, _, _, _ => none
  | fuel + 1, cursor, seen, out =>
    let payload := client cursor untilMs
    if payload = [] then some (.ok out)
    else
      match payload.foldlM readEntry ⟨none, seen, out⟩ with
      | .error e => some (.error e)
      | .ok read =>
        match read.maxTs with
        | none => some (.ok read.out)
        | some ts =>
          if untilMs ≤ ts ∨ payload.length < forceOrderLimit then some (.ok read.out)
          else fetchPages client untilMs fuel (ts + 1) read.seen read.out

def VenueForceClose.sortLe (a b : VenueForceClose) : Bool :=
  decide (a.symbol < b.symbol ∨ a.symbol = b.symbol ∧ (a.orderId < b.orderId ∨
    a.orderId = b.orderId ∧ a.updatedAt / nsPerMs ≤ b.updatedAt / nsPerMs))

/-- `fetch_venue_force_closes`, between two instants in nanoseconds. -/
def fetchVenueForceCloses (client : ℤ → ℤ → List (Option ForceOrder)) (since till : ℤ) (fuel : ℕ) :
    Option (Except Exc (List VenueForceClose)) :=
  (fetchPages client (till / nsPerMs) fuel (since / nsPerMs) [] []).map fun result =>
    result.map fun out => out.mergeSort VenueForceClose.sortLe

/-! ## The venue -/

/-- The force orders of an account, ascending by update time, each well formed with its own
identity. -/
structure ForceOrderVenue where
  orders : List ForceOrder
  ascending : orders.Pairwise fun r s => r.updateTime ≤ s.updateTime
  identified : orders.Pairwise fun r s => (r.symbol, r.orderId) ≠ (s.symbol, s.orderId)
  sided : ∀ r ∈ orders, r.side = "BUY" ∨ r.side = "SELL"
  filled : ∀ r ∈ orders, 0 ≤ r.executedQty.value
  priced : ∀ r ∈ orders, 0 < r.executedQty.value → 0 < r.avgPrice.value
  closed : ∀ r ∈ orders, r.autoCloseType = "LIQUIDATION" ∨ r.autoCloseType = "ADL"

def ForceOrderVenue.window (v : ForceOrderVenue) (startTime endTime : ℤ) : List ForceOrder :=
  v.orders.filter fun r => decide (startTime ≤ r.updateTime ∧ r.updateTime ≤ endTime)

def ForceOrderVenue.forceOrders (v : ForceOrderVenue) (startTime endTime : ℤ) : List (Option ForceOrder) :=
  ((v.window startTime endTime).take forceOrderLimit).map some

def ForceOrder.isFilled (r : ForceOrder) : Bool := decide (0 < r.executedQty.value)

def ForceOrderVenue.filledBetween (v : ForceOrderVenue) (since till : ℤ) : List ForceOrder :=
  v.orders.filter fun r => r.isFilled && decide (since ≤ r.updateTime * nsPerMs ∧ r.updateTime * nsPerMs ≤ till)

/-! ## A page -/

def latest (maxTs : Option ℤ) (t : ℤ) : Option ℤ :=
  some (match maxTs with
    | none => t
    | some ts => if ts < t then t else ts)

theorem foldl_latest : ∀ (times : List ℤ) (t : ℤ), times.foldl latest (some t) = some (times.foldl max t)
  | [], _ => rfl
  | u :: times, t => by
    have hmax : latest (some t) u = some (max t u) := by
      rcases lt_or_ge t u with h | h
      · simp [latest, h, max_eq_right h.le]
      · simp [latest, not_lt.mpr h, max_eq_left h]
    rw [foldl_cons, foldl_cons, hmax, foldl_latest times]

theorem foldl_latest_none (times : List ℤ) : times.foldl latest none = times.max? := by
  cases times with
  | nil => rfl
  | cons t times => rw [foldl_cons, max?_cons', latest, foldl_latest]

structure ForceOrder.WellFormed (r : ForceOrder) : Prop where
  sided : r.side = "BUY" ∨ r.side = "SELL"
  filled : 0 ≤ r.executedQty.value
  priced : 0 < r.executedQty.value → 0 < r.avgPrice.value
  closed : r.autoCloseType = "LIQUIDATION" ∨ r.autoCloseType = "ADL"

section Page

variable {r : ForceOrder} {acc : PageRead}

theorem readEntry_unfilled (h : r.WellFormed) (hzero : r.isFilled = false) : readEntry acc (some r) = .ok acc := by
  have hqty : r.executedQty.value = 0 := le_antisymm (not_lt.mp (of_decide_eq_false hzero)) h.filled
  have hside : ¬ (r.side ≠ "BUY" ∧ r.side ≠ "SELL") := fun hn => h.sided.elim hn.1 hn.2
  rw [readEntry, if_neg hside, if_neg (not_lt.mpr h.filled), if_pos hqty]

theorem readEntry_filled (h : r.WellFormed) (hfilled : r.isFilled = true) (hfresh : r.seenKey ∉ acc.seen) :
    readEntry acc (some r) = .ok ⟨latest acc.maxTs r.updateTime, acc.seen ++ [r.seenKey],
      acc.out ++ [r.close]⟩ := by
  have hqty : 0 < r.executedQty.value := of_decide_eq_true hfilled
  have hside : ¬ (r.side ≠ "BUY" ∧ r.side ≠ "SELL") := fun hn => h.sided.elim hn.1 hn.2
  have hclose : ¬ (r.autoCloseType ≠ "LIQUIDATION" ∧ r.autoCloseType ≠ "ADL") := fun hn => h.closed.elim hn.1 hn.2
  rw [readEntry, if_neg hside, if_neg (not_lt.mpr hqty.le), if_neg hqty.ne', if_neg (not_le.mpr (h.priced hqty)),
    if_neg hclose]
  rw [if_neg hfresh]; rfl

/-- **A page**: its filled rows are kept, and the latest of them is noted. -/
theorem readPage_ok : ∀ {page : List ForceOrder} {acc : PageRead}, (∀ r ∈ page, r.WellFormed) →
    (page.map ForceOrder.seenKey).Nodup → (∀ r ∈ page, r.seenKey ∉ acc.seen) →
    (page.map some).foldlM readEntry acc =
      .ok ⟨((page.filter ForceOrder.isFilled).map ForceOrder.updateTime).foldl latest acc.maxTs,
        acc.seen ++ (page.filter ForceOrder.isFilled).map ForceOrder.seenKey,
        acc.out ++ (page.filter ForceOrder.isFilled).map ForceOrder.close⟩
  | [], acc, _, _, _ => by simp [pure, Except.pure]
  | r :: page, acc, hformed, hnodup, hfresh => by
    obtain ⟨hr, hpage⟩ := forall_mem_cons.mp hformed
    obtain ⟨hfreshR, hfreshPage⟩ := forall_mem_cons.mp hfresh
    rw [map_cons, nodup_cons] at hnodup
    rw [map_cons, foldlM_cons]
    cases hfilled : r.isFilled with
    | false =>
      rw [readEntry_unfilled hr hfilled, filter_cons_of_neg (by simp [hfilled])]
      exact readPage_ok hpage hnodup.2 hfreshPage
    | true =>
      rw [readEntry_filled hr hfilled hfreshR, filter_cons_of_pos hfilled]
      have hrest : ∀ s ∈ page, s.seenKey ∉ acc.seen ++ [r.seenKey] := fun s hs hmem => by
        rcases mem_append.mp hmem with hmem | hmem
        · exact hfreshPage s hs hmem
        · exact hnodup.1 (mem_singleton.mp hmem ▸ mem_map_of_mem hs)
      refine (readPage_ok hpage hnodup.2 hrest).trans ?_; simp

end Page

/-! ## The pages -/

section Pages

variable {v : ForceOrderVenue} {start stop : ℤ}

theorem ForceOrderVenue.wellFormed {r : ForceOrder} (hr : r ∈ v.orders) : r.WellFormed :=
  ⟨v.sided r hr, v.filled r hr, v.priced r hr, v.closed r hr⟩

theorem ForceOrderVenue.seenKey_nodup {rows : List ForceOrder} (h : rows.Sublist v.orders) :
    (rows.map ForceOrder.seenKey).Nodup := by
  rw [List.Nodup, pairwise_map]
  refine (v.identified.sublist h).imp fun hne heq => hne ?_
  have hid := congrArg (fun k : String × String × ℤ × String × String => (k.1, k.2.1)) heq
  exact hid

theorem ForceOrderVenue.window_after {t : ℤ} (h : start ≤ t + 1) :
    v.window (t + 1) stop = Paging.after ForceOrder.updateTime t (v.window start stop) := by
  rw [ForceOrderVenue.window, ForceOrderVenue.window, Paging.after, filter_filter]
  refine filter_congr fun r _ => ?_
  rw [← Bool.decide_and, decide_eq_decide]; omega

def ForceOrderVenue.retrieved (v : ForceOrderVenue) (start stop : ℤ) : List ForceOrder :=
  Paging.collect ForceOrder.updateTime ForceOrder.isFilled forceOrderLimit (v.window start stop)

/-- **The loop over the pages**, with enough fuel: it ends, and adds what the pages collect. -/
theorem fetchPages_eq : ∀ {fuel : ℕ} {cursor : ℤ} {seen : List (String × String × ℤ × String × String)}
    {out : List VenueForceClose},
    (stop + 1 - cursor).toNat < fuel → (∀ r ∈ v.window cursor stop, r.seenKey ∉ seen) →
    fetchPages v.forceOrders stop fuel cursor seen out =
      some (.ok (out ++ (v.retrieved cursor stop).map ForceOrder.close))
  | 0, cursor, seen, out, hfuel, _ => absurd hfuel (Nat.not_lt_zero _)
  | fuel + 1, cursor, seen, out, hfuel, hseen => by
    have hwindow : ∀ r ∈ v.window cursor stop, r ∈ v.orders ∧ cursor ≤ r.updateTime ∧
      r.updateTime ≤ stop := fun r hr => by
      obtain ⟨hmem, hbounds⟩ := mem_filter.mp hr; exact ⟨hmem, of_decide_eq_true hbounds⟩
    have hsub : (v.window cursor stop).Sublist v.orders := filter_sublist
    have hpage := @readPage_ok ((v.window cursor stop).take forceOrderLimit) ⟨none, seen, out⟩
      (fun r hr => v.wellFormed (hwindow r (mem_of_mem_take hr)).1)
      (v.seenKey_nodup ((take_sublist _ _).trans hsub)) (fun r hr => hseen r (mem_of_mem_take hr))
    rw [foldl_latest_none] at hpage
    have hkey : (((v.window cursor stop).take forceOrderLimit).filter ForceOrder.isFilled |>.map
      ForceOrder.updateTime).max? =
      Paging.lastKey ForceOrder.updateTime ForceOrder.isFilled ((v.window cursor stop).take forceOrderLimit) := rfl
    rw [hkey] at hpage
    unfold fetchPages ForceOrderVenue.retrieved
    dsimp only [ForceOrderVenue.forceOrders]
    split_ifs with hempty
    · -- nothing is left
      have hnil : v.window cursor stop = [] := by
        rw [map_eq_nil_iff, take_eq_nil_iff] at hempty; exact hempty.resolve_left (by decide)
      rw [hnil, Paging.collect_short (by decide)]; simp
    · rw [hpage]
      cases hlast : Paging.lastKey ForceOrder.updateTime ForceOrder.isFilled
          ((v.window cursor stop).take forceOrderLimit) with
      | none =>
        have hidle := Paging.lastKey_eq_none _ _ hlast
        rw [hidle]
        rcases lt_or_ge (v.window cursor stop).length forceOrderLimit with hshort | hfull
        · rw [take_of_length_le hshort.le] at hidle
          rw [Paging.collect_short hshort, hidle]
        · rw [Paging.collect_idle hfull hlast]
      | some ts =>
        dsimp only
        obtain ⟨⟨r, hr, hfilled, rfl⟩, hle⟩ := Paging.mem_of_lastKey _ _ hlast
        obtain ⟨hmem, hfrom, hto⟩ := hwindow r (mem_of_mem_take hr)
        rcases lt_or_ge (v.window cursor stop).length forceOrderLimit with hshort | hfull
        · rw [if_pos (.inr (by simpa using hshort)), Paging.collect_short hshort,
            take_of_length_le hshort.le]
        · have hlength : ¬ (((v.window cursor stop).take forceOrderLimit).map some).length < forceOrderLimit := by
            simpa using hfull
          rw [Paging.collect_full hfull hlast]
          by_cases hend : stop ≤ r.updateTime
          · have hnone : Paging.after ForceOrder.updateTime r.updateTime (v.window cursor stop) = [] := by
              refine filter_eq_nil_iff.mpr fun s hs hlt => ?_
              have := (hwindow s hs).2.2
              have := of_decide_eq_true hlt; omega
            rw [if_pos (.inl hend), hnone, Paging.collect_short (by decide)]; simp
          · have hafter : v.window (r.updateTime + 1) stop = Paging.after _ _ (v.window cursor stop) :=
              v.window_after (by omega)
            rw [if_neg (not_or.mpr ⟨hend, hlength⟩), fetchPages_eq (by omega) fun s hs hsome => ?_]
            · rw [ForceOrderVenue.retrieved, hafter, map_append, append_assoc]
            · rw [hafter] at hs
              obtain ⟨hs, hlate⟩ := mem_filter.mp hs
              rcases mem_append.mp hsome with hsome | hsome
              · exact hseen s hs hsome
              · -- what was read on this page is not later than its latest filled row
                obtain ⟨q, hq, hsame⟩ := mem_map.mp hsome
                obtain ⟨hq, hqfilled⟩ := mem_filter.mp hq
                have htime : q.updateTime = s.updateTime :=
                  congrArg (fun k : String × String × ℤ × String × String => k.2.2.1) hsame
                have := hle q hq hqfilled
                have := of_decide_eq_true hlate; omega

end Pages

/-! ## Completeness -/

/-- The retrieval ends with the filled orders between two instants, each once. -/
def ForceClosesComplete (v : ForceOrderVenue) (since till : ℤ) : Prop :=
  ∃ out, (∃ enough, ∀ fuel ≥ enough, fetchVenueForceCloses v.forceOrders since till fuel = some (.ok out)) ∧
    out.Perm ((v.filledBetween since till).map ForceOrder.close)

/-- No filled order lies in the millisecond of `since` before it, and the pages cut well. -/
def ForceClosesRetrievable (v : ForceOrderVenue) (since till : ℤ) : Prop :=
  let rows := v.window (since / nsPerMs) (till / nsPerMs)
  ((∀ r ∈ rows, r.isFilled = true → since ≤ r.updateTime * nsPerMs) ∧
    Paging.CutsWell ForceOrder.updateTime ForceOrder.isFilled forceOrderLimit rows) ∨
  ((∀ r ∈ rows, r.isFilled = true → r.updateTime * nsPerMs < since) ∧
    ∀ r ∈ rows.take forceOrderLimit, r.isFilled = false)

section Complete

variable {v : ForceOrderVenue} {since till : ℤ}

theorem ForceOrder.close_injective : Function.Injective ForceOrder.close := fun r s h => by
  obtain ⟨symbol, side, qty, price, time, id, kind⟩ := r
  obtain ⟨symbol', side', qty', price', time', id', kind'⟩ := s
  simp only [ForceOrder.close, VenueForceClose.mk.injEq] at h
  obtain ⟨rfl, rfl, rfl, rfl, rfl, rfl, htime⟩ := h
  obtain rfl : time = time' := by
    unfold nsPerMs at htime; omega
  rfl

/-- **What the retrieval returns**, with enough fuel. -/
theorem fetchVenueForceCloses_eq {fuel : ℕ} (hfuel : (till / nsPerMs + 1 - since / nsPerMs).toNat < fuel) :
    fetchVenueForceCloses v.forceOrders since till fuel =
      some (.ok (((v.retrieved (since / nsPerMs) (till / nsPerMs)).map ForceOrder.close).mergeSort
        VenueForceClose.sortLe)) := by
  rw [fetchVenueForceCloses, fetchPages_eq hfuel fun _ _ => not_mem_nil]
  rfl

theorem ForceOrderVenue.filledBetween_eq (v : ForceOrderVenue) (since till : ℤ) :
    v.filledBetween since till = ((v.window (since / nsPerMs) (till / nsPerMs)).filter ForceOrder.isFilled).filter
      fun r => decide (since ≤ r.updateTime * nsPerMs) := by
  rw [ForceOrderVenue.window, filter_filter, filter_filter]
  refine filter_congr fun r _ => ?_
  have hbounds : since ≤ r.updateTime * nsPerMs ∧ r.updateTime * nsPerMs ≤ till ↔
      since ≤ r.updateTime * nsPerMs ∧ since / nsPerMs ≤ r.updateTime ∧ r.updateTime ≤ till / nsPerMs := by
    unfold nsPerMs; omega
  rw [decide_eq_decide.mpr hbounds, Bool.decide_and]
  cases r.isFilled <;> simp [Bool.and_comm]

theorem forceClosesComplete_iff_perm : ForceClosesComplete v since till ↔
    (v.retrieved (since / nsPerMs) (till / nsPerMs)).Perm (v.filledBetween since till) := by
  rw [← map_perm_map_iff ForceOrder.close_injective]
  constructor
  · rintro ⟨out, ⟨enough, hfetch⟩, hperm⟩
    have hout := hfetch (max enough ((till / nsPerMs + 1 - since / nsPerMs).toNat + 1)) (le_max_left _ _)
    rw [fetchVenueForceCloses_eq (lt_of_lt_of_le (Nat.lt_succ_self _) (le_max_right _ _))] at hout
    obtain rfl := Except.ok.inj (Option.some.inj hout); exact (mergeSort_perm _ _).symm.trans hperm
  · intro hperm
    exact ⟨_, ⟨_, fun fuel hfuel => fetchVenueForceCloses_eq (Nat.lt_of_succ_le hfuel)⟩,
      (mergeSort_perm _ _).trans hperm⟩

/-- **Force-close retrieval is complete exactly where the pages cut well.** -/
theorem force_closes_complete_iff (v : ForceOrderVenue) (since till : ℤ) :
    ForceClosesComplete v since till ↔ ForceClosesRetrievable v since till := by
  rw [forceClosesComplete_iff_perm, v.filledBetween_eq since till]
  unfold ForceClosesRetrievable ForceOrderVenue.retrieved
  have hsorted : (v.window (since / nsPerMs) (till / nsPerMs)).Pairwise fun r s => r.updateTime ≤ s.updateTime :=
    v.ascending.sublist filter_sublist
  generalize v.window (since / nsPerMs) (till / nsPerMs) = rows at hsorted
  have hsub := @Paging.collect_sublist _ ForceOrder.updateTime ForceOrder.isFilled forceOrderLimit rows
  have hall (hlate : ∀ r ∈ rows, r.isFilled = true → since ≤ r.updateTime * nsPerMs) :
      (rows.filter ForceOrder.isFilled).filter (fun r => decide (since ≤ r.updateTime * nsPerMs)) =
        rows.filter ForceOrder.isFilled :=
    filter_eq_self.mpr fun r hr => by
      obtain ⟨hr, hfilled⟩ := mem_filter.mp hr; exact decide_eq_true (hlate r hr hfilled)
  constructor
  · intro hperm
    by_cases hlate : ∀ r ∈ rows, r.isFilled = true → since ≤ r.updateTime * nsPerMs
    · refine .inl ⟨hlate, (Paging.collect_eq_iff rows).mp (hsub.eq_of_length ?_)⟩
      rw [hperm.length_eq, hall hlate]
    · push Not at hlate
      obtain ⟨early, hearly, hfilled, hbefore⟩ := hlate
      -- the first filled order of the window would be retrieved, so the first page has none
      have hidle : ∀ r ∈ rows.take forceOrderLimit, r.isFilled = false := by
        have hpage := @Paging.page_prefix _ ForceOrder.updateTime ForceOrder.isFilled forceOrderLimit rows
        cases hfirst : (rows.take forceOrderLimit).filter ForceOrder.isFilled with
        | nil => exact fun r hr => Bool.not_eq_true _ ▸ filter_eq_nil_iff.mp hfirst r hr
        | cons first rest =>
          rw [hfirst] at hpage
          have hmem := hperm.subset (hpage.subset mem_cons_self)
          have hsince : since ≤ first.updateTime * nsPerMs := of_decide_eq_true (mem_filter.mp hmem).2
          obtain ⟨tail, htail⟩ : ∃ tail, rows.filter ForceOrder.isFilled = first :: tail := by
            obtain ⟨tail, htail⟩ := ( take_prefix forceOrderLimit rows).filter ForceOrder.isFilled
            rw [hfirst] at htail; exact ⟨_, htail.symm⟩
          have hordered := hsorted.sublist (filter_sublist (p := ForceOrder.isFilled))
          have hmem : early ∈ first :: tail := htail ▸ mem_filter.mpr ⟨hearly, hfilled⟩
          have hle : first.updateTime ≤ early.updateTime := by
            rw [htail] at hordered
            rcases mem_cons.mp hmem with rfl | hmem
            · exact le_rfl
            · exact (pairwise_cons.mp hordered).1 early hmem
          unfold nsPerMs at hsince hbefore; omega
      refine .inr ⟨fun r hr hfilled => ?_, hidle⟩
      rw [Paging.collect_nothing hidle, nil_perm] at hperm
      have hnot := filter_eq_nil_iff.mp hperm r (mem_filter.mpr ⟨hr, hfilled⟩)
      rw [decide_eq_true_eq, not_le] at hnot; exact hnot
  · rintro (⟨hlate, hcut⟩ | ⟨hearly, hidle⟩)
    · rw [(Paging.collect_eq_iff rows).mpr hcut, hall hlate]
    · have hnone : (rows.filter ForceOrder.isFilled).filter (fun r =>
        decide (since ≤ r.updateTime * nsPerMs)) = [] :=
        filter_eq_nil_iff.mpr fun r hr => by
          obtain ⟨hr, hfilled⟩ := mem_filter.mp hr
          rw [decide_eq_true_eq, not_le]; exact hearly r hr hfilled
      rw [Paging.collect_nothing hidle, hnone]

def crowdedOrder (i : ℕ) : ForceOrder where
  symbol := "AAAUSDT"
  side := "BUY"
  executedQty := ⟨1, "1"⟩
  avgPrice := ⟨100, "100"⟩
  updateTime := 0
  orderId := String.ofList (replicate i '1')
  autoCloseType := "ADL"

/-- An auto-deleveraging that fills a hundred and one orders in one millisecond. -/
def crowdedVenue : ForceOrderVenue where
  orders := (List.range 101).map crowdedOrder
  ascending := pairwise_map.mpr (pairwise_of_forall fun _ _ => le_rfl)
  identified := pairwise_map.mpr <| pairwise_lt_range.imp fun {i j} hlt heq => by
    have hid : String.ofList (replicate i '1') = String.ofList (replicate j '1') := congrArg Prod.snd heq
    have hlength := congrArg String.length hid
    rw [String.length_ofList, String.length_ofList, length_replicate, length_replicate] at hlength
    exact hlt.ne hlength
  sided := forall_mem_map.mpr fun _ _ => .inl rfl
  filled := forall_mem_map.mpr fun _ _ => show (0 : ℚ) ≤ 1 by norm_num
  priced := forall_mem_map.mpr fun _ _ _ => show (0 : ℚ) < 100 by norm_num
  closed := forall_mem_map.mpr fun _ _ => .inr rfl

theorem crowded_order_lost : ¬ ForceClosesComplete crowdedVenue 0 (3600000 * nsPerMs) := by
  rw [forceClosesComplete_iff_perm]
  intro hperm
  have hwindow : crowdedVenue.window (0 / nsPerMs) (3600000 * nsPerMs / nsPerMs) =
    (List.range 101).map crowdedOrder :=
    filter_eq_self.mpr <| forall_mem_map.mpr fun _ _ =>
      show decide (0 / nsPerMs ≤ 0 ∧ 0 ≤ 3600000 * nsPerMs / nsPerMs) = true by decide
  have hlast : Paging.lastKey ForceOrder.updateTime ForceOrder.isFilled
      (((List.range 101).map crowdedOrder).take forceOrderLimit) = some 0 := by decide +kernel
  have hafter : Paging.after ForceOrder.updateTime 0 ((List.range 101).map crowdedOrder) = [] :=
    filter_eq_nil_iff.mpr <| forall_mem_map.mpr fun _ _ => show ¬ decide ((0 : ℤ) < 0) = true by decide
  rw [ForceOrderVenue.retrieved, hwindow, Paging.collect_full (by decide) hlast, hafter,
    Paging.collect_short (by decide)]
    at hperm
  have hlength := hperm.length_eq
  revert hlength
  decide +kernel

end Complete

end CryptoPilot.Live
