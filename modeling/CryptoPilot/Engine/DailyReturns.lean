/- # DailyReturns — the daily returns of an equity ledger, as the deploy gates and the evidence
extract them.

`fold_daily_returns` drops the return of the first day, and both resampled extractors drop what
happens over days that are absent (`daily_returns_compound_iff`). -/
import CryptoPilot.Lib.Timeline
import CryptoPilot.Engine.Coupled

namespace CryptoPilot.Engine

open List Except
open CryptoPilot.Live (Exc)
open CryptoPilot.Lib (sortBy mem_sortBy pairwise_sortBy)

variable (rows : List LedgerRow)

/-- `equity.resample("1D").last()`. -/
def dayLevels : List (Option ℚ) :=
  match rows.head?, rows.getLast? with
  | some first, some last =>
    (range (dayOf last.bar - dayOf first.bar + 1).toNat).map fun k : ℕ => lastEquity rows (dayOf first.bar + k)
  | _, _ => []

/-- `pct_change()`, without its first value, which is missing. -/
def pctChanges (levels : List (Option ℚ)) : List (Option ℚ) :=
  (levels.zip levels.tail).map fun p => p.1.bind fun prior => p.2.map fun level => level / prior - 1

/-- `fold_daily_returns`: `dropna` removes the first value, too. -/
def foldDailyReturns : List ℚ := (pctChanges (dayLevels rows)).filterMap id

def inventoryDailyReturns (initialEquity : ℚ) : Except Exc (List (Option ℚ)) :=
  if initialEquity ≤ 0 then .error .dataIntegrityError
  else
    match dayLevels rows with
    | [] => .ok []
    | first :: rest => .ok (first.map (· / initialEquity - 1) :: pctChanges (first :: rest))

/-- `(1.0 + daily).prod()`, which skips missing values. -/
def compounded (daily : List (Option ℚ)) : ℚ := ((daily.filterMap id).map (1 + ·)).prod

@[simp] theorem pctChanges_cons_cons (a b : Option ℚ) (rest : List (Option ℚ)) :
    pctChanges (a :: b :: rest)
      = (a.bind fun prior => b.map fun level => level / prior - 1) :: pctChanges (b :: rest) := rfl

@[simp] theorem compounded_nil : compounded [] = 1 := rfl

@[simp] theorem compounded_none (daily : List (Option ℚ)) : compounded (none :: daily) = compounded daily := rfl

@[simp] theorem compounded_some (r : ℚ) (daily : List (Option ℚ)) :
    compounded (some r :: daily) = (1 + r) * compounded daily := prod_cons

/-- `DailyPortfolioEvidence`. -/
structure DailyEvidence where
  returns : List ℚ
  labelStart : List (Option ℤ)
  labelEnd : List (Option ℤ)
  availableAt : List (Option ℤ)

def dayEnd (day : ℤ) : Option ℤ := ((rows.filter fun r => dayOf r.bar = day).map LedgerRow.bar).max?

def dayAvail (available : List ℤ) (day : ℤ) : Option ℤ :=
  (((rows.zip available).filter fun r => dayOf r.1.bar = day).map Prod.snd).max?

def dayLevel (day : ℤ) : ℚ := (lastEquity rows day).getD 0

def ledgerDays : List ℤ := sortBy id (rows.map fun r => dayOf r.bar).dedup

/-- `inventory_daily_evidence`. -/
def inventoryDailyEvidence (available : List ℤ) : Except Exc DailyEvidence :=
  if rows = [] ∨ ¬ rows.Pairwise (·.bar < ·.bar) ∨ available.length ≠ rows.length
      ∨ (∃ p ∈ rows.zip available, p.2 < p.1.bar) ∨ (ledgerDays rows).length < 2
      ∨ ∃ p ∈ (ledgerDays rows).zip (ledgerDays rows).tail, dayLevel rows p.1 ≤ 0 then .error .dataIntegrityError
  else
    let pairs := (ledgerDays rows).zip (ledgerDays rows).tail
    .ok ⟨pairs.map fun p => dayLevel rows p.2 / dayLevel rows p.1 - 1, pairs.map fun p => dayEnd rows p.1,
      pairs.map fun p => dayEnd rows p.2,
      pairs.map fun p => max (dayAvail rows available p.1) (dayAvail rows available p.2)⟩

/-- The jumps of the level over absent days. -/
def overAbsent : Bool → ℚ → List (Option ℚ) → ℚ
  | _, _, [] => 1
  | _, prior, none :: rest => overAbsent false prior rest
  | adjacent, prior, some level :: rest => (if adjacent then 1 else level / prior) * overAbsent true level rest

def absentJumps : ℚ :=
  match dayLevels rows with
  | some level :: rest => overAbsent true level rest
  | _ => 1

/-- The daily returns of a ledger from `first` to `last` lose nothing. -/
structure ReturnsCompound (first last : LedgerRow) (initialEquity : ℚ) : Prop where
  fold : ((foldDailyReturns rows).map (1 + ·)).prod = last.equity / initialEquity
  inventory : ∃ daily, inventoryDailyReturns rows initialEquity = .ok daily
    ∧ compounded daily = last.equity / initialEquity
  evidence : ∀ available : List ℤ, available.length = rows.length → (∀ p ∈ rows.zip available, p.1.bar ≤ p.2) →
    dayOf first.bar < dayOf last.bar → ∃ evidence, inventoryDailyEvidence rows available = .ok evidence
      ∧ (evidence.returns.map (1 + ·)).prod = last.equity / dayLevel rows (dayOf first.bar)
      ∧ evidence.labelStart.tail = evidence.labelEnd.dropLast

/-! ## Telescoping -/

/-- The returns of adjacent days and the jumps over absent days make the whole way. -/
theorem compounded_mul_overAbsent {z : ℚ} {levels : List (Option ℚ)} (adjacent : Bool) {prior : ℚ}
    (hprior : prior ≠ 0) (hlevels : ∀ x, some x ∈ levels → x ≠ 0)
    (hlast : ((if adjacent then some prior else none) :: levels).getLast? = some (some z)) :
    compounded (pctChanges ((if adjacent then some prior else none) :: levels)) * overAbsent adjacent prior levels
      = z / prior := by
  induction levels generalizing adjacent prior with
  | nil =>
    cases adjacent with
    | false => simp at hlast
    | true =>
      obtain rfl : prior = z := by simpa using hlast
      simp [pctChanges, overAbsent, hprior]
  | cons level rest ih =>
    have hrest : ∀ x, some x ∈ rest → x ≠ 0 := fun x hx => hlevels x (mem_cons_of_mem _ hx)
    cases level with
    | none =>
      have hstep := ih false hprior hrest (by simpa using hlast)
      rw [← hstep]
      cases adjacent <;> simp [overAbsent]
    | some y =>
      have hy : y ≠ 0 := hlevels y mem_cons_self
      have hstep := ih true hy hrest (by simpa using hlast)
      have hway : z / prior = y / prior * (z / y) := by field_simp
      rw [hway, ← hstep]
      cases adjacent <;> simp [overAbsent] <;> ring

theorem prod_pairs {ι : Type} (level : ι → ℚ) {a : ι} {l : List ι} (h : ∀ d ∈ a :: l, level d ≠ 0) :
    ((((a :: l).zip l).map fun p => level p.2 / level p.1 - 1).map (1 + ·)).prod
      = level ((a :: l).getLast (cons_ne_nil a l)) / level a := by
  induction l generalizing a with
  | nil => simp [h a mem_cons_self]
  | cons b rest ih =>
    have hb : level b ≠ 0 := h b (mem_cons_of_mem _ mem_cons_self)
    rw [zip_cons_cons, map_cons, map_cons, prod_cons, ih fun d hd => h d (mem_cons_of_mem _ hd),
      getLast_cons (cons_ne_nil b rest)]
    field_simp; ring

theorem starts_eq_ends {ι β : Type} (f : ι → β) (l : List ι) :
    ((l.zip l.tail).map fun p => f p.1).tail = ((l.zip l.tail).map fun p => f p.2).dropLast := by
  induction l with
  | nil => rfl
  | cons a l ih =>
    cases l with
    | nil => rfl
    | cons b rest =>
      cases rest with
      | nil => rfl
      | cons c rest => simpa using ih

/-! ## The ends of a ledger -/

section Ledger

variable {rows} {first last : LedgerRow}

theorem lastEquity_last (hlast : rows.getLast? = some last) :
    lastEquity rows (dayOf last.bar) = some last.equity := by
  obtain ⟨front, rfl⟩ := getLast?_eq_some_iff.mp hlast; simp [lastEquity, filter_append]

theorem lastEquity_mem {day : ℤ} {x : ℚ} (h : lastEquity rows day = some x) : ∃ r ∈ rows, r.equity = x := by
  obtain ⟨r, hr, rfl⟩ := Option.map_eq_some_iff.mp h
  exact ⟨r, mem_of_mem_filter (mem_of_getLast? hr), rfl⟩

theorem isSome_lastEquity {r : LedgerRow} (hr : r ∈ rows) : (lastEquity rows (dayOf r.bar)).isSome = true := by
  rw [lastEquity, Option.isSome_map, getLast?_isSome]
  exact ne_nil_of_mem (mem_filter.mpr ⟨hr, by simp⟩)

theorem dayLevel_pos (hpos : ∀ r ∈ rows, 0 < r.equity) {day : ℤ} (hday : day ∈ ledgerDays rows) :
    0 < dayLevel rows day := by
  simp only [ledgerDays, mem_sortBy, mem_dedup, mem_map] at hday
  obtain ⟨r, hr, rfl⟩ := hday
  obtain ⟨x, hx⟩ := Option.isSome_iff_exists.mp (isSome_lastEquity hr)
  obtain ⟨r', hr', rfl⟩ := lastEquity_mem hx
  rw [dayLevel, hx]; exact hpos r' hr'

variable (hsorted : rows.Pairwise (·.bar < ·.bar)) (hfirst : rows.head? = some first)
  (hlast : rows.getLast? = some last)

include hsorted hfirst hlast

theorem dayOf_between (r : LedgerRow) (hr : r ∈ rows) :
    dayOf first.bar ≤ dayOf r.bar ∧ dayOf r.bar ≤ dayOf last.bar := by
  constructor
  · obtain ⟨rest, rfl⟩ := head?_eq_some_iff.mp hfirst
    rcases mem_cons.mp hr with rfl | hmem
    exacts [le_rfl, dayOf_mono (rel_of_pairwise_cons hsorted hmem).le]
  · obtain ⟨front, rfl⟩ := getLast?_eq_some_iff.mp hlast
    rcases mem_append.mp hr with hmem | hmem
    · exact dayOf_mono ((pairwise_append.mp hsorted).2.2 r hmem last mem_cons_self).le
    · rw [mem_singleton.mp hmem]

theorem dayLevels_ends :
    ∃ rest, dayLevels rows = some (dayLevel rows (dayOf first.bar)) :: rest
      ∧ (dayLevels rows).getLast? = some (some last.equity) := by
  have hle := (dayOf_between hsorted hfirst hlast last (mem_of_getLast? hlast)).1
  obtain ⟨n, hn⟩ := Int.le.dest hle
  have hlen : (dayOf last.bar - dayOf first.bar + 1).toNat = n + 1 := by omega
  have hlevel : lastEquity rows (dayOf first.bar) = some (dayLevel rows (dayOf first.bar)) := by
    obtain ⟨x, hx⟩ := Option.isSome_iff_exists.mp (isSome_lastEquity (mem_of_mem_head? (Option.mem_def.mpr hfirst)))
    rw [dayLevel, hx]; rfl
  unfold dayLevels
  rw [hfirst, hlast]
  dsimp only
  rw [hlen]
  refine ⟨(range n).map fun k : ℕ => lastEquity rows (dayOf first.bar + (k + 1 : ℕ)), ?_, ?_⟩
  · rw [range_succ_eq_map, map_cons, map_map, Nat.cast_zero, add_zero, hlevel]; rfl
  · rw [range_succ, map_append, map_singleton, getLast?_concat, hn, lastEquity_last hlast]

theorem fold_mul_absentJumps (hpos : ∀ r ∈ rows, 0 < r.equity) :
    compounded (pctChanges (dayLevels rows)) * absentJumps rows
      = last.equity / dayLevel rows (dayOf first.bar) := by
  obtain ⟨rest, hlevels, hend⟩ := dayLevels_ends hsorted hfirst hlast
  have hne : ∀ x, some x ∈ dayLevels rows → x ≠ 0 := by
    intro x hx
    unfold dayLevels at hx
    rw [hfirst, hlast] at hx
    obtain ⟨k, -, hk⟩ := mem_map.mp hx
    obtain ⟨r, hr, rfl⟩ := lastEquity_mem hk; exact (hpos r hr).ne'
  rw [absentJumps]
  rw [hlevels] at hend hne ⊢
  exact compounded_mul_overAbsent true (hne _ mem_cons_self)
    (fun x hx => hne x (mem_cons_of_mem _ hx)) hend

theorem ledgerDays_ends :
    ∃ rest, ledgerDays rows = dayOf first.bar :: rest
      ∧ (dayOf first.bar :: rest).getLast (cons_ne_nil _ _) = dayOf last.bar := by
  have hbetween := dayOf_between hsorted hfirst hlast
  have hmem : ∀ {d : ℤ}, d ∈ ledgerDays rows ↔ ∃ r ∈ rows, dayOf r.bar = d := by simp [ledgerDays, mem_sortBy]
  have horder : (ledgerDays rows).Pairwise (· ≤ ·) := pairwise_sortBy _ _
  have hfirstday := hmem.mpr ⟨first, mem_of_mem_head? (Option.mem_def.mpr hfirst), rfl⟩
  have hlastday := hmem.mpr ⟨last, mem_of_getLast? hlast, rfl⟩
  -- the days are sorted, so the first and the last of them are the extreme ones
  cases hdays : ledgerDays rows with
  | nil => rw [hdays] at hfirstday; cases hfirstday
  | cons d rest =>
    rw [hdays] at hmem horder hfirstday hlastday
    have hd : d = dayOf first.bar := by
      obtain ⟨r, hr, rfl⟩ := hmem.mp mem_cons_self
      refine le_antisymm ?_ (hbetween r hr).1
      rcases mem_cons.mp hfirstday with heq | hrest
      exacts [heq.ge, rel_of_pairwise_cons horder hrest]
    subst hd
    refine ⟨rest, rfl, ?_⟩
    obtain ⟨r, hr, hrday⟩ := hmem.mp (getLast_mem (cons_ne_nil (dayOf first.bar) rest))
    refine le_antisymm (hrday ▸ (hbetween r hr).2) ?_
    rw [← dropLast_concat_getLast (cons_ne_nil (dayOf first.bar) rest)] at horder hlastday
    rcases mem_append.mp hlastday with hfront | hend
    · exact (pairwise_append.mp horder).2.2 _ hfront _ mem_cons_self
    · exact (mem_singleton.mp hend).le

/-- **The evidence compounds to the ledger from the first day on.** -/
theorem evidence_compounds (hpos : ∀ r ∈ rows, 0 < r.equity) {available : List ℤ}
    (hlength : available.length = rows.length) (havailable : ∀ p ∈ rows.zip available, p.1.bar ≤ p.2)
    (hdays : dayOf first.bar < dayOf last.bar) :
    ∃ evidence, inventoryDailyEvidence rows available = .ok evidence
      ∧ (evidence.returns.map (1 + ·)).prod = last.equity / dayLevel rows (dayOf first.bar)
      ∧ evidence.labelStart.tail = evidence.labelEnd.dropLast := by
  obtain ⟨rest, hrest, hend⟩ := ledgerDays_ends hsorted hfirst hlast
  have hpositive : ∀ d ∈ dayOf first.bar :: rest, 0 < dayLevel rows d := fun d hd =>
    dayLevel_pos hpos (hrest ▸ hd)
  have hlong : ¬ (dayOf first.bar :: rest).length < 2 := by
    cases rest with
    | nil => exact absurd hend hdays.ne
    | cons => simp
  -- none of the checks refuses such a ledger
  have hpass : ¬ (rows = [] ∨ ¬ rows.Pairwise (·.bar < ·.bar) ∨ available.length ≠ rows.length
      ∨ (∃ p ∈ rows.zip available, p.2 < p.1.bar) ∨ (ledgerDays rows).length < 2
      ∨ ∃ p ∈ (ledgerDays rows).zip (ledgerDays rows).tail, dayLevel rows p.1 ≤ 0) := by
    rw [hrest]
    rintro (rfl | h | h | ⟨p, hp, h⟩ | h | ⟨p, hp, h⟩)
    · cases hfirst
    · exact h hsorted
    · exact h hlength
    · exact absurd (havailable p hp) h.not_ge
    · exact hlong h
    · exact absurd (hpositive _ (of_mem_zip hp).1) h.not_gt
  rw [inventoryDailyEvidence, if_neg hpass]
  refine ⟨_, rfl, ?_, starts_eq_ends _ _⟩
  have hlevel : dayLevel rows (dayOf last.bar) = last.equity := by
    rw [dayLevel, lastEquity_last hlast]; rfl
  rw [hrest, tail_cons, prod_pairs _ fun d hd => (hpositive d hd).ne', hend, hlevel]

/-- **The daily returns compound to the ledger exactly if nothing happens on the first day or over
absent days**: the first day ends at the initial equity, and the jumps over absent days undo each
other. -/
theorem daily_returns_compound_iff (hpos : ∀ r ∈ rows, 0 < r.equity) {initialEquity : ℚ}
    (hinitial : 0 < initialEquity) : ReturnsCompound rows first last initialEquity
      ↔ dayLevel rows (dayOf first.bar) = initialEquity ∧ absentJumps rows = 1 := by
  have hequity : last.equity ≠ 0 := (hpos last (mem_of_getLast? hlast)).ne'
  have hfold := fold_mul_absentJumps hsorted hfirst hlast hpos
  -- the daily series has one return more than the fold, that of the first day
  have hdaily : inventoryDailyReturns rows initialEquity
      = .ok (some (dayLevel rows (dayOf first.bar) / initialEquity - 1) :: pctChanges (dayLevels rows)) := by
    obtain ⟨rest, hrest, -⟩ := dayLevels_ends hsorted hfirst hlast
    rw [inventoryDailyReturns, if_neg hinitial.not_ge, hrest]; rfl
  have hinventory :
      compounded (some (dayLevel rows (dayOf first.bar) / initialEquity - 1) :: pctChanges (dayLevels rows))
      = dayLevel rows (dayOf first.bar) / initialEquity * compounded (pctChanges (dayLevels rows)) := by
    rw [compounded_some, add_sub_cancel]
  constructor
  · rintro ⟨hwhole, ⟨daily, hok, hdailyWhole⟩, -⟩
    replace hwhole : compounded (pctChanges (dayLevels rows)) = last.equity / initialEquity := hwhole
    obtain rfl := ok.inj (hdaily.symm.trans hok)
    have hratio : last.equity / initialEquity ≠ 0 := div_ne_zero hequity hinitial.ne'
    rw [hinventory, hwhole] at hdailyWhole
    -- the two products differ by the first return alone, so it is zero
    have hday : dayLevel rows (dayOf first.bar) = initialEquity :=
      (div_eq_one_iff_eq hinitial.ne').mp (mul_right_cancel₀ hratio (hdailyWhole.trans (one_mul _).symm))
    rw [hwhole, hday] at hfold; exact ⟨hday, mul_left_cancel₀ hratio (hfold.trans (mul_one _).symm)⟩
  · rintro ⟨hday, hjumps⟩
    rw [hjumps, mul_one, hday] at hfold
    refine ⟨hfold, ⟨_, hdaily, ?_⟩, fun available hlength havailable hdays =>
      evidence_compounds hsorted hfirst hlast hpos hlength havailable hdays⟩
    rw [hinventory, hday, div_self hinitial.ne', one_mul, hfold]

end Ledger

/-! ## Two ledgers of two days -/

def dayRow (day : ℤ) (equity : ℚ) : LedgerRow := ⟨day * dayNs, equity, 0, 0, 0, 0⟩

theorem flat_first_day_compounds :
    ReturnsCompound [dayRow 0 1, dayRow 1 2] (dayRow 0 1) (dayRow 1 2) 1 :=
  (daily_returns_compound_iff (by decide) rfl rfl (by decide) (by decide)).mpr ⟨by decide, by decide +kernel⟩

/-- Half of the equity is lost on the first day. -/
theorem first_day_loss_dropped :
    ((foldDailyReturns [dayRow 0 (1 / 2), dayRow 1 (1 / 2)]).map (1 + ·)).prod = 1
      ∧ ¬ ReturnsCompound [dayRow 0 (1 / 2), dayRow 1 (1 / 2)] (dayRow 0 (1 / 2)) (dayRow 1 (1 / 2)) 1 :=
  ⟨by decide +kernel, fun h => absurd h.fold (by decide +kernel)⟩

end CryptoPilot.Engine
