/- # FundingSplit — one accrual, or the same accrual in two.

`accrue_funding_by_watermark` starts a symbol at its watermark, or, when it has none, at the
beginning of the holding that the history ends with.  An accrual in between leaves a watermark
behind, so that where the next one starts depends on whether there was one. -/
import CryptoPilot.Lib.Timeline
import CryptoPilot.Live.FundingWalks

namespace CryptoPilot.Live

open CryptoPilot.Lib List Option Prod Except

/-! ## Holdings -/

section Holdings

variable {history later pre post zeros : List PositionSnapshot} {symbol : String}
  {x z : PositionSnapshot} {since : ℚ}

theorem last_holding (history : List PositionSnapshot) (symbol : String) :
    (∀ y ∈ history, y.held symbol = 0) ∨
    ∃ pre x zeros, history = pre ++ x :: zeros ∧ x.held symbol ≠ 0 ∧ ∀ y ∈ zeros, y.held symbol = 0 := by
  induction history with
  | nil => exact .inl fun y hy => absurd hy not_mem_nil
  | cons y rest ih =>
    rcases ih with hflat | ⟨pre, x, zeros, rfl, hx, hzeros⟩
    · by_cases hy : y.held symbol = 0
      · exact .inl (forall_mem_cons.mpr ⟨hy, hflat⟩)
      · exact .inr ⟨[], y, rest, rfl, hy, hflat⟩
    · exact .inr ⟨y :: pre, x, zeros, rfl, hx, hzeros⟩

theorem releasedFrom_none : ∀ {rest : List PositionSnapshot} {after : Option ℚ}, (∀ y ∈ rest, y.held symbol = 0) →
    releasedFrom symbol after rest = none
  | [], _, _ => rfl
  | y :: rest, after, h => by
    obtain ⟨hy, hrest⟩ := forall_mem_cons.mp h
    rw [releasedFrom, if_neg (not_not.mpr hy), releasedFrom_none hrest]

theorem releasedFrom_append : ∀ {zeros rest : List PositionSnapshot} {after : Option ℚ},
    (∀ y ∈ zeros, y.held symbol = 0) → releasedFrom symbol after (zeros ++ rest) =
      releasedFrom symbol ((zeros.getLast?.map PositionSnapshot.effectiveFrom).or after) rest
  | [], _, _, _ => rfl
  | y :: zeros, rest, after, h => by
    obtain ⟨hy, hzeros⟩ := forall_mem_cons.mp h
    rw [cons_append, releasedFrom, if_neg (not_not.mpr hy), releasedFrom_append hzeros]
    cases zeros with
    | nil => rfl
    | cons y' zeros =>
      obtain ⟨last, hlast⟩ : ∃ last, (y' :: zeros).getLast? = some last := ⟨_, getLast?_cons⟩; rfl

theorem releasedAt_of_last (hx : x.held symbol ≠ 0) (hzeros : ∀ y ∈ z :: zeros, y.held symbol = 0) :
    releasedAt (pre ++ x :: z :: zeros) symbol = some z.effectiveFrom := by
  have hrev : (pre ++ x :: z :: zeros).reverse = (zeros.reverse ++ [z]) ++ x :: pre.reverse := by simp
  rw [releasedAt, hrev, releasedFrom_append fun y hy => hzeros y (by simpa [or_comm] using hy)]
  simp [releasedFrom, hx]

theorem releasedAt_flat (h : ∀ y ∈ history, y.held symbol = 0) : releasedAt history symbol = none :=
  releasedFrom_none fun y hy => h y (mem_reverse.mp hy)

theorem heldSinceFrom_append : ∀ {held rest : List PositionSnapshot} {start : ℚ}, (∀ y ∈ held, y.held symbol ≠ 0) →
    heldSinceFrom symbol start (held ++ rest) =
      heldSinceFrom symbol ((held.getLast?.map PositionSnapshot.effectiveFrom).getD start) rest
  | [], _, _, _ => rfl
  | y :: held, rest, start, h => by
    obtain ⟨hy, hheld⟩ := forall_mem_cons.mp h
    rw [cons_append, heldSinceFrom, if_neg hy, heldSinceFrom_append hheld]
    cases held with
    | nil => rfl
    | cons y' held =>
      obtain ⟨last, hlast⟩ : ∃ last, (y' :: held).getLast? = some last := ⟨_, getLast?_cons⟩; rfl

theorem heldSinceFrom_mem : ∀ {rest : List PositionSnapshot} {start : ℚ},
    heldSinceFrom symbol start rest = start ∨ ∃ y ∈ rest, heldSinceFrom symbol start rest = y.effectiveFrom
  | [], _ => .inl rfl
  | y :: rest, start => by
    rw [heldSinceFrom]
    split_ifs
    · exact .inl rfl
    · rcases heldSinceFrom_mem with h | ⟨y', hy', h⟩
      · exact .inr ⟨y, mem_cons_self, h⟩
      · exact .inr ⟨y', mem_cons_of_mem y hy', h⟩

theorem heldSinceFrom_stop (hz : z.held symbol = 0) : ∀ {rest : List PositionSnapshot} {start : ℚ} {post},
    heldSinceFrom symbol start (rest ++ z :: post) = heldSinceFrom symbol start rest
  | [], start, post => by simp [heldSinceFrom, hz]
  | y :: rest, start, post => by
    rw [cons_append, heldSinceFrom, heldSinceFrom]
    split_ifs
    · rfl
    · exact heldSinceFrom_stop hz

theorem heldSince_eq_some (h : heldSince history symbol = some since) :
    (∃ x ∈ history, x.effectiveFrom = since) ∧ ∃ last, history.getLast? = some last ∧ last.held symbol ≠ 0 := by
  rw [heldSince] at h
  split at h
  · cases h
  · next last earlier hrev =>
    split_ifs at h with hlast
    obtain rfl := Option.some.inj h
    have hmem : ∀ y ∈ last :: earlier, y ∈ history := fun y hy => mem_reverse.mp (hrev ▸ hy)
    refine ⟨?_, last, by rw [getLast?_eq_head?_reverse, hrev]; rfl, hlast⟩
    rcases heldSinceFrom_mem with h' | ⟨y, hy, h'⟩
    · exact ⟨last, hmem last mem_cons_self, h'.symm⟩
    · exact ⟨y, hmem y (mem_cons_of_mem last hy), h'.symm⟩

theorem heldSince_after (hz : z.held symbol = 0) (h : heldSince (pre ++ z :: post) symbol = some since) :
    heldSince post symbol = some since := by
  rw [heldSince] at h ⊢
  have hrev : (pre ++ z :: post).reverse = post.reverse ++ z :: pre.reverse := by simp
  rw [hrev] at h
  cases hpost : post.reverse with
  | nil => simp [hpost, hz] at h
  | cons last earlier =>
    rw [hpost] at h; simpa only [cons_append, heldSinceFrom_stop hz] using h

theorem heldSince_append_held (h : heldSince history symbol = some since)
    (hlater : ∀ y ∈ later, y.held symbol ≠ 0) :
    heldSince (history ++ later) symbol = some since := by
  rw [heldSince] at h ⊢
  rw [reverse_append]
  cases hrev : later.reverse with
  | nil => exact h
  | cons last earlier =>
    have hheld : ∀ y ∈ last :: earlier, y.held symbol ≠ 0 := fun y hy => hlater y (mem_reverse.mp (hrev ▸ hy))
    cases hhist : history.reverse with
    | nil => rw [hhist] at h; cases h
    | cons x rest =>
      rw [hhist] at h
      simp only at h
      split_ifs at h with hx
      simp only [cons_append, if_neg (hheld last mem_cons_self)]
      rw [← h, heldSinceFrom_append fun y hy => hheld y (mem_cons_of_mem last hy), heldSinceFrom, if_neg hx]

theorem heldSince_isSome (h : heldSince history symbol = some since) : listed history symbol = true := by
  by_contra hnot
  rw [heldSince_of_not_listed (Bool.not_eq_true _ ▸ hnot)] at h; cases h

end Holdings

/-! ## One symbol -/

/-- An accrual with no delivery announced (`closed_at` is not given). -/
def accrualAt (history : List PositionSnapshot) (watermarks : Dict ℚ) (funding closes : Dict Series) (now : ℚ) :
    AccrualInput where
  history := history
  watermarks := watermarks
  funding := funding
  closes := closes
  now := now
  closedAt := ∅

/-- Where the next accrual starts a symbol does not depend on one in between: a watermarked symbol
not listed then is not held again, and a symbol held then without a watermark is held throughout. -/
def Seamless (history later : List PositionSnapshot) (watermarked : Finset String) (symbol : String) : Prop :=
  if symbol ∈ watermarked then
    listed history symbol = true ∨
      (∀ snap ∈ later, snap.held symbol = 0) ∧ listed (history ++ later) symbol = false
  else heldSince history symbol = none ∨ heldSince (history ++ later) symbol = heldSince history symbol

section Symbols

variable {history later : List PositionSnapshot} {symbol : String} {watermarks : Dict ℚ}
  {funding closes : Dict Series}
  {now w reached : ℚ} {events : List FundingEvent} {turn : Option SymbolAccrual}

theorem watermarkOf_at : (accrualAt history watermarks funding closes now).watermarkOf symbol =
    (watermarks.lookup symbol).or (heldSince history symbol) := rfl

theorem window_at : (accrualAt history watermarks funding closes now).window symbol w =
    ((funding.lookup symbol).map (accrualWindow w now)).getD [] := by
  rw [AccrualInput.window]
  cases hfunding : (accrualAt history watermarks funding closes now).funding.lookup symbol with
  | none => rw [show funding.lookup symbol = none from hfunding]; rfl
  | some series => rw [show funding.lookup symbol = some series from hfunding]; rfl

section

variable (hstart : (accrualAt history watermarks funding closes now).watermarkOf symbol = some w)

include hstart

theorem accrueSymbol_of_walk (hwalk : accrueWindow history symbol (closes.lookup symbol) w
      ((accrualAt history watermarks funding closes now).window symbol w) = .ok (reached, events)) :
    ∃ turn, accrueSymbol (accrualAt history watermarks funding closes now) symbol = .ok turn ∧
      charged turn = events ∧
      marked turn = if listed history symbol || unreachedRelease history symbol reached then some
        reached else none := by
  have hturn : accrueSymbol (accrualAt history watermarks funding closes now) symbol =
      (accrueWindow history symbol (closes.lookup symbol) w
        ((accrualAt history watermarks funding closes now).window symbol w) >>= fun walked => .ok (some {
          symbol := symbol, watermark := walked.1, events := walked.2,
          interval := fundingInterval (funding.lookup symbol),
          kept := listed history symbol || false || unreachedRelease history symbol walked.1,
          lag := if !false && (listed history symbol || unreachedRelease history symbol walked.1)
            then some (now - walked.1) else none })) := by
    rw [accrueSymbol, hstart]; rfl
  rw [hturn, hwalk]; exact ⟨_, rfl, rfl, by simp [marked]⟩

theorem accrueSymbol_walk (h : accrueSymbol (accrualAt history watermarks funding closes now) symbol = .ok turn) :
    ∃ reached events, accrueWindow history symbol (closes.lookup symbol) w
      ((accrualAt history watermarks funding closes now).window symbol w) = .ok (reached, events) := by
  rw [accrueSymbol, hstart] at h
  obtain ⟨⟨reached, events⟩, hwalk, -⟩ := bind_eq_ok.mp h; exact ⟨reached, events, hwalk⟩

end

theorem accrueSymbol_unstarted
    (hstart : (accrualAt history watermarks funding closes now).watermarkOf symbol = none) :
    accrueSymbol (accrualAt history watermarks funding closes now) symbol = .ok none := by
  rw [accrueSymbol, hstart]

theorem accrueSymbol_congr {watermarks' : Dict ℚ}
    (h : (accrualAt history watermarks funding closes now).watermarkOf symbol =
      (accrualAt history watermarks' funding closes now).watermarkOf symbol) :
    accrueSymbol (accrualAt history watermarks funding closes now) symbol =
      accrueSymbol (accrualAt history watermarks' funding closes now) symbol := by
  rw [accrueSymbol, h]; rfl

theorem accrueWindow_flat {closes : Option Series} {window : Series} :
    ∀ {w reached : ℚ} {events : List FundingEvent},
      (∀ p ∈ window, ∀ qty, positionAt history symbol p.1 = .ok qty → qty = 0) →
      accrueWindow history symbol closes w window = .ok (reached, events) → events = [] := by
  induction window with
  | nil =>
    intro w reached events _ h
    rw [accrueWindow, ok.injEq, mk.injEq] at h; exact h.2.symm
  | cons p rest ih =>
    intro w reached events hflat h
    rw [accrueWindow, bind_eq_ok] at h
    obtain ⟨qty, hqty, h⟩ := h
    have hzero : qty = 0 := hflat p mem_cons_self qty hqty
    rw [if_neg (not_not.mpr hzero)] at h; exact ih (fun q hq => hflat q (mem_cons_of_mem p hq)) h

theorem positionAt_released (hsorted : (history ++ later).Pairwise fun x y => x.effectiveFrom ≤ y.effectiveFrom)
    (hflat : ∀ snap ∈ later, snap.held symbol = 0) (hlisted : listed history symbol = false)
    (hreached : unreachedRelease history symbol reached = false) {epoch qty : ℚ} (he : reached < epoch)
    (h : positionAt (history ++ later) symbol epoch = .ok qty) : qty = 0 := by
  rw [positionAt] at h
  split at h
  · cases h
  · next snap hsnap =>
    obtain rfl := ok.inj h
    have hmem : snap ∈ history ++ later := ( takeWhile_prefix _).subset (mem_of_getLast? hsnap)
    rcases last_holding history symbol with hnever | ⟨pre, x, zeros, rfl, hx, hzeros⟩
    · rcases mem_append.mp hmem with hmem | hmem
      · exact hnever snap hmem
      · exact hflat snap hmem
    · cases zeros with
      | nil => exact absurd (held_of_not_listed hlisted (by simp)) hx
      | cons z zeros =>
        -- the release is in force, and everything after it is flat
        rw [unreachedRelease, releasedAt_of_last hx hzeros] at hreached
        have hz : z.effectiveFrom < epoch := lt_of_le_of_lt (not_lt.mp (by simpa using hreached)) he
        rw [append_assoc, cons_append, cons_append] at hsnap hsorted
        have hbefore : ∀ y ∈ pre ++ [x], y.effectiveFrom < epoch := by
          intro y hy
          have hle := (pairwise_append.mp (show ((pre ++ [x]) ++ (z :: (zeros ++ later))).Pairwise _ by
            simpa using hsorted)).2.2 y hy z mem_cons_self
          exact lt_of_le_of_lt hle hz
        have htake : (pre ++ x :: z :: (zeros ++ later)).takeWhile (fun y => decide (y.effectiveFrom < epoch)) =
            (pre ++ [x]) ++ z :: (zeros ++ later).takeWhile fun y => decide (y.effectiveFrom < epoch) := by
          rw [show pre ++ x :: z :: (zeros ++ later) = (pre ++ [x]) ++ z :: (zeros ++ later) by simp,
            takeWhile_append_of_pos fun y hy => decide_eq_true (hbefore y hy),
            takeWhile_cons, if_pos (decide_eq_true hz)]
        rw [htake, getLast?_append_of_ne_nil _ (cons_ne_nil _ _)] at hsnap
        rcases mem_cons.mp (mem_of_getLast? hsnap) with rfl | hmem
        · exact hzeros snap mem_cons_self
        · rcases mem_append.mp (( takeWhile_prefix _).subset hmem) with hmem | hmem
          · exact hzeros snap (mem_cons_of_mem z hmem)
          · exact hflat snap hmem

theorem unreachedRelease_mono {later_reached : ℚ} (hle : reached ≤ later_reached)
    (h : unreachedRelease history symbol reached =
      false) : unreachedRelease history symbol later_reached = false := by
  rw [unreachedRelease] at h ⊢
  cases hreleased : releasedAt history symbol with
  | none => rfl
  | some released =>
    rw [hreleased] at h
    have hreached : released ≤ reached := not_lt.mp (by simpa using h)
    simpa using hreached.trans hle

theorem unreachedRelease_append (hflat : ∀ snap ∈ later, snap.held symbol = 0)
    (hlisted : listed history symbol = false) :
    unreachedRelease (history ++ later) symbol reached = unreachedRelease history symbol reached := by
  have hreleased : releasedAt (history ++ later) symbol = releasedAt history symbol := by
    rcases last_holding history symbol with hnever | ⟨pre, x, zeros, rfl, hx, hzeros⟩
    · rw [releasedAt_flat hnever, releasedAt_flat fun y hy => (mem_append.mp hy).elim (hnever y) (hflat y)]
    · cases zeros with
      | nil => exact absurd (held_of_not_listed hlisted (by simp)) hx
      | cons z zeros =>
        rw [releasedAt_of_last hx hzeros, append_assoc]
        refine releasedAt_of_last hx fun y hy => ?_
        rcases mem_cons.mp hy with rfl | hy
        · exact hzeros y mem_cons_self
        · exact (mem_append.mp hy).elim (fun hy => hzeros y (mem_cons_of_mem z hy)) (hflat y)
  rw [unreachedRelease, unreachedRelease, hreleased]

end Symbols

/-! ## Two accruals -/

section Splits

variable {history later : List PositionSnapshot} {symbol : String} {watermarked : Finset String}
  {watermarks : Dict ℚ} {funding₁ funding₂ closes₁ closes₂ : Dict Series} {t₁ t₂ : ℚ}

section

variable (hfunding : Grows funding₁ funding₂)

include hfunding

theorem window_grown (ht : t₁ ≤ t₂) (w : ℚ) :
    (accrualAt history watermarks funding₁ closes₁ t₁).window symbol w <+:
      (accrualAt (history ++ later) watermarks funding₂ closes₂ t₂).window symbol w := by
  rw [window_at, window_at]
  cases h : funding₁.lookup symbol with
  | none => exact nil_prefix
  | some series =>
    obtain ⟨series', h', harrived⟩ := hfunding.arrived symbol series h
    rw [h']; exact accrualWindow_prefix harrived (hfunding.ordered symbol series' h') ht

theorem window_ordered (w : ℚ) :
    ((accrualAt history watermarks funding₂ closes₂ t₂).window symbol w).Pairwise fun p q => p.1 < q.1 := by
  rw [window_at]
  cases h : funding₂.lookup symbol with
  | none => exact List.Pairwise.nil
  | some series =>
    have hordered := hfunding.ordered symbol series h
    show (accrualWindow w t₂ series).Pairwise _
    rw [accrualWindow_ordered hordered]; exact hordered.sublist filter_sublist

theorem window_from {w between : ℚ} (h : w ≤ between) (watermarks' : Dict ℚ) :
    (accrualAt history watermarks' funding₂ closes₂ t₂).window symbol between =
      ((accrualAt history watermarks funding₂ closes₂ t₂).window symbol w).filter fun p =>
        decide (between < p.1) := by
  rw [window_at, window_at]
  cases hf : funding₂.lookup symbol with
  | none => rfl
  | some series => exact accrualWindow_from (hfunding.ordered symbol series hf) h

section

variable (hcloses : Grows closes₁ closes₂) (ht : t₁ ≤ t₂)

include hcloses ht

theorem walk_split (hlater : ∀ snap ∈ later, t₁ ≤ snap.effectiveFrom) {w reached : ℚ} {events : List FundingEvent}
    (hwalk : accrueWindow (history ++ later) symbol (closes₂.lookup symbol) w
      ((accrualAt (history ++ later) watermarks funding₂ closes₂ t₂).window symbol w) = .ok (reached, events)) :
    ∃ between first second,
      accrueWindow history symbol (closes₁.lookup symbol) w
        ((accrualAt history watermarks funding₁ closes₁ t₁).window symbol w) = .ok (between, first) ∧
      accrueWindow (history ++ later) symbol (closes₂.lookup symbol) between
        (((accrualAt (history ++ later) watermarks funding₂ closes₂ t₂).window symbol w).filter
          fun p => decide (between < p.1)) = .ok (reached, second) ∧
      w ≤ between ∧ events = first ++ second := by
  refine accrueWindow_split (window_grown hfunding ht w) (window_ordered hfunding w)
    (fun p hp => (AccrualInput.mem_window hp).1) (fun p hp => ?_) (fun p _ px hpx => ?_) hwalk
  · have hle := (AccrualInput.mem_window hp).2
    exact (positionAt_append hlater (hle.trans (AccrualInput.upper_le_now _ _))).symm
  · cases h : closes₁.lookup symbol with
    | none => simp [h, closeAt] at hpx
    | some series =>
      obtain ⟨series', h', harrived⟩ := hcloses.arrived symbol series h
      rw [h] at hpx
      rw [h']; exact closeAt_grown harrived hpx

section

variable (hsorted : (history ++ later).Pairwise fun x y => x.effectiveFrom ≤ y.effectiveFrom)
  (hlater : ∀ snap ∈ later, t₁ ≤ snap.effectiveFrom)

include hsorted hlater

variable {turn : Option SymbolAccrual}

theorem turn_split_started {w : ℚ}
    (hstart : (watermarks.lookup symbol).or (heldSince history symbol) = some w)
    (hstart' : (watermarks.lookup symbol).or (heldSince (history ++ later) symbol) = some w)
    (hseamless : listed history symbol = true ∨ (∀ snap ∈ later, snap.held symbol = 0) ∧
      listed (history ++ later) symbol = false)
    (hone : accrueSymbol (accrualAt (history ++ later) watermarks funding₂ closes₂ t₂) symbol = .ok turn) :
    ∃ first, accrueSymbol (accrualAt history watermarks funding₁ closes₁ t₁) symbol = .ok first ∧
      ∀ marks : Dict ℚ, marks.lookup symbol = marked first →
        ∃ second, accrueSymbol (accrualAt (history ++ later) marks funding₂ closes₂ t₂) symbol = .ok second ∧
          charged turn = charged first ++ charged second ∧ marked second = marked turn := by
  obtain ⟨reached, events, hwalk⟩ := accrueSymbol_walk hstart' hone
  obtain ⟨turn', hturn', hcharged, hmarked⟩ := accrueSymbol_of_walk hstart' hwalk
  obtain rfl : turn' = turn := ok.inj (hturn'.symm.trans hone)
  obtain ⟨between, first, second, hfirst, hsecond, hle, rfl⟩ := walk_split hfunding hcloses ht hlater hwalk
  obtain ⟨turn₁, hturn₁, hcharged₁, hmarked₁⟩ := accrueSymbol_of_walk hstart hfirst
  refine ⟨turn₁, hturn₁, fun marks hmarks => ?_⟩
  by_cases hkept : (listed history symbol || unreachedRelease history symbol between) = true
  · -- the second accrual goes on from the watermark
    rw [hmarked₁, if_pos hkept] at hmarks
    have hstart₂ : (accrualAt (history ++ later) marks funding₂ closes₂ t₂).watermarkOf symbol = some between := by
      rw [watermarkOf_at, hmarks]; rfl
    rw [← window_from hfunding hle marks] at hsecond
    obtain ⟨turn₂, hturn₂, hcharged₂, hmarked₂⟩ := accrueSymbol_of_walk hstart₂ hsecond
    exact ⟨turn₂, hturn₂, by rw [hcharged, hcharged₁, hcharged₂], hmarked₂.trans hmarked.symm⟩
  · -- the symbol was settled to its release, and is flat from there on
    obtain ⟨hlisted, hreached⟩ : listed history symbol = false ∧
      unreachedRelease history symbol between = false := by
      simpa using hkept
    obtain ⟨hflat, hend⟩ := hseamless.resolve_left (by simp [hlisted])
    rw [hmarked₁, if_neg hkept] at hmarks
    have hstart₂ : (accrualAt (history ++ later) marks funding₂ closes₂ t₂).watermarkOf symbol = none := by
      rw [watermarkOf_at, hmarks, heldSince_of_not_listed hend]; rfl
    have hsecond_nil : second = [] := by
      refine accrueWindow_flat (fun p hp qty hqty => ?_) hsecond
      exact positionAt_released hsorted hflat hlisted hreached (by simpa using (mem_filter.mp hp).2) hqty
    have hwindow : ∀ p ∈ ((accrualAt (history ++ later) watermarks funding₂ closes₂ t₂).window symbol w).filter
        fun p => decide (between < p.1), between ≤ p.1 := fun p hp =>
      (show between < p.1 by simpa using (mem_filter.mp hp).2).le
    have hmonotone : between ≤ reached :=
      (accrueWindow_eq_ok hwindow (((window_ordered hfunding w).sublist filter_sublist).imp fun h
        => h.le) hsecond).1
    have hsettled : unreachedRelease (history ++ later) symbol reached = false := by
      rw [unreachedRelease_append hflat hlisted]; exact unreachedRelease_mono hmonotone hreached
    refine ⟨none, accrueSymbol_unstarted hstart₂, ?_, ?_⟩
    · rw [hcharged, hcharged₁, hsecond_nil]; rfl
    · rw [hmarked, hend, hsettled]; rfl

/-- **One symbol**: where nothing depends on the accrual in between, two accruals charge what one
does. -/
theorem turn_split (hkeys : ∀ s, (watermarks.lookup s).isSome = true ↔ s ∈ watermarked)
    (hseamless : Seamless history later watermarked symbol)
    (hone : accrueSymbol (accrualAt (history ++ later) watermarks funding₂ closes₂ t₂) symbol = .ok turn) :
    ∃ first, accrueSymbol (accrualAt history watermarks funding₁ closes₁ t₁) symbol = .ok first ∧
      ∀ marks : Dict ℚ, marks.lookup symbol = marked first →
        ∃ second, accrueSymbol (accrualAt (history ++ later) marks funding₂ closes₂ t₂) symbol = .ok second ∧
          charged turn = charged first ++ charged second ∧ marked second = marked turn := by
  rw [Seamless] at hseamless
  cases hlookup : watermarks.lookup symbol with
  | some w =>
    rw [if_pos ((hkeys symbol).mp (by rw [hlookup]; rfl))] at hseamless
    exact turn_split_started hfunding hcloses ht hsorted hlater (by rw [hlookup]; rfl) (by rw [hlookup]; rfl)
      hseamless hone
  | none =>
    rw [if_neg fun hin => by simpa [hlookup] using (hkeys symbol).mpr hin] at hseamless
    cases hheld : heldSince history symbol with
    | some since =>
      rw [hheld] at hseamless
      have hsame := hseamless.resolve_left (some_ne_none since)
      exact turn_split_started hfunding hcloses ht hsorted hlater (by rw [hlookup, hheld]; rfl)
        (by rw [hlookup, hsame]; rfl) (.inl (heldSince_isSome hheld)) hone
    | none =>
      -- the first accrual does not see the symbol
      refine ⟨none, accrueSymbol_unstarted (by rw [watermarkOf_at, hlookup, hheld]; rfl), fun marks hmarks => ?_⟩
      refine ⟨turn, ?_, rfl, rfl⟩
      rw [← hone]
      refine accrueSymbol_congr ?_
      rw [watermarkOf_at, watermarkOf_at, hmarks, hlookup]; rfl

end

end

end

theorem accrueWindow_epochs {closes : Option Series} {window : Series} :
    ∀ {w reached : ℚ} {events : List FundingEvent},
      accrueWindow history symbol closes w window = .ok (reached, events) →
      (events.map FundingEvent.epoch).Sublist (window.map fst) ∧ ∀ ev ∈ events, ev.symbol = symbol := by
  induction window with
  | nil =>
    intro w reached events h
    obtain ⟨-, rfl⟩ := h; exact ⟨List.Sublist.slnil, fun ev hev => absurd hev not_mem_nil⟩
  | cons p rest ih =>
    intro w reached events h
    obtain ⟨epoch, rate⟩ := p
    rw [accrueWindow, bind_eq_ok] at h
    obtain ⟨qty, -, h⟩ := h
    have hnothing : ∀ {events : List FundingEvent}, events = [] →
        (events.map FundingEvent.epoch).Sublist (((epoch, rate) :: rest).map fst) ∧
          ∀ ev ∈ events, ev.symbol = symbol := by
      rintro _ rfl; exact ⟨nil_sublist _, fun ev hev => absurd hev not_mem_nil⟩
    split_ifs at h
    · split at h
      · obtain ⟨⟨reached', events'⟩, hrest, h⟩ := bind_eq_ok.mp h
        obtain ⟨rfl, rfl⟩ := h
        obtain ⟨hsub, hsymbol⟩ := ih hrest
        exact ⟨hsub.cons_cons epoch, forall_mem_cons.mpr ⟨rfl, hsymbol⟩⟩
      · simp only [ok.injEq, mk.injEq] at h; exact hnothing h.2.symm
    · obtain ⟨hsub, hsymbol⟩ := ih h; exact ⟨hsub.cons epoch, hsymbol⟩

theorem charged_ordered (hfunding : Grows funding₁ funding₂) {turn : Option SymbolAccrual}
    (h : accrueSymbol (accrualAt history watermarks funding₂ closes₂ t₂) symbol = .ok turn) :
    (charged turn).Pairwise (fun ev ev' => ev.epoch < ev'.epoch) ∧ ∀ ev ∈ charged turn, ev.symbol = symbol := by
  cases hstart : (accrualAt history watermarks funding₂ closes₂ t₂).watermarkOf symbol with
  | none =>
    obtain rfl := ok.inj ((accrueSymbol_unstarted hstart).symm.trans h)
    exact ⟨List.Pairwise.nil, fun ev hev => absurd hev not_mem_nil⟩
  | some w =>
    obtain ⟨reached, events, hwalk⟩ := accrueSymbol_walk hstart h
    obtain ⟨turn', hturn', hcharged, -⟩ := accrueSymbol_of_walk hstart hwalk
    obtain rfl : turn' = turn := ok.inj (hturn'.symm.trans h)
    obtain ⟨hsub, hsymbol⟩ := accrueWindow_epochs hwalk
    have hwindow : ((accrualAt history watermarks funding₂ closes₂ t₂).window symbol w).Pairwise
        fun p q => p.1 < q.1 := window_ordered hfunding w
    rw [hcharged]; exact ⟨pairwise_map.mp ((pairwise_map.mpr hwindow).sublist hsub), hsymbol⟩

end Splits

/-- The two accruals and the one: the same cash, the same watermarks, and no epoch charged twice. -/
structure SameAccrual (first second once : FundingAccrual) : Prop where
  cash : first.cashDelta + second.cashDelta = once.cashDelta
  watermarks : ∀ symbol, second.watermarks.lookup symbol = once.watermarks.lookup symbol
  apart : (first.events ++ second.events).Pairwise fun ev ev' => (ev.symbol, ev.epoch) ≠ (ev'.symbol, ev'.epoch)

/-- Accruing at `t₁` with what had arrived by then, and at `t₂` from the watermarks it returned, is
accruing once at `t₂`. -/
def SplitInvariant (history later : List PositionSnapshot) (watermarks : Dict ℚ)
    (funding₁ funding₂ closes₁ closes₂ : Dict Series) (t₁ t₂ : ℚ) : Prop :=
  ∀ once, accrueFundingByWatermark (accrualAt (history ++ later) watermarks funding₂ closes₂ t₂) = .ok once →
    ∃ first second,
      accrueFundingByWatermark (accrualAt history watermarks funding₁ closes₁ t₁) = .ok first ∧
      accrueFundingByWatermark (accrualAt (history ++ later) first.watermarks funding₂ closes₂ t₂) = .ok second ∧
      SameAccrual first second once

section Accruals

variable {history later : List PositionSnapshot} {watermarked : Finset String}
  {watermarks : Dict ℚ} {funding₁ funding₂ closes₁ closes₂ : Dict Series} {t₁ t₂ : ℚ}

theorem charges_apart {a b : AccrualInput} {first second : FundingAccrual}
    (hfirst : accrueFundingByWatermark a = .ok first) (hsecond : accrueFundingByWatermark b = .ok second)
    (hordered : ∀ s, (charged (a.turn s) ++ charged (b.turn s)).Pairwise fun ev ev' => ev.epoch < ev'.epoch)
    (hsymbol : ∀ s, ∀ ev ∈ charged (a.turn s) ++ charged (b.turn s), ev.symbol = s) :
    (first.events ++ second.events).Pairwise fun ev ev' => (ev.symbol, ev.epoch) ≠ (ev'.symbol, ev'.epoch) := by
  have happart : ∀ {charges : String → List FundingEvent} {symbols : List String}, symbols.Nodup →
      (∀ s, ∀ ev ∈ charges s, ev.symbol = s) → (∀ s, (charges s).Pairwise fun ev ev' => ev.epoch < ev'.epoch) →
      (symbols.flatMap charges).Pairwise fun ev ev' => (ev.symbol, ev.epoch) ≠ (ev'.symbol, ev'.epoch) := by
    intro charges symbols hnodup hof hlt
    rw [pairwise_flatMap]
    refine ⟨fun s _ => (hlt s).imp fun h heq => h.ne (mk.inj heq).2, hnodup.imp fun hne ev hev ev' hev' heq => ?_⟩
    exact hne ((hof _ ev hev).symm.trans ((mk.inj heq).1.trans (hof _ ev' hev')))
  rw [accrued_events hfirst, accrued_events hsecond]
  refine pairwise_append.mpr ⟨happart a.symbols_nodup (fun s ev hev => hsymbol s ev (mem_append_left _ hev))
    fun s => (pairwise_append.mp (hordered s)).1, happart b.symbols_nodup
    (fun s ev hev => hsymbol s ev (mem_append_right _ hev)) fun s => (pairwise_append.mp (hordered s)).2.1, ?_⟩
  intro ev hev ev' hev' heq
  obtain ⟨s, -, hev⟩ := mem_flatMap.mp hev
  obtain ⟨s', -, hev'⟩ := mem_flatMap.mp hev'
  obtain ⟨hsame, hepoch⟩ := mk.inj heq
  obtain rfl : s = s' := by
    rw [← hsymbol s ev (mem_append_left _ hev), hsame, hsymbol s' ev' (mem_append_right _ hev')]
  exact ((pairwise_append.mp (hordered s)).2.2 ev hev ev' hev').ne hepoch

theorem split_of_seamless (hfunding : Grows funding₁ funding₂) (hcloses : Grows closes₁ closes₂) (ht : t₁ ≤ t₂)
    (hsorted : (history ++ later).Pairwise fun x y => x.effectiveFrom ≤ y.effectiveFrom)
    (hlater : ∀ snap ∈ later, t₁ ≤ snap.effectiveFrom)
    (hkeys : ∀ s, (watermarks.lookup s).isSome = true ↔ s ∈ watermarked)
    (hseamless : ∀ symbol, Seamless history later watermarked symbol) :
    SplitInvariant history later watermarks funding₁ funding₂ closes₁ closes₂ t₁ t₂ := by
  intro once honce
  obtain ⟨hturns, -⟩ := turns_of_accrue honce
  have hsplit := fun s => turn_split hfunding hcloses ht hsorted hlater hkeys (hseamless s) (hturns s)
  obtain ⟨first, hfirst⟩ := exists_accrual fun s => (hsplit s).imp fun _ h => h.1
  -- the second accrual starts from the watermarks of the first
  have hnext : ∀ s, ∃ turn,
      accrueSymbol (accrualAt (history ++ later) first.watermarks funding₂ closes₂ t₂) s = .ok turn ∧
      charged ((accrualAt (history ++ later) watermarks funding₂ closes₂ t₂).turn s) =
        charged ((accrualAt history watermarks funding₁ closes₁ t₁).turn s) ++ charged turn ∧
      marked turn = marked ((accrualAt (history ++ later) watermarks funding₂ closes₂ t₂).turn s) := by
    intro s
    obtain ⟨turn, hturn, hnext⟩ := hsplit s
    rw [← AccrualInput.turn_eq hturn] at hnext
    exact hnext first.watermarks (accrued_watermark hfirst s)
  obtain ⟨second, hsecond⟩ := exists_accrual fun s => (hnext s).imp fun _ h => h.1
  have hcharged : ∀ s, charged ((accrualAt (history ++ later) watermarks funding₂ closes₂ t₂).turn s) =
      charged ((accrualAt history watermarks funding₁ closes₁ t₁).turn s) ++
        charged ((accrualAt (history ++ later) first.watermarks funding₂ closes₂ t₂).turn s) := by
    intro s
    obtain ⟨turn, hturn, hcharged, -⟩ := hnext s
    rw [AccrualInput.turn_eq hturn, hcharged]
  have hordered := fun s => charged_ordered hfunding (hturns s)
  refine ⟨first, second, hfirst, hsecond, ?_, fun s => ?_, charges_apart hfirst hsecond ?_ ?_⟩
  · let symbols := (accrualAt history watermarks funding₁ closes₁ t₁).symbols.toFinset ∪
      ((accrualAt (history ++ later) first.watermarks funding₂ closes₂ t₂).symbols.toFinset ∪
        (accrualAt (history ++ later) watermarks funding₂ closes₂ t₂).symbols.toFinset)
    rw [accrued_cash symbols hfirst (by intro s; simp [symbols]; tauto),
      accrued_cash symbols hsecond (by intro s; simp [symbols]; tauto),
      accrued_cash symbols honce (by intro s; simp [symbols]; tauto), ← Finset.sum_add_distrib]
    refine Finset.sum_congr rfl fun s _ => ?_
    rw [hcharged s]; simp [amountOf]
  · obtain ⟨turn, hturn, -, hmarked⟩ := hnext s
    rw [accrued_watermark hsecond, accrued_watermark honce, AccrualInput.turn_eq hturn, hmarked]
  · intro s
    rw [← hcharged s]; exact (hordered s).1
  · intro s ev hev
    rw [← hcharged s] at hev; exact (hordered s).2 ev hev

/-! ## Seams -/

theorem exists_uniform (watermarked : Finset String) (v : ℚ) :
    ∃ d : Dict ℚ, ∀ s, d.lookup s = if s ∈ watermarked then some v else none := by
  induction watermarked using Finset.induction_on with
  | empty => exact ⟨∅, fun s => by simp⟩
  | insert x rest _ ih =>
    obtain ⟨d, hd⟩ := ih
    refine ⟨d.insert x v, fun s => ?_⟩
    by_cases hs : s = x
    · subst hs; simp
    · rw [AList.lookup_insert_ne hs, hd s]; simp [hs]

theorem grows_refl_empty : Grows ∅ ∅ where
  arrived _ _ h := by simp at h
  ordered _ _ h := by simp at h

theorem grows_single (symbol : String) (p : ℚ × Option ℚ) : Grows ∅ ((∅ : Dict Series).insert symbol [p]) where
  arrived _ _ h := by simp at h
  ordered s series h := by
    by_cases hs : s = symbol
    · subst hs
      rw [AList.lookup_insert] at h
      obtain rfl := Option.some.inj h; exact pairwise_singleton _ _
    · rw [AList.lookup_insert_ne hs] at h; simp at h

variable {symbol : String} {funding closes : Dict Series}

theorem accrueSymbol_idle {t : ℚ}
    (hidle : ∀ w, (accrualAt history watermarks funding closes t).watermarkOf symbol = some w →
      (accrualAt history watermarks funding closes t).window symbol w = []) :
    ∃ turn, accrueSymbol (accrualAt history watermarks funding closes t) symbol = .ok turn ∧ charged turn = [] ∧
      marked turn = ((accrualAt history watermarks funding closes t).watermarkOf symbol).bind fun w =>
        if listed history symbol || unreachedRelease history symbol w then some w else none := by
  cases hstart : (accrualAt history watermarks funding closes t).watermarkOf symbol with
  | none => exact ⟨none, accrueSymbol_unstarted hstart, rfl, rfl⟩
  | some w =>
    have hwalk : accrueWindow history symbol (closes.lookup symbol) w
        ((accrualAt history watermarks funding closes t).window symbol w) = .ok (w, []) := by
      rw [hidle w hstart]; rfl
    exact accrueSymbol_of_walk hstart hwalk

theorem window_empty {t w : ℚ} (h : funding.lookup symbol = none) :
    (accrualAt history watermarks funding closes t).window symbol w = [] := by
  rw [window_at, h]; rfl

theorem releasedFrom_mem : ∀ {rest : List PositionSnapshot} {after : Option ℚ} {r : ℚ},
    releasedFrom symbol after rest = some r → after = some r ∨ ∃ y ∈ rest, y.effectiveFrom = r
  | [], _, _, h => by cases h
  | y :: rest, after, r, h => by
    rw [releasedFrom] at h
    split_ifs at h
    · exact .inl h
    · rcases releasedFrom_mem h with h | ⟨y', hy', h⟩
      · exact .inr ⟨y, mem_cons_self, Option.some.inj h⟩
      · exact .inr ⟨y', mem_cons_of_mem y hy', h⟩

theorem unreachedRelease_of_end {v : ℚ} (hv : ∀ x ∈ history, x.effectiveFrom ≤ v) :
    unreachedRelease history symbol v = false := by
  rw [unreachedRelease]
  cases hreleased : releasedAt history symbol with
  | none => rfl
  | some r =>
    rcases releasedFrom_mem hreleased with h | ⟨y, hy, rfl⟩
    · cases h
    · simpa using hv y (mem_reverse.mp hy)

variable {since : ℚ}

theorem heldSince_later (hlisted : listed history symbol = false)
    (h : heldSince (history ++ later) symbol = some since) :
    ∃ snap ∈ later, snap.effectiveFrom = since := by
  rcases eq_nil_or_concat history with rfl | ⟨pre, z, rfl⟩
  · exact (heldSince_eq_some h).1
  · rw [concat_eq_append] at hlisted h
    rw [append_assoc] at h
    exact (heldSince_eq_some (heldSince_after (held_of_not_listed hlisted (by simp)) h)).1

theorem unreachedRelease_later {v : ℚ} (hv : ∀ snap ∈ later, v < snap.effectiveFrom)
    (hagain : ∃ snap ∈ later, snap.held symbol ≠ 0) (hend : listed (history ++ later) symbol = false) :
    unreachedRelease (history ++ later) symbol v = true := by
  rcases last_holding later symbol with hnever | ⟨pre, x, zeros, rfl, hx, hzeros⟩
  · obtain ⟨snap, hsnap, hheld⟩ := hagain; exact absurd (hnever snap hsnap) hheld
  · cases zeros with
    | nil => exact absurd (held_of_not_listed hend (by simp)) hx
    | cons z zeros =>
      rw [unreachedRelease, ← append_assoc, releasedAt_of_last hx hzeros]
      simpa using hv z (by simp)

/-- A watermark that is dropped at `t₁` is lost once the symbol is held again. -/
theorem seam_of_dropped (t₂ : ℚ) (hnew : ∀ snap ∈ later, t₁ ≤ snap.effectiveFrom ∧
      ∀ x ∈ history, x.effectiveFrom < snap.effectiveFrom) (hmem : symbol ∈ watermarked)
    (hlisted : listed history symbol = false)
    (hagain : (∃ snap ∈ later, snap.held symbol ≠ 0) ∨ listed (history ++ later) symbol = true) :
    ∃ marks : Dict ℚ, (∀ s, (marks.lookup s).isSome = true ↔ s ∈ watermarked) ∧
      ¬ SplitInvariant history later marks ∅ ∅ ∅ ∅ t₁ t₂ := by
  -- a watermark that has reached the end of the history
  let v := (history.map PositionSnapshot.effectiveFrom).foldl max (t₁ - 1)
  have hv : ∀ x ∈ history, x.effectiveFrom ≤ v := fun x hx => le_foldl_max_of_mem (mem_map_of_mem hx)
  have hlater : ∀ snap ∈ later, v < snap.effectiveFrom := by
    intro snap hsnap
    refine lt_of_not_ge fun hle => ?_
    rcases le_foldl_max_iff.mp hle with hle | ⟨y, hy, hle⟩
    · have := (hnew snap hsnap).1; linarith
    · obtain ⟨x, hx, rfl⟩ := mem_map.mp hy; exact absurd ((hnew snap hsnap).2 x hx) (not_lt.mpr hle)
  obtain ⟨marks, hmarks⟩ := exists_uniform watermarked v
  refine ⟨marks, fun s => by rw [hmarks s]; split_ifs <;> simp_all, fun hsplit => ?_⟩
  have hidle : ∀ (h : List PositionSnapshot) (m : Dict ℚ) (t : ℚ) (s : String), ∃ turn,
      accrueSymbol (accrualAt h m ∅ ∅ t) s = .ok turn ∧ charged turn = [] ∧
        marked turn = ((m.lookup s).or (heldSince h s)).bind fun w =>
          if listed h s || unreachedRelease h s w then some w else none := fun h m t s =>
    accrueSymbol_idle fun w _ => window_empty (AList.lookup_empty s)
  obtain ⟨once, honce⟩ := exists_accrual fun s => (hidle (history ++ later) marks t₂ s).imp fun _ h => h.1
  obtain ⟨first, second, hfirst, hsecond, hsame⟩ := hsplit once honce
  have hstart : marks.lookup symbol = some v := by rw [hmarks symbol, if_pos hmem]
  have hdropped : first.watermarks.lookup symbol = none := by
    obtain ⟨turn, hturn, -, hmarked⟩ := hidle history marks t₁ symbol
    rw [accrued_watermark hfirst, AccrualInput.turn_eq hturn, hmarked, hstart]
    simp [hlisted, unreachedRelease_of_end hv]
  have hwatermarks := hsame.watermarks symbol
  obtain ⟨turn, hturn, -, hmarked⟩ := hidle (history ++ later) marks t₂ symbol
  obtain ⟨turn₂, hturn₂, -, hmarked₂⟩ := hidle (history ++ later) first.watermarks t₂ symbol
  rw [accrued_watermark hsecond, accrued_watermark honce, AccrualInput.turn_eq hturn, AccrualInput.turn_eq hturn₂,
    hmarked, hmarked₂, hdropped, hstart] at hwatermarks
  cases hheld : heldSince (history ++ later) symbol with
  | some since =>
    obtain ⟨snap, hsnap, rfl⟩ := heldSince_later hlisted hheld
    simp only [hheld, heldSince_isSome hheld, Option.or, Option.bind_some, Bool.true_or, if_true] at hwatermarks
    exact absurd (Option.some.inj hwatermarks) (hlater snap hsnap).ne'
  | none =>
    cases hend : listed (history ++ later) symbol with
    | true => simp [hheld, hend] at hwatermarks
    | false =>
      have hunreached := unreachedRelease_later hlater (hagain.resolve_right (by simp [hend])) hend
      simp [hheld, hunreached] at hwatermarks

theorem first_flat (h : ∃ y ∈ later, y.held symbol = 0) :
    ∃ held z post, later = held ++ z :: post ∧ (∀ y ∈ held, y.held symbol ≠ 0) ∧ z.held symbol = 0 := by
  induction later with
  | nil => obtain ⟨y, hy, -⟩ := h; cases hy
  | cons y rest ih =>
    by_cases hy : y.held symbol = 0
    · exact ⟨[], y, rest, rfl, by simp, hy⟩
    · have hrest : ∃ z ∈ rest, z.held symbol = 0 := by
        obtain ⟨z, hz, hheld⟩ := h
        rcases mem_cons.mp hz with rfl | hz
        · exact absurd hheld hy
        · exact ⟨z, hz, hheld⟩
      obtain ⟨held, z, post, rfl, hheld, hz⟩ := ih hrest
      exact ⟨y :: held, z, post, rfl, forall_mem_cons.mpr ⟨hy, hheld⟩, hz⟩

theorem positionAt_release {held : List PositionSnapshot} {z : PositionSnapshot}
    (post : List PositionSnapshot) (hheld : heldSince history symbol = some since)
    (hlater : ∀ y ∈ held, y.held symbol ≠ 0)
    (hbefore : ∀ x ∈ history, x.effectiveFrom < z.effectiveFrom) :
    ∃ qty, qty ≠ 0 ∧ positionAt (history ++ (held ++ z :: post)) symbol z.effectiveFrom = .ok qty := by
  obtain ⟨-, last, hlast, hqty⟩ := heldSince_eq_some hheld
  have htake : (history ++ (held ++ z :: post)).takeWhile (fun y => decide (y.effectiveFrom < z.effectiveFrom)) =
      history ++ held.takeWhile fun y => decide (y.effectiveFrom < z.effectiveFrom) := by
    rw [takeWhile_append_of_pos fun x hx => decide_eq_true (hbefore x hx)]
    congr 1
    induction held with
    | nil => simp
    | cons y held ih =>
      rw [cons_append, takeWhile_cons, takeWhile_cons, ih fun y' hy' => hlater y' (mem_cons_of_mem y hy')]
  rw [positionAt, htake]
  cases hrest : (held.takeWhile fun y => decide (y.effectiveFrom < z.effectiveFrom)).getLast? with
  | none =>
    rw [getLast?_eq_none_iff.mp hrest, append_nil, hlast]; exact ⟨_, hqty, rfl⟩
  | some y =>
    rw [getLast?_append, hrest]
    exact ⟨_, hlater y (( takeWhile_prefix _).subset (mem_of_getLast? hrest)), rfl⟩

/-- A holding that no watermark has yet, and that ends by `t₂`, is charged only by an accrual before
its end. -/
theorem seam_of_released (t₁ : ℚ)
    (hsorted : (history ++ later).Pairwise fun x y => x.effectiveFrom ≤ y.effectiveFrom)
    (hnew : ∀ snap ∈ later, snap.effectiveFrom ≤ t₂ ∧ ∀ x ∈ history, x.effectiveFrom < snap.effectiveFrom)
    (hmem : symbol ∉ watermarked) (hheld : heldSince history symbol = some since)
    (hbroken : heldSince (history ++ later) symbol ≠ some since) :
    ∃ (marks : Dict ℚ) (funding closes : Dict Series), (∀ s, (marks.lookup s).isSome = true ↔ s ∈ watermarked) ∧
      Grows ∅ funding ∧ Grows ∅ closes ∧ ¬ SplitInvariant history later marks ∅ funding ∅ closes t₁ t₂ := by
  obtain ⟨held, z, post, rfl, hlater, hz⟩ : ∃ held z post, later = held ++ z :: post ∧
      (∀ y ∈ held, y.held symbol ≠ 0) ∧ z.held symbol = 0 := by
    refine first_flat ?_
    by_contra hnone
    push Not at hnone
    exact hbroken (heldSince_append_held hheld hnone)
  obtain ⟨hz₂, hbefore⟩ := hnew z (by simp)
  obtain ⟨⟨x, hx, rfl⟩, -⟩ := heldSince_eq_some hheld
  obtain ⟨qty, hqty, hposition⟩ := positionAt_release post hheld hlater hbefore
  -- one epoch, at the release, at a rate and a price of 1
  let funding : Dict Series := (∅ : Dict Series).insert symbol [(z.effectiveFrom, some 1)]
  let closes : Dict Series := (∅ : Dict Series).insert symbol [(floorHour z.effectiveFrom, some 1)]
  obtain ⟨marks, hmarks⟩ := exists_uniform watermarked t₁
  refine ⟨marks, funding, closes, fun s => by rw [hmarks s]; split_ifs <;> simp_all, grows_single _ _,
    grows_single _ _, fun hsplit => ?_⟩
  have hother : ∀ s, s ≠ symbol → funding.lookup s = none := fun s hs => by
    rw [AList.lookup_insert_ne hs, AList.lookup_empty]
  have hnowhere : marks.lookup symbol = none := by rw [hmarks symbol, if_neg hmem]
  -- one accrual starts after the release, if at all
  have hone : ∀ s, ∃ turn, accrueSymbol (accrualAt (history ++ (held ++ z :: post)) marks funding closes t₂) s =
      .ok turn ∧ charged turn = [] := by
    intro s
    have hidle : ∀ w, (accrualAt (history ++ (held ++ z :: post)) marks funding closes t₂).watermarkOf s = some w →
        (accrualAt (history ++ (held ++ z :: post)) marks funding closes t₂).window s w = [] := by
      intro w hw
      by_cases hs : s = symbol
      · subst hs
        rw [watermarkOf_at, hnowhere, ← append_assoc] at hw
        obtain ⟨y, hy, rfl⟩ := (heldSince_eq_some (heldSince_after hz hw)).1
        have hafter : z.effectiveFrom ≤ y.effectiveFrom := by
          rw [← append_assoc] at hsorted
          exact (pairwise_cons.mp (pairwise_append.mp hsorted).2.1).1 y hy
        rw [window_at, AList.lookup_insert]; simp [accrualWindow, sortIndex, not_lt.mpr hafter]
      · exact window_empty (hother s hs)
    obtain ⟨turn, hturn, hcharged, -⟩ := accrueSymbol_idle hidle; exact ⟨turn, hturn, hcharged⟩
  obtain ⟨once, honce⟩ := exists_accrual fun s => (hone s).imp fun _ h => h.1
  obtain ⟨first, second, hfirst, hsecond, hsame⟩ := hsplit once honce
  have hfree : ∀ {a : AccrualInput} {accrual : FundingAccrual}, accrueFundingByWatermark a = .ok accrual →
      (∀ s, ∃ turn, accrueSymbol a s = .ok turn ∧ charged turn = []) → accrual.cashDelta = 0 := by
    intro a accrual h hnone
    rw [accrued_cash _ h (Finset.Subset.refl _)]
    refine Finset.sum_eq_zero fun s _ => ?_
    obtain ⟨turn, hturn, hcharged⟩ := hnone s
    rw [AccrualInput.turn_eq hturn, hcharged]; rfl
  have hidle₁ : ∀ s, ∃ turn, accrueSymbol (accrualAt history marks ∅ ∅ t₁) s = .ok turn ∧ charged turn = [] ∧
      marked turn = ((marks.lookup s).or (heldSince history s)).bind fun w =>
        if listed history s || unreachedRelease history s w then some w else none := fun s =>
    accrueSymbol_idle fun w _ => window_empty (AList.lookup_empty s)
  have hstart : first.watermarks.lookup symbol = some x.effectiveFrom := by
    obtain ⟨turn, hturn, -, hmarked⟩ := hidle₁ symbol
    rw [accrued_watermark hfirst, AccrualInput.turn_eq hturn, hmarked, hnowhere, hheld]
    simp [heldSince_isSome hheld]
  -- the second walks the release, and pays for it
  have hpaid : ∃ turn, accrueSymbol (accrualAt (history ++ (held ++ z :: post)) first.watermarks funding closes t₂)
      symbol = .ok turn ∧ amountOf (charged turn) = -qty := by
    have hclose : closeAt (closes.lookup symbol) z.effectiveFrom = some 1 := by
      rw [AList.lookup_insert]; simp [closeAt]
    have hwindow : (accrualAt (history ++ (held ++ z :: post)) first.watermarks funding closes t₂).window symbol
        x.effectiveFrom = [(z.effectiveFrom, some 1)] := by
      rw [window_at, AList.lookup_insert]; simp [accrualWindow, sortIndex, hbefore x hx, hz₂]
    have hwalk : accrueWindow (history ++ (held ++ z :: post)) symbol (closes.lookup symbol) x.effectiveFrom
        [(z.effectiveFrom, some 1)] = .ok (z.effectiveFrom, [{
          symbol := symbol, epoch := z.effectiveFrom, rate := 1, quantity := qty, price := 1,
          amount := -(1 * qty * 1) }]) := by
      rw [accrueWindow, hposition]
      show (if qty ≠ 0 then _ else _) = _
      rw [if_pos hqty, hclose]; rfl
    have hstart₂ : (accrualAt (history ++ (held ++ z :: post)) first.watermarks funding closes
      t₂).watermarkOf symbol =
        some x.effectiveFrom := by
      rw [watermarkOf_at, hstart]; rfl
    rw [← hwindow] at hwalk
    obtain ⟨turn, hturn, hcharged, -⟩ := accrueSymbol_of_walk hstart₂ hwalk
    refine ⟨turn, hturn, ?_⟩
    rw [hcharged]; simp [amountOf]
  have hcash : second.cashDelta = -qty := by
    rw [accrued_cash _ hsecond (Finset.subset_insert symbol _), Finset.sum_eq_single_of_mem symbol (by simp)]
    · obtain ⟨turn, hturn, hamount⟩ := hpaid
      rw [AccrualInput.turn_eq hturn, hamount]
    · intro s _ hs
      have hidle₂ : ∀ w, (accrualAt (history ++ (held ++ z :: post)) first.watermarks funding
        closes t₂).watermarkOf s =
          some w → (accrualAt (history ++ (held ++ z :: post)) first.watermarks funding closes
            t₂).window s w = [] :=
        fun w _ => window_empty (hother s hs)
      obtain ⟨turn, hturn, hcharged, -⟩ := accrueSymbol_idle hidle₂
      rw [AccrualInput.turn_eq hturn, hcharged]; rfl
  have hcashes := hsame.cash
  rw [hfree hfirst fun s => (hidle₁ s).imp fun _ h => ⟨h.1, h.2.1⟩, hfree honce hone] at hcashes
  exact hqty (by linarith)

/-- Two accruals are one, whatever arrives when and wherever the watermarks stand, exactly for the
histories without a seam. -/
theorem split_invariant_iff (ht : t₁ ≤ t₂)
    (hsorted : (history ++ later).Pairwise fun x y => x.effectiveFrom ≤ y.effectiveFrom)
    (hnew : ∀ snap ∈ later, t₁ ≤ snap.effectiveFrom ∧ snap.effectiveFrom ≤ t₂ ∧
      ∀ x ∈ history, x.effectiveFrom < snap.effectiveFrom) :
    (∀ (marks funding₁ funding₂ closes₁ closes₂), (∀ s, (marks.lookup s).isSome = true ↔ s ∈ watermarked) →
      Grows funding₁ funding₂ → Grows closes₁ closes₂ →
      SplitInvariant history later marks funding₁ funding₂ closes₁ closes₂ t₁ t₂) ↔
    ∀ symbol, Seamless history later watermarked symbol := by
  constructor
  · intro hsplit symbol
    rw [Seamless]
    split_ifs with hmem
    · by_contra hseam
      rw [not_or, not_and_or] at hseam
      obtain ⟨hlisted, hagain⟩ := hseam
      obtain ⟨marks, hkeys, hnot⟩ := seam_of_dropped t₂ (fun snap hsnap =>
        ⟨(hnew snap hsnap).1, (hnew snap hsnap).2.2⟩)
        hmem (by simpa using hlisted) (hagain.imp (fun h => by push Not at h; exact h) fun h => by simpa using h)
      exact hnot (hsplit marks ∅ ∅ ∅ ∅ hkeys grows_refl_empty grows_refl_empty)
    · by_contra hseam
      rw [not_or] at hseam
      obtain ⟨since, hheld⟩ := ne_none_iff_exists'.mp hseam.1
      rw [hheld] at hseam
      obtain ⟨marks, funding, closes, hkeys, hfunding, hcloses, hnot⟩ := seam_of_released t₁ hsorted
        (fun snap hsnap => (hnew snap hsnap).2) hmem hheld hseam.2
      exact hnot (hsplit marks ∅ funding ∅ closes hkeys hfunding hcloses)
  · intro hseamless marks funding₁ funding₂ closes₁ closes₂ hkeys hfunding hcloses
    exact split_of_seamless hfunding hcloses ht hsorted (fun snap hsnap => (hnew snap hsnap).1) hkeys hseamless

end Accruals

/-! ## A holding resized, and one given up -/

def hours (h : ℚ) : ℚ := h * 3600

def holding (since quantity : ℚ) : PositionSnapshot where
  effectiveFrom := hours since
  positions := (∅ : Dict ℚ).insert "AUSDT" quantity

def flat (since : ℚ) : PositionSnapshot where
  effectiveFrom := hours since
  positions := ∅

def paidFunding : Dict Series := (∅ : Dict Series).insert "AUSDT" [(hours 8, some (1 / 1000))]

def paidCloses : Dict Series := (∅ : Dict Series).insert "AUSDT" [(hours 8, some 100)]

theorem grows_paid : Grows paidFunding paidFunding ∧ Grows paidCloses paidCloses := by
  refine ⟨⟨fun _ series h => ⟨series, h, prefix_rfl⟩, (grows_single _ _).ordered⟩,
    ⟨fun _ series h => ⟨series, h, prefix_rfl⟩, (grows_single _ _).ordered⟩⟩

theorem split_invariant_resized :
    SplitInvariant [holding 0 2] [holding 20 1] ∅ paidFunding paidFunding paidCloses paidCloses (hours 10)
      (hours 24) := by
  have hseamless : ∀ symbol, Seamless [holding 0 2] [holding 20 1] ∅ symbol := by
    intro symbol
    rw [Seamless, if_neg (Finset.notMem_empty symbol)]
    by_cases h : symbol = "AUSDT"
    · subst h; exact .inr (by decide +kernel)
    · refine .inl (heldSince_of_not_listed ?_)
      show (AList.lookup symbol ((∅ : Dict ℚ).insert "AUSDT" 2)).isSome = false
      rw [AList.lookup_insert_ne h]; rfl
  refine (split_invariant_iff (by decide +kernel) ?_ ?_).mpr hseamless ∅ _ _ _ _ (fun s =>
    ?_) grows_paid.1 grows_paid.2
  · simp [holding, hours]
  · simp [holding, hours]; norm_num
  · simp

/-- Held from 00:00, released at 16:00 and acquired again at 20:00: an accrual at 10:00 and one at
24:00 pay the epoch of 08:00, one accrual at 24:00 starts at 20:00 and pays nothing. -/
theorem split_loses_holding :
    (Grows paidFunding paidFunding ∧ Grows paidCloses paidCloses) ∧
    (accrueFundingByWatermark (accrualAt [holding 0 1] ∅ paidFunding paidCloses (hours 10))).toOption.map
      FundingAccrual.cashDelta = some (-1 / 10) ∧
    (accrueFundingByWatermark (accrualAt ([holding 0 1] ++ [flat 16, holding 20 1]) ∅ paidFunding paidCloses
      (hours 24))).toOption.map FundingAccrual.cashDelta = some 0 ∧
    ¬ SplitInvariant [holding 0 1] [flat 16, holding 20 1] ∅ paidFunding paidFunding paidCloses
      paidCloses (hours 10)
      (hours 24) := by
  have hfirst_cash : (accrueFundingByWatermark (accrualAt [holding 0 1] ∅ paidFunding paidCloses
      (hours 10))).toOption.map FundingAccrual.cashDelta = some (-1 / 10) := by decide +kernel
  have honce_cash : (accrueFundingByWatermark (accrualAt ([holding 0 1] ++ [flat 16, holding 20 1]) ∅ paidFunding
      paidCloses (hours 24))).toOption.map FundingAccrual.cashDelta = some 0 := by decide +kernel
  have hsecond_cash : (accrueFundingByWatermark (accrualAt [holding 0 1] ∅ paidFunding paidCloses (hours 10)) >>=
      fun first => accrueFundingByWatermark (accrualAt ([holding 0 1] ++ [flat 16, holding 20 1]) first.watermarks
        paidFunding paidCloses (hours 24))).toOption.map FundingAccrual.cashDelta = some 0 := by decide +kernel
  refine ⟨grows_paid, hfirst_cash, honce_cash, fun hsplit => ?_⟩
  cases honce : accrueFundingByWatermark (accrualAt ([holding 0 1] ++ [flat 16, holding 20 1]) ∅ paidFunding
      paidCloses (hours 24)) with
  | error e =>
    rw [honce] at honce_cash; cases honce_cash
  | ok once =>
    obtain ⟨first, second, hfirst, hsecond, hsame⟩ := hsplit once honce
    rw [hfirst] at hfirst_cash hsecond_cash
    rw [honce] at honce_cash
    have hsecond_cash : (accrueFundingByWatermark (accrualAt ([holding 0 1] ++ [flat 16, holding 20 1])
      first.watermarks paidFunding paidCloses (hours 24))).toOption.map FundingAccrual.cashDelta = some 0 :=
      hsecond_cash
    rw [hsecond] at hsecond_cash
    have hcash := hsame.cash
    rw [Option.some.inj hfirst_cash, Option.some.inj hsecond_cash, Option.some.inj honce_cash] at hcash
    norm_num at hcash

end CryptoPilot.Live
