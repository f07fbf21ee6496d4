/- # HistoryTrim — the snapshots that `append_position_snapshot` drops.

Beyond `positionHistoryMax` the oldest snapshots go, unless the oldest funding watermark still needs
them.  What is dropped lies at or before every watermark, together with the first snapshot that is
kept, so no epoch above a watermark reads it, and no release above a watermark ends in it. -/
import CryptoPilot.Live.FundingSplit

namespace CryptoPilot.Live

open CryptoPilot.Lib List

/-! ## What is dropped -/

def extendHistory (history : List PositionSnapshot) (effectiveFrom : ℚ) (positions : Dict ℚ) :
    List PositionSnapshot :=
  let nonzero := Dict.dropDefault positions 0
  match history.getLast? with
  | some last =>
    if sameEntries last.positions nonzero then history
    else history ++ [⟨effectiveFrom, nonzero⟩]
  | none => [⟨effectiveFrom, nonzero⟩]

/-- The snapshots of an extended history that `append_position_snapshot` keeps. -/
def trimHistory (watermarks : Dict ℚ) (snaps : List PositionSnapshot) : List PositionSnapshot :=
  if snaps.length ≤ positionHistoryMax then snaps
  else
    match leastValue watermarks with
    | none => snaps.drop (snaps.length - positionHistoryMax)
    | some oldest => snaps.drop (min (snaps.length - positionHistoryMax) (activeIndex oldest snaps))

theorem appendPositionSnapshot_eq (history : List PositionSnapshot) (effectiveFrom : ℚ)
    (positions watermarks : Dict ℚ) :
    appendPositionSnapshot history effectiveFrom positions watermarks =
      trimHistory watermarks (extendHistory history effectiveFrom positions) := by
  unfold appendPositionSnapshot trimHistory
  cases leastValue watermarks with
  | none | some oldest => rfl

/-- What a trim drops lies at or before every watermark, as does the first snapshot it keeps. -/
structure Trims (watermarks : Dict ℚ) (dropped kept : List PositionSnapshot) : Prop where
  kept_ne : kept ≠ []
  enough : dropped = [] ∨ positionHistoryMax ≤ kept.length
  covered : dropped = [] ∨ ∀ symbol w, watermarks.lookup symbol = some w →
    ∀ x ∈ dropped ++ kept.take 1, x.effectiveFrom ≤ w

section Trim

variable {history snaps dropped kept : List PositionSnapshot} {effectiveFrom oldest : ℚ}
  {positions watermarks : Dict ℚ}

theorem extendHistory_ne_nil (history : List PositionSnapshot) (effectiveFrom : ℚ) (positions : Dict ℚ) :
    extendHistory history effectiveFrom positions ≠ [] := by
  unfold extendHistory
  cases hlast : history.getLast? with
  | none => exact cons_ne_nil _ _
  | some last =>
    dsimp only
    split_ifs
    · intro hnil
      rw [hnil] at hlast; cases hlast
    · exact append_ne_nil_of_right_ne_nil _ (cons_ne_nil _ _)

theorem activeIndex_covers : ∀ {snaps : List PositionSnapshot}, 0 < activeIndex oldest snaps →
    ∀ x ∈ snaps.take (activeIndex oldest snaps + 1), x.effectiveFrom ≤ oldest
  | [], h | [_], h => absurd h (lt_irrefl 0)
  | a :: b :: rest, h => by
    rw [activeIndex] at h ⊢
    split_ifs at h ⊢ with hactive
    · intro x hx
      rcases mem_cons.mp hx with rfl | hx
      · exact hactive.1
      · rcases Nat.eq_zero_or_pos (activeIndex oldest (b :: rest)) with hzero | hpos
        · rw [hzero, take_succ_cons, take_zero, mem_singleton] at hx
          rw [hx]; exact hactive.2
        · exact activeIndex_covers hpos x hx
    · exact absurd h (lt_irrefl 0)

theorem leastValue_le {symbol : String} {w : ℚ} (h : watermarks.lookup symbol = some w) :
    ∃ oldest, leastValue watermarks = some oldest ∧ oldest ≤ w := by
  have hmem : w ∈ watermarks.entries.map Sigma.snd := mem_map.mpr ⟨⟨symbol, w⟩, AList.mem_lookup_iff.mp h, rfl⟩
  unfold leastValue
  cases hmin : (watermarks.entries.map Sigma.snd).min? with
  | none =>
    rw [min?_eq_none_iff.mp hmin] at hmem; cases hmem
  | some oldest => exact ⟨oldest, rfl, (min?_eq_some_iff.mp hmin).2 w hmem⟩

/-- **What a trim drops.** -/
theorem trimHistory_trims (hne : snaps ≠ []) :
    ∃ dropped kept, snaps = dropped ++ kept ∧ trimHistory watermarks snaps = kept ∧
      Trims watermarks dropped kept := by
  unfold trimHistory
  split_ifs with hlen
  · exact ⟨[], snaps, rfl, rfl, hne, .inl rfl, .inl rfl⟩
  · have hsplit : ∀ k, k + positionHistoryMax ≤ snaps.length →
      (∀ symbol w, watermarks.lookup symbol = some w → 0 < k →
        ∀ x ∈ snaps.take (k + 1), x.effectiveFrom ≤ w) → Trims watermarks (snaps.take k) (snaps.drop k) :=
      fun k hk hcovered => by
        refine ⟨?_, .inr ?_, ?_⟩
        · rw [Ne, drop_eq_nil_iff]
          unfold positionHistoryMax at hk; omega
        · rw [length_drop]; omega
        · rcases Nat.eq_zero_or_pos k with rfl | hpos
          · exact .inl take_zero
          · refine .inr fun symbol w hw x hx => hcovered symbol w hw hpos x ?_
            rwa [take_add]
    cases hleast : leastValue watermarks with
    | none =>
      refine ⟨_, _, (take_append_drop (snaps.length - positionHistoryMax) snaps).symm, rfl,
        hsplit _ (by omega) fun symbol w hw => ?_⟩
      obtain ⟨oldest, holdest, -⟩ := leastValue_le hw
      rw [hleast] at holdest; cases holdest
    | some oldest =>
      refine ⟨_, _, (take_append_drop (min (snaps.length - positionHistoryMax)
        (activeIndex oldest snaps)) snaps).symm,
        rfl, hsplit _ (by omega) fun symbol w hw hpos x hx => ?_⟩
      obtain ⟨oldest', holdest, hle⟩ := leastValue_le hw
      obtain rfl : oldest = oldest' := Option.some.inj (hleast.symm.trans holdest)
      have hactive : 0 < activeIndex oldest snaps := by omega
      refine (activeIndex_covers hactive x (List.Sublist.subset (take_sublist_take_left ?_) hx)).trans hle
      omega

end Trim

/-! ## What an accrual reads of it -/

section Reads

variable {dropped kept pre run : List PositionSnapshot} {symbol : String} {t w reached : ℚ}

theorem positionAt_kept (hne : kept ≠ []) (h : ∀ x ∈ dropped ++ kept.take 1, x.effectiveFrom < t) :
    positionAt (dropped ++ kept) symbol t = positionAt kept symbol t := by
  obtain ⟨first, rest, rfl⟩ := exists_cons_of_ne_nil hne
  have hfirst : first.effectiveFrom < t := h first (by simp)
  have htake : (dropped ++ first :: rest).takeWhile (fun x => decide (x.effectiveFrom < t)) =
      dropped ++ (first :: rest).takeWhile fun x => decide (x.effectiveFrom < t) :=
    takeWhile_append_of_pos fun x hx => decide_eq_true (h x (mem_append_left _ hx))
  have hcons : (first :: rest).takeWhile (fun x => decide (x.effectiveFrom < t)) ≠ [] := by
    rw [takeWhile_cons, if_pos (decide_eq_true hfirst)]; exact cons_ne_nil _ _
  rw [positionAt, positionAt, htake, getLast?_append_of_ne_nil _ hcons]

theorem releasedAt_held {x : PositionSnapshot} (hx : x.held symbol ≠ 0) :
    releasedAt (pre ++ [x]) symbol = none := by
  rw [releasedAt, reverse_append, reverse_singleton, singleton_append, releasedFrom, if_pos hx]

theorem unreachedRelease_kept (hne : kept ≠ []) (h : ∀ x ∈ dropped ++ kept.take 1, x.effectiveFrom ≤ reached) :
    unreachedRelease (dropped ++ kept) symbol reached = unreachedRelease kept symbol reached := by
  rcases last_holding kept symbol with hflat | ⟨pre, x, zeros, rfl, hx, hzeros⟩
  · have hkept : unreachedRelease kept symbol reached = false := by
      rw [unreachedRelease, releasedAt_flat hflat]
    rw [hkept]
    rcases last_holding dropped symbol with hnever | ⟨pre, x, zeros, rfl, hx, hzeros⟩
    · rw [unreachedRelease, releasedAt_flat fun y hy => (mem_append.mp hy).elim (hnever y) (hflat y)]
    · -- the release ended in the dropped snapshots, at the latest with the first kept one
      obtain ⟨first, rest, rfl⟩ := exists_cons_of_ne_nil hne
      obtain ⟨z, tail, htail, hz⟩ : ∃ z tail, zeros ++ first :: rest = z :: tail ∧ z.effectiveFrom ≤ reached := by
        cases zeros with
        | nil => exact ⟨first, rest, rfl, h first (by simp)⟩
        | cons z zeros => exact ⟨z, _, rfl, h z (by simp)⟩
      have hall : ∀ y ∈ z :: tail, y.held symbol = 0 := fun y hy => by
        rw [← htail] at hy; exact (mem_append.mp hy).elim (hzeros y) (hflat y)
      rw [append_assoc, cons_append, htail, unreachedRelease, releasedAt_of_last hx hall]
      simpa using hz
  · cases zeros with
    | nil => rw [unreachedRelease, unreachedRelease, ← append_assoc, releasedAt_held hx, releasedAt_held hx]
    | cons z zeros =>
      rw [unreachedRelease, unreachedRelease, ← append_assoc, releasedAt_of_last hx hzeros,
        releasedAt_of_last hx hzeros]

/-- The holding that a history ends with began among its last snapshots. -/
def AcquiredWithin (k : ℕ) (history : List PositionSnapshot) (symbol : String) : Prop :=
  ∃ pre run, history = pre ++ run ∧ run.length ≤ k ∧ (∀ x ∈ run, x.held symbol ≠ 0) ∧
    ∀ x ∈ pre.getLast?, x.held symbol = 0

theorem heldSince_run (hne : run ≠ []) (hrun : ∀ x ∈ run, x.held symbol ≠ 0)
    (hpre : ∀ x ∈ pre.getLast?, x.held symbol = 0) : heldSince (pre ++ run) symbol = heldSince run symbol := by
  rcases eq_nil_or_concat pre with rfl | ⟨pre, z, rfl⟩
  · rfl
  · have hz : z.held symbol = 0 := hpre z (by simp)
    obtain ⟨since, hsince⟩ : ∃ since, heldSince (pre ++ z :: run) symbol = some since := by
      obtain ⟨earlier, last, rfl⟩ := eq_nil_or_concat run |>.resolve_left hne
      have hlast : last.held symbol ≠ 0 := hrun last (by simp)
      rw [heldSince]; simp [hlast]
    rw [concat_eq_append, append_assoc, singleton_append, hsince, heldSince_after hz hsince]

theorem accrueWindow_congr {history history' : List PositionSnapshot} {closes : Option Series} {window : Series} :
    ∀ {w : ℚ}, (∀ p ∈ window, positionAt history symbol p.1 = positionAt history' symbol p.1) →
      accrueWindow history symbol closes w window = accrueWindow history' symbol closes w window := by
  induction window with
  | nil => exact fun _ => rfl
  | cons p rest ih =>
    intro w h
    obtain ⟨hp, hrest⟩ := forall_mem_cons.mp h
    rw [accrueWindow, accrueWindow, hp, ih hrest]

end Reads

/-! ## The accrual -/

section Accrual

variable {a : AccrualInput} {dropped kept : List PositionSnapshot} {symbol : String} {w : ℚ}

theorem accrueSymbol_kept (hne : kept ≠ []) (hhistory : a.history = dropped ++ kept)
    (hstart : ({ a with history := kept } : AccrualInput).watermarkOf symbol = a.watermarkOf symbol)
    (hcovered : ∀ w, a.watermarkOf symbol = some w → ∀ x ∈ dropped ++ kept.take 1, x.effectiveFrom ≤ w) :
    accrueSymbol { a with history := kept } symbol = accrueSymbol a symbol := by
  have hcurrent : currentPositions a.history = currentPositions kept := by
    rw [hhistory, currentPositions, currentPositions, getLast?_append_of_ne_nil _ hne]
  unfold accrueSymbol
  rw [hstart]
  cases hw : a.watermarkOf symbol with
  | none => rfl
  | some w =>
    have hwindow : ({ a with history := kept } : AccrualInput).window symbol w = a.window symbol w := rfl
    have hwalk : accrueWindow kept symbol (a.closes.lookup symbol) w (a.window symbol w) =
        accrueWindow a.history symbol (a.closes.lookup symbol) w (a.window symbol w) :=
      accrueWindow_congr fun p hp => by
        rw [hhistory, positionAt_kept hne fun x hx => (hcovered w hw x hx).trans_lt (a.mem_window hp).1]
    dsimp only
    rw [hwindow, hwalk]
    cases hreached : accrueWindow a.history symbol (a.closes.lookup symbol) w (a.window symbol w) with
    | error _ => rfl
    | ok walked =>
      obtain ⟨reached, events⟩ := walked
      have hle : w ≤ reached := (accrueWindow_eq_ok (fun p hp => (a.mem_window hp).1.le) (a.window_sorted symbol w)
        hreached).1
      have hrelease : unreachedRelease a.history symbol reached = unreachedRelease kept symbol reached := by
        rw [hhistory]; exact unreachedRelease_kept hne fun x hx => (hcovered w hw x hx).trans hle
      simp only [bind, Except.bind, hcurrent, hrelease]

theorem watermarkOf_kept (htrims : Trims a.watermarks dropped kept) (hdropped : dropped ≠ [])
    (hhistory : a.history = dropped ++ kept)
    (hsorted : a.history.Pairwise fun x y => x.effectiveFrom ≤ y.effectiveFrom)
    (hacquired : a.watermarks.lookup symbol = none → (currentPositions a.history).get symbol 0 ≠ 0 →
      AcquiredWithin positionHistoryMax a.history symbol) :
    ({ a with history := kept } : AccrualInput).watermarkOf symbol = a.watermarkOf symbol ∧
      ∀ w, a.watermarkOf symbol = some w → ∀ x ∈ dropped ++ kept.take 1, x.effectiveFrom ≤ w := by
  have hcovered := htrims.covered.resolve_left hdropped
  have henough := htrims.enough.resolve_left hdropped
  unfold AccrualInput.watermarkOf
  cases hwatermark : a.watermarks.lookup symbol with
  | some v => exact ⟨rfl, fun w hw => Option.some.inj hw ▸ hcovered symbol v hwatermark⟩
  | none =>
    rw [hhistory]
    obtain ⟨earlier, last, rfl⟩ := (eq_nil_or_concat kept).resolve_left htrims.kept_ne
    rw [concat_eq_append] at *
    by_cases hheld : last.held symbol = 0
    · -- it is not held now
      have hflat : ∀ before : List PositionSnapshot, heldSince (before ++ [last]) symbol = none := fun before => by
        rw [heldSince]; simp [hheld]
      rw [← append_assoc, hflat, hflat]; exact ⟨rfl, fun w hw => by cases hw⟩
    · have hcurrent : (currentPositions a.history).get symbol 0 = last.held symbol := by
        rw [hhistory, currentPositions, ← append_assoc, getLast?_concat]; rfl
      obtain ⟨pre, run, hsplit, hlength, hrun, hpre⟩ := hacquired hwatermark (hcurrent ▸ hheld)
      have hne : run ≠ [] := fun hnil => by
        rw [hnil, append_nil, hhistory, ← append_assoc] at hsplit
        exact hheld (hpre last (by rw [← hsplit, getLast?_concat]; rfl))
      rw [hhistory] at hsplit hsorted
      -- the holding lies in what is kept
      obtain ⟨between, hbetween⟩ : ∃ between, earlier ++ [last] = between ++ run := by
        rcases append_eq_append_iff.mp hsplit with ⟨between, -, hkept⟩ | ⟨between, -, hlonger⟩
        · exact ⟨between, hkept⟩
        · cases between with
          | nil => exact ⟨[], hlonger.symm⟩
          | cons y between =>
            rw [hlonger, length_append, length_cons] at hlength; omega
      have hbefore : pre = dropped ++ between := by
        rw [hbetween, ← append_assoc] at hsplit; exact (append_cancel_right hsplit).symm
      have hpre' : ∀ x ∈ between.getLast?, x.held symbol = 0 := fun x hx => hpre x (by
        rw [hbefore, getLast?_append_of_ne_nil _ fun hnil => by rw [hnil] at hx; cases hx]
        exact hx)
      rw [hsplit, hbetween, heldSince_run hne hrun hpre, heldSince_run hne hrun hpre']
      refine ⟨rfl, fun w hw x hx => ?_⟩
      obtain ⟨⟨y, hy, rfl⟩, -⟩ := heldSince_eq_some hw
      rw [hsplit, hbefore, append_assoc] at hsorted
      obtain ⟨-, hkept, hacross⟩ := pairwise_append.mp hsorted
      rcases mem_append.mp hx with hx | hx
      · exact hacross x hx y (mem_append_right _ hy)
      · obtain ⟨first, rest, hfirst⟩ := exists_cons_of_ne_nil (append_ne_nil_of_right_ne_nil between hne)
        rw [hfirst, take_succ_cons, take_zero, mem_singleton] at hx
        rw [hfirst] at hkept
        have hmem : y ∈ first :: rest := hfirst ▸ mem_append_right _ hy
        rw [hx]
        rcases mem_cons.mp hmem with rfl | hmem
        · exact le_rfl
        · exact (pairwise_cons.mp hkept).1 y hmem

/-- **A trim is harmless**: where each symbol that is held without a watermark was acquired among
the last `positionHistoryMax` snapshots, an accrual over the trimmed history is the accrual over all
of it. -/
theorem accrual_ignores_trim (history : List PositionSnapshot) (effectiveFrom : ℚ) (positions watermarks : Dict ℚ)
    (funding closes : Dict Series) (now : ℚ) (closedAt : Dict ℚ)
    (hsorted : (extendHistory history effectiveFrom positions).Pairwise fun x y =>
      x.effectiveFrom ≤ y.effectiveFrom)
    (hacquired : ∀ symbol, watermarks.lookup symbol = none →
      (currentPositions (extendHistory history effectiveFrom positions)).get symbol 0 ≠ 0 →
      AcquiredWithin positionHistoryMax (extendHistory history effectiveFrom positions) symbol) :
    accrueFundingByWatermark ⟨appendPositionSnapshot history effectiveFrom positions watermarks,
      watermarks, funding,
        closes, now, closedAt⟩ =
      accrueFundingByWatermark ⟨extendHistory history effectiveFrom positions, watermarks, funding, closes, now,
        closedAt⟩ := by
  have hsnaps := extendHistory_ne_nil history effectiveFrom positions
  rw [appendPositionSnapshot_eq]
  generalize extendHistory history effectiveFrom positions = snaps at hsnaps hsorted hacquired
  obtain ⟨dropped, kept, rfl, hkept, htrims⟩ := @trimHistory_trims _ watermarks hsnaps
  rw [hkept]
  by_cases hdropped : dropped = []
  · rw [hdropped, nil_append]
  · have hturns : accrueSymbol ⟨kept, watermarks, funding, closes, now, closedAt⟩ =
        accrueSymbol ⟨dropped ++ kept, watermarks, funding, closes, now, closedAt⟩ := funext fun symbol => by
      obtain ⟨hstart, hcovered⟩ := watermarkOf_kept (a :=
        ⟨dropped ++ kept, watermarks, funding, closes, now, closedAt⟩)
        htrims hdropped rfl hsorted (hacquired symbol)
      exact accrueSymbol_kept htrims.kept_ne rfl hstart hcovered
    unfold accrueFundingByWatermark AccrualInput.symbols
    rw [hturns]; simp only [currentPositions, getLast?_append_of_ne_nil _ htrims.kept_ne]

def resizedHistory : List PositionSnapshot := [holding 0 1, holding 8 2, holding 16 3, holding 24 4]

def grownPositions : Dict ℚ := ((∅ : Dict ℚ).insert "AUSDT" 4).insert "BUSDT" 1

/-- The fifth snapshot drops the first, and the accrual does not see it. -/
theorem accrual_ignores_trim_fifth :
    (extendHistory resizedHistory (hours 32) grownPositions).length = 5 ∧
    (appendPositionSnapshot resizedHistory (hours 32) grownPositions
      ((∅ : Dict ℚ).insert "AUSDT" (hours 30))).length = 4 ∧
    accrueFundingByWatermark ⟨appendPositionSnapshot resizedHistory (hours 32) grownPositions
        ((∅ : Dict ℚ).insert "AUSDT" (hours 30)), (∅ : Dict ℚ).insert "AUSDT" (hours 30), paidFunding, paidCloses,
        hours 40, ∅⟩ =
      accrueFundingByWatermark ⟨extendHistory resizedHistory (hours 32) grownPositions,
        (∅ : Dict ℚ).insert "AUSDT" (hours 30), paidFunding, paidCloses, hours 40, ∅⟩ := by
  have hextended : extendHistory resizedHistory (hours 32) grownPositions =
      resizedHistory ++ [⟨hours 32, Dict.dropDefault grownPositions 0⟩] := by
    have hlast : resizedHistory.getLast? = some (holding 24 4) := rfl
    rw [extendHistory, hlast]; exact if_neg (by decide +kernel)
  refine ⟨by rw [hextended]; rfl, by decide +kernel, accrual_ignores_trim _ _ _ _ _ _ _ _ (by decide +kernel) ?_⟩
  intro symbol hwatermark hheld
  rw [hextended] at hheld ⊢
  have hget : grownPositions.get symbol 0 ≠ 0 := by
    rw [currentPositions, getLast?_concat] at hheld
    exact (Dict.get_dropDefault grownPositions symbol 0) ▸ hheld
  have hother : symbol ≠ "AUSDT" := fun heq => by
    rw [heq, AList.lookup_insert] at hwatermark; cases hwatermark
  refine ⟨resizedHistory, [⟨hours 32, Dict.dropDefault grownPositions 0⟩], rfl, by decide,
    fun x hx => ?_, fun x hx => ?_⟩
  · rw [mem_singleton.mp hx, PositionSnapshot.held, Dict.get_dropDefault]; exact hget
  · obtain rfl : holding 24 4 = x := Option.some.inj hx
    rw [PositionSnapshot.held, holding, Dict.get_insert_of_ne _ _ _ _ _ hother, Dict.get_empty]

end Accrual

end CryptoPilot.Live
