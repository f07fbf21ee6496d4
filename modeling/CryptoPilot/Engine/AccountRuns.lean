/- # AccountRuns — the bars that liquidate a replayed account.

The replay tests every bar from an anchor on with the account that has traded at the close of that
anchor, so the anchor bar is tested on quantities that did not exist while it traded
(`replayAccount_liquidation_iff`). -/
import CryptoPilot.Engine.AccountLedger
import CryptoPilot.Lib.Effect
import Mathlib.Data.Rat.Sqrt
import Mathlib.Tactic.Ring

namespace CryptoPilot.Engine

open CryptoPilot.Lib CryptoPilot.Strategy List

variable {n : ℕ} {c : AccountRules n} {h : Holding n} {e : AccountEntry n}

def trajectory (c : AccountRules n) : Holding n → List (AccountEntry n) → List (Holding n × AccountEntry n)
  | _, [] => []
  | h, e :: rest => (h, e) :: trajectory c (c.after h e) rest

/-! ## Liquidation -/

def firstHit (tests : List (ℤ × Bool)) : Option ℤ := (tests.find? fun t => t.2).map fun t => t.1

def tradedTests (c : AccountRules n) (d : Holding n × AccountEntry n) : List (ℤ × Bool) :=
  d.2.segment.map fun bar => (bar.label, c.liquidates (c.after d.1 d.2) bar)

/-- The tests of an entry's bars on what was held while they traded: the anchor bar on the entry
before. -/
def heldTests (c : AccountRules n) (d : Holding n × AccountEntry n) : List (ℤ × Bool) :=
  (d.2.anchor.label, c.liquidates d.1 d.2.anchor) ::
    d.2.later.map fun bar => (bar.label, c.liquidates (c.after d.1 d.2) bar)

theorem firstHit_append (tests later : List (ℤ × Bool)) :
    firstHit (tests ++ later) = (firstHit tests).or (firstHit later) := by
  rw [firstHit, find?_append, Option.map_or]; rfl

variable {tests : List (ℤ × Bool)} {x : ReplayInput n} {root : ℚ → ℚ} {ladders : Fin n → VenueLadder}
  {fallback : List String} {entries : List (AccountEntry n)} {result : AccountLedgerResult n}

theorem firstHit_eq_none : firstHit tests = none ↔ ∀ t ∈ tests, t.2 = false := by
  simp [firstHit]

theorem firstHit_mem {label : ℤ} (h : firstHit tests = some label) : label ∈ tests.map Prod.fst := by
  obtain ⟨t, ht, rfl⟩ := Option.map_eq_some_iff.mp h; exact mem_map_of_mem (mem_of_find?_eq_some ht)

theorem firstHit_tradedTests : firstHit (tradedTests c (h, e)) =
    (e.segment.find? (c.liquidates (c.after h e))).map MarkBar.label := by
  rw [firstHit, tradedTests, find?_map, Option.map_map]; rfl

theorem liquidatedAt_eq : ∀ (entries : List (AccountEntry n)) (h : Holding n) (dd : ℚ × ℚ),
    (replayEntries c h dd entries).liquidatedAt = firstHit ((trajectory c h entries).flatMap (tradedTests c))
  | [], _, _ => rfl
  | e :: rest, h, dd => by
    rw [trajectory, flatMap_cons, firstHit_append, firstHit_tradedTests, replayEntries]
    cases e.segment.find? (c.liquidates (c.after h e)) with
    | some bar => rfl
    | none => exact liquidatedAt_eq rest _ _

/-- An anchor bar fails on the account it found exactly if it fails on the one that traded at its
close, wherever no test failed on an earlier bar. -/
def AnchorsAgree (c : AccountRules n) (days : List (Holding n × AccountEntry n)) : Prop :=
  ∀ before d later, days = before ++ d :: later →
    (∀ past ∈ before, firstHit (tradedTests c past) = none ∧ firstHit (heldTests c past) = none) →
    c.liquidates d.1 d.2.anchor = c.liquidates (c.after d.1 d.2) d.2.anchor

theorem labels_tests (d : Holding n × AccountEntry n) :
    (tradedTests c d).map Prod.fst = d.2.segment.map MarkBar.label ∧
      (heldTests c d).map Prod.fst = d.2.segment.map MarkBar.label := by
  simp [tradedTests, heldTests, AccountEntry.segment, Function.comp_def]

theorem anchor_eq_iff {later later' : List (ℤ × Bool)} (hlater : e.anchor.label ∉ later.map Prod.fst)
    (hlater' : e.anchor.label ∉ later'.map Prod.fst) (hnodup : (e.segment.map MarkBar.label).Nodup) :
    firstHit (tradedTests c (h, e) ++ later) = firstHit (heldTests c (h, e) ++ later') ↔
      c.liquidates h e.anchor = c.liquidates (c.after h e) e.anchor ∧
        (firstHit (tradedTests c (h, e)) = none → firstHit later = firstHit later') := by
  have hrest : e.anchor.label ∉ e.later.map MarkBar.label := (nodup_cons.mp hnodup).1
  -- a report of the rest is not a report of the anchor
  have hnot : ∀ {rest : List (ℤ × Bool)}, e.anchor.label ∉ rest.map Prod.fst →
      some e.anchor.label ≠ firstHit ((e.later.map fun bar =>
        (bar.label, c.liquidates (c.after h e) bar)) ++ rest) := by
    intro rest hout heq
    have hmem := firstHit_mem heq.symm
    rw [map_append, mem_append, map_map] at hmem; exact hmem.elim hrest hout
  have hcons : ∀ (b : Bool) (rest : List (ℤ × Bool)),
      firstHit ((e.anchor.label, b) :: rest) = if b then some e.anchor.label else firstHit rest := by
    intro b rest
    cases b <;> rfl
  rw [tradedTests, heldTests, AccountEntry.segment, map_cons, cons_append, cons_append, hcons, hcons]
  rw [hcons]
  cases hheld : c.liquidates h e.anchor <;> cases htraded : c.liquidates (c.after h e) e.anchor
  · simp only [Bool.false_eq_true, if_false, firstHit_append, true_and]
    cases firstHit (e.later.map fun bar => (bar.label, c.liquidates (c.after h e) bar)) with
    | none | some label => simp
  · simpa using hnot hlater'
  · simpa using (hnot hlater).symm
  · simp

/-- **The two ways to test report the same bar exactly if they agree on the anchors reached.** -/
theorem firstHit_eq_iff {days : List (Holding n × AccountEntry n)}
    (hnodup : (days.flatMap fun d => d.2.segment.map MarkBar.label).Nodup) :
    firstHit (days.flatMap (tradedTests c)) = firstHit (days.flatMap (heldTests c)) ↔ AnchorsAgree c days := by
  induction days with
  | nil =>
    refine iff_of_true (by rw [flatMap_nil, flatMap_nil]) fun before d later h => ?_
    simp at h
  | cons day rest ih =>
    obtain ⟨h, e⟩ := day
    rw [flatMap_cons, nodup_append] at hnodup
    obtain ⟨hsegment, hrest, hapart⟩ := hnodup
    have hlabels : ∀ f : Holding n × AccountEntry n → List (ℤ × Bool),
        (∀ d, (f d).map Prod.fst = d.2.segment.map MarkBar.label) →
          e.anchor.label ∉ (rest.flatMap f).map Prod.fst := by
      intro f hf hmem
      rw [map_flatMap] at hmem
      simp only [hf] at hmem; exact hapart _ (mem_map_of_mem mem_cons_self) _ hmem rfl
    replace ih := ih hrest
    rw [flatMap_cons, flatMap_cons, anchor_eq_iff (hlabels _ fun d => (labels_tests d).1)
      (hlabels _ fun d => (labels_tests d).2) hsegment]
    constructor
    · rintro ⟨hanchor, hlater⟩ before d later hdays hpast
      cases before with
      | nil =>
        obtain ⟨rfl, -⟩ := List.cons.inj hdays; exact hanchor
      | cons first before =>
        obtain ⟨rfl, htail⟩ := List.cons.inj hdays
        have hquiet := (hpast _ mem_cons_self).1
        exact ih.mp (hlater hquiet) before d later htail fun past hmem => hpast past (mem_cons_of_mem _ hmem)
    · intro hagree
      have hanchor := hagree [] (h, e) rest rfl nofun
      refine ⟨hanchor, fun hquiet => ih.mpr fun before d later hdays hpast => ?_⟩
      -- an entry without a hit has none on the account it found either, as its anchor agrees
      have hheld : firstHit (heldTests c (h, e)) = none := by
        rw [firstHit_eq_none] at hquiet ⊢
        intro t ht
        rcases mem_cons.mp ht with rfl | ht
        · exact hanchor.trans (hquiet _ mem_cons_self)
        · exact hquiet t (mem_cons_of_mem _ ht)
      refine hagree ((h, e) :: before) d later (by rw [hdays]; rfl) fun past hmem => ?_
      rcases mem_cons.mp hmem with rfl | hmem
      · exact ⟨hquiet, hheld⟩
      · exact hpast past hmem

/-! ### The bars of the entries -/

theorem map_snd_trajectory : ∀ (entries : List (AccountEntry n)) (h : Holding n),
    (trajectory c h entries).map Prod.snd = entries
  | [], _ => rfl
  | e :: rest, _ => congrArg (e :: ·) (map_snd_trajectory rest _)

theorem flatten_segmentsOf {α : Type} {panel : List α} : ∀ {rest : List ℕ} {anchor : ℕ},
    (anchor :: rest).Pairwise (· < ·) → (segmentsOf panel (anchor :: rest)).flatten = panel.drop anchor
  | [], anchor, _ => append_nil _
  | stop :: rest, anchor, hsorted => by
    obtain ⟨hlt, hrest⟩ := pairwise_cons.mp hsorted
    have hle : anchor + (stop - anchor) = stop := Nat.add_sub_cancel' (hlt stop mem_cons_self).le
    rw [segmentsOf, flatten_cons, flatten_segmentsOf hrest, ← hle]; simp

theorem entryAt_segment {segment : List (MarkBar n)} {day : ℕ}
    (h : x.entryAt root segment day = .ok e) : e.segment = segment := by
  unfold ReplayInput.entryAt at h
  split at h
  · next row previous anchor later _ _ =>
    cases hm : x.momentsAt root day with
    | error err => rw [hm] at h; cases h
    | ok moments =>
      rw [hm] at h; cases h; rfl
  · cases h

theorem prepare_cases (h : x.prepare root = .ok (ladders, fallback, entries)) :
    x.accepted = true ∧ ∃ pos, x.anchorPos = some pos ∧
      List.Forall₂ (fun segment e => x.entryAt root segment.1 segment.2 =
        .ok e) (segmentsOf x.panel pos).zipIdx entries := by
  unfold ReplayInput.prepare at h
  split at h
  next haccepted =>
    split at h
    next => cases h
    next pos hpos =>
      obtain ⟨⟨_, _⟩, -, h⟩ := bind_eq_ok.mp h
      obtain ⟨found, hfound, h⟩ := bind_eq_ok.mp h
      cases h; exact ⟨haccepted, pos, hpos, forall₂_of_mapM_eq_ok hfound⟩
  next => cases h

theorem prepare_labels_nodup (h : x.prepare root = .ok (ladders, fallback, entries)) :
    ((entries.flatMap AccountEntry.segment).map MarkBar.label).Nodup := by
  obtain ⟨-, pos, hpos, hentries⟩ := prepare_cases h
  have hsame : List.Forall₂ (· = ·) (entries.map AccountEntry.segment)
      ((segmentsOf x.panel pos).zipIdx.map Prod.fst) := by
    rw [forall₂_map_left_iff, forall₂_map_right_iff]
    exact (hentries.imp fun _ _ h => entryAt_segment h).flip
  rw [forall₂_eq_eq_eq, zipIdx_map_fst] at hsame
  have hsorted : pos.Pairwise (· < ·) := of_decide_eq_true (Option.filter_eq_some_iff.mp hpos).2
  rw [flatMap_def, hsame]
  cases pos with
  | nil => simp [segmentsOf]
  | cons anchor rest =>
    rw [flatten_segmentsOf hsorted]
    exact ((drop_sublist anchor x.panel).map MarkBar.label).nodup x.labels_nodup

theorem length_segmentsOf {α : Type} {panel : List α} : ∀ pos : List ℕ, (segmentsOf panel pos).length = pos.length
  | [] | [_] => rfl
  | _ :: stop :: rest => congrArg (· + 1) (length_segmentsOf (stop :: rest))

theorem prepare_length (h : x.prepare root = .ok (ladders, fallback, entries)) :
    entries.length = x.rows.length := by
  obtain ⟨haccepted, pos, hpos, hentries⟩ := prepare_cases h
  have hanchors : x.anchorTimes.length = pos.length :=
    (option_mapM_eq_some.mp (Option.filter_eq_some_iff.mp hpos).1).length_eq
  simp only [ReplayInput.accepted, Bool.and_eq_true, beq_iff_eq] at haccepted
  rw [← hentries.length_eq, length_zipIdx, length_segmentsOf, ← hanchors]; exact haccepted.1.1.2

theorem replayAccount_eq_ok {p : ℚ} :
    x.replayAccount root p = .ok result ↔ ∃ ladders fallback entries, x.prepare root =
      .ok (ladders, fallback, entries) ∧
      x.report (x.accountRules root p ladders) fallback
        (replayEntries (x.accountRules root p ladders) x.start (x.capital, 0) entries) = result := by
  unfold ReplayInput.replayAccount
  cases x.prepare root with
  | error err => simp [Except.map]
  | ok found =>
    obtain ⟨ladders, fallback, entries⟩ := found; simp [Except.map]

/-- **The liquidation reported is that of the quantities held exactly if the anchor bars agree.** -/
theorem replayAccount_liquidation_iff
    (hresult : x.replayAccount root 1 = .ok result) :
    ∃ ladders fallback entries, x.prepare root = .ok (ladders, fallback, entries) ∧
      (result.liquidatedAt = firstHit ((trajectory (x.accountRules root 1 ladders) x.start entries).flatMap
          (heldTests (x.accountRules root 1 ladders))) ↔
        AnchorsAgree (x.accountRules root 1 ladders)
          (trajectory (x.accountRules root 1 ladders) x.start entries)) := by
  obtain ⟨ladders, fallback, entries, hprepare, rfl⟩ := replayAccount_eq_ok.mp hresult
  refine ⟨ladders, fallback, entries, hprepare, ?_⟩
  have hnodup := prepare_labels_nodup hprepare
  rw [← map_snd_trajectory (c := x.accountRules root 1 ladders) entries x.start, flatMap_map, map_flatMap]
    at hnodup
  rw [← firstHit_eq_iff hnodup]
  exact iff_of_eq (congrArg (· = _) (liquidatedAt_eq entries x.start (x.capital, 0)))

/-- Three times the capital is bought at the close of a bar that had traded at half of it. -/
def crashInput : ReplayInput 1 where
  symbols := fun _ => "AAAUSDT"
  rows := [⟨fun _ => 1, fun _ => 0, fun _ => none, fun _ => none⟩]
  panel := [⟨0, fun _ => some 100, fun _ => some 100, fun _ => some 50⟩,
    ⟨180, fun _ => some 100, fun _ => some 100, fun _ => some 99⟩]
  labels_nodup := by decide
  rules := ⟨[⟨"AAAUSDT", ⟨[⟨0, 1000, 1 / 100, 0, 10⟩], by simp⟩, none, none⟩], []⟩
  policy := ⟨.fixed, 3, 1, 0, 1, 2, 0, 0, 1, 0⟩
  anchorTimes := [0]
  capital := 100
  takerFeeBps := 0
  applyOrderFilters := false
  unitEquity := none
  execution := .taker

/-- The replay reports a liquidation on the bar before the position existed, and no bar liquidates
what is held. -/
theorem replayAccount_liquidates_early :
    (crashInput.replayAccount Rat.sqrt 1).map AccountLedgerResult.liquidatedAt = .ok (some 0) ∧
    (crashInput.prepare Rat.sqrt).map (fun found =>
      firstHit ((trajectory (crashInput.accountRules Rat.sqrt 1 found.1) crashInput.start found.2.2).flatMap
        (heldTests (crashInput.accountRules Rat.sqrt 1 found.1)))) = .ok none := by
  decide +kernel

theorem replayAccount_liquidation_iff_crash : ∃ result, crashInput.replayAccount Rat.sqrt 1 = .ok result ∧
    ∃ ladders fallback entries, crashInput.prepare Rat.sqrt = .ok (ladders, fallback, entries) ∧
      (result.liquidatedAt = firstHit ((trajectory (crashInput.accountRules Rat.sqrt 1 ladders) crashInput.start
          entries).flatMap (heldTests (crashInput.accountRules Rat.sqrt 1 ladders))) ↔
        AnchorsAgree (crashInput.accountRules Rat.sqrt 1 ladders)
          (trajectory (crashInput.accountRules Rat.sqrt 1 ladders) crashInput.start entries)) := by
  have hok : (crashInput.replayAccount Rat.sqrt 1).isOk = true := by decide +kernel
  cases hresult : crashInput.replayAccount Rat.sqrt 1 with
  | error err =>
    rw [hresult] at hok; cases hok
  | ok result => exact ⟨result, rfl, replayAccount_liquidation_iff hresult⟩

end CryptoPilot.Engine
