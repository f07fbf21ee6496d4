/- # Pieces — where the bars and the decisions of a piece come from.

Every piece of a partition takes its bars from the grid of the partition and its decisions from the
decisions of the partition; a partition starts at the replay start or at the decision before it. -/
import Mathlib.Data.List.Chain
import Mathlib.Data.List.TakeWhile
import CryptoPilot.Engine.WindowStream

namespace CryptoPilot.Engine

open List Prod Except

open CryptoPilot.Live (Exc)
open CryptoPilot.Lib (bind_eq_ok)

section Partitions

variable {req : StreamRequest}

theorem partitions_flatten :
    ∀ {fuel i : ℕ} {ds : List Decision}, ds.length ≤ fuel → ((partitions fuel i ds).map snd).flatten = ds
  | 0, i, ds, h => by
    have : ds = [] := length_eq_zero_iff.mp (by omega)
    subst this; rfl
  | fuel + 1, i, [], _ => rfl
  | fuel + 1, i, d :: rest, h => by
    rw [length_cons] at h
    rw [partitions, map_cons, flatten_cons, partitions_flatten (by rw [length_drop]; omega)]
    rw [cons_append, prefix_iff_eq_append.mp ( takeWhile_prefix _)]

theorem mem_of_mem_partitions {fuel i : ℕ} {ds : List Decision} (hfuel : ds.length ≤ fuel) {q : ℕ × List Decision}
    (hq : q ∈ partitions fuel i ds) {d : Decision} (hd : d ∈ q.2) : d ∈ ds := by
  rw [← partitions_flatten (i := i) hfuel]
  exact mem_flatten.mpr ⟨q.2, mem_map.mpr ⟨q, hq, rfl⟩, hd⟩

end Partitions

section Pieces

variable {req : StreamRequest} {grid : List ℤ} {key : ℕ × ℕ} {planned : ℕ}

structure Piece.Within (grid : List ℤ) (ds : List Decision) (p : Piece) : Prop where
  bars : p.grid.Sublist grid
  decisions : ∀ d ∈ p.decisions, d ∈ ds

theorem cut_sublist (g0 g1 : ℕ) : (cut grid g0 g1).Sublist grid :=
  (drop_sublist _ _).trans (take_sublist _ _)

variable {ds : List Decision} {ps : List Piece} {plan : Option (ℕ × ℕ → ℕ)}

theorem fitting_first {g1 : ℕ} : fitting req grid g1 ds <+: ds := takeWhile_prefix _

/-- The two kinds of pieces of a budgeted partition: up to the next decision, or with the decisions
that fit. -/
inductive Piece.Shape (req : StreamRequest) (grid : List ℤ) (key : ℕ × ℕ) (planned : ℕ) (ds : List Decision) :
    Piece → Prop
  | gap (g0 g1 i : ℕ) : Piece.Shape req grid key planned ds ⟨cut grid g0 g1, i, [], i, key, false⟩
  | fits (g0 i : ℕ) (left : List Decision) (hleft : left <:+ ds) :
      Piece.Shape req grid key planned ds ⟨cut grid g0 (pieceEnd grid planned g0), i,
        fitting req grid (pieceEnd grid planned g0) left,
        i + (fitting req grid (pieceEnd grid planned g0) left).length, key, true⟩

theorem Piece.Shape.mono {ds ds' : List Decision} {p : Piece} (h : p.Shape req grid key planned ds)
    (hsuffix : ds <:+ ds') : p.Shape req grid key planned ds' := by
  cases h with
  | gap g0 g1 i => exact .gap g0 g1 i
  | fits g0 i left hleft => exact .fits g0 i left (hleft.trans hsuffix)

theorem decisionPieces_shape :
    ∀ {fuel g0 i : ℕ} {ds : List Decision} {ps : List Piece} {g : ℕ} {done : Bool},
      decisionPieces req grid key planned fuel g0 i ds = .ok (ps, g, done) →
      ∀ p ∈ ps, p.Shape req grid key planned ds
  | 0, g0, i, ds, ps, g, done, h => by
    cases h
  | fuel + 1, g0, i, [], ps, g, done, h => by
    simp only [decisionPieces, ok.injEq, mk.injEq] at h
    rw [← h.1]; simp
  | fuel + 1, g0, i, d :: rest, ps, g, done, h => by
    rw [decisionPieces] at h
    simp only at h
    split at h
    · split at h
      · cases h
      · rw [bind_eq_ok] at h
        obtain ⟨⟨later, g', done'⟩, hlater, h⟩ := h
        simp only [ok.injEq, mk.injEq] at h
        rw [← h.1]
        intro p hp
        rcases mem_cons.mp hp with rfl | hp
        · exact .gap g0 _ i
        · exact decisionPieces_shape hlater p hp
    · split at h
      · simp only [ok.injEq, mk.injEq] at h
        rw [← h.1]
        intro p hp
        rw [mem_singleton.mp hp]; exact .fits g0 i _ (suffix_refl _)
      · rw [bind_eq_ok] at h
        obtain ⟨⟨later, g', done'⟩, hlater, h⟩ := h
        simp only [ok.injEq, mk.injEq] at h
        rw [← h.1]
        intro p hp
        rcases mem_cons.mp hp with rfl | hp
        · exact .fits g0 i _ (suffix_refl _)
        · exact (decisionPieces_shape hlater p hp).mono (drop_suffix _ _)

theorem decisionPieces_within {fuel g0 i : ℕ} {g : ℕ} {done : Bool}
    (h : decisionPieces req grid key planned fuel g0 i ds = .ok (ps, g, done)) : ∀ p ∈ ps, p.Within grid ds := by
  intro p hp
  cases decisionPieces_shape h p hp with
  | gap g0 g1 i => exact ⟨cut_sublist _ _, by simp⟩
  | fits g0 i left hleft => exact ⟨cut_sublist _ _, fun d hd => hleft.subset (fitting_first.subset hd)⟩

theorem tailPieces_within :
    ∀ {fuel g : ℕ} {ds : List Decision}, ∀ p ∈ tailPieces grid key planned fuel g, p.Within grid ds
  | 0, g, ds, p, hp => by simp [tailPieces] at hp
  | fuel + 1, g, ds, p, hp => by
    rw [tailPieces] at hp
    split at hp
    · rcases mem_cons.mp hp with rfl | hp
      · exact ⟨cut_sublist _ _, by simp⟩
      · split at hp
        · cases hp
        · exact tailPieces_within p hp
    · cases hp

variable {previous : Option Decision}

/-- **The pieces of a partition** are cut from its grid and its decisions. -/
theorem partitionPieces_within {i0 : ℕ} {isLast : Bool}
    (h : partitionPieces req plan previous i0 ds isLast = .ok ps) :
    ∀ p ∈ ps, p.Within (partitionGrid req previous ds isLast) ds := by
  have whole : ∀ p ∈ [(⟨partitionGrid req previous ds isLast, i0, ds, i0 + ds.length, (i0, i0 + ds.length), true⟩ :
      Piece)], p.Within (partitionGrid req previous ds isLast) ds := by
    intro p hp
    rw [mem_singleton.mp hp]; exact ⟨List.Sublist.refl _, fun _ h => h⟩
  unfold partitionPieces at h
  simp only at h
  split at h
  · cases h
  · split at h
    · exact ok.inj h ▸ whole
    · split at h
      · cases h
      · split at h
        · cases h
        · split at h
          · exact ok.inj h ▸ whole
          · rw [bind_eq_ok] at h
            obtain ⟨⟨qs, g, done⟩, hqs, h⟩ := h
            simp only [ok.injEq] at h
            rw [← h]
            intro p hp
            split at hp
            · rcases mem_append.mp hp with hp | hp
              · exact decisionPieces_within hqs p hp
              · exact tailPieces_within p hp
            · exact decisionPieces_within hqs p hp

theorem mem_dateRange {a b x : ℤ} (h : x ∈ dateRange a b) : a ≤ x ∧ x ≤ b := by
  rw [dateRange, mem_map] at h
  obtain ⟨k, hk, rfl⟩ := h
  rw [mem_range] at hk
  have hstep : (0 : ℤ) < stepNs := by decide
  have hk' : (k : ℤ) ≤ (b - a) / stepNs := by omega
  constructor
  · have := mul_nonneg (Int.natCast_nonneg k) hstep.le; omega
  · have := Int.ediv_mul_le (b - a) hstep.ne'; nlinarith

theorem start_le_partitionGrid {isLast : Bool} {x : ℤ}
    (hprevious : ∀ d ∈ previous, req.start ≤ d.label)
    (hx : x ∈ partitionGrid req previous ds isLast) :
    req.start ≤ x := by
  have hle := (mem_dateRange hx).1
  cases previous with
  | none => exact hle
  | some d => exact (hprevious d rfl).trans hle

theorem allPieces_from_start {all : List Decision} (hall : ∀ d ∈ all, req.start ≤ d.label) :
    ∀ {parts : List (ℕ × List Decision)} {previous : Option Decision} {ps : List Piece},
      (∀ q ∈ parts, ∀ d ∈ q.2, d ∈ all) → (∀ d ∈ previous, d ∈ all) → allPieces req plan previous parts = .ok ps →
      ∀ p ∈ ps, (∀ x ∈ p.grid, req.start ≤ x) ∧ ∀ d ∈ p.decisions, d ∈ all
  | [], previous, ps, _, _, h => by
    rw [allPieces, ok.injEq] at h
    rw [← h]; simp
  | (i0, ds) :: rest, previous, ps, hparts, hprevious, h => by
    rw [allPieces, bind_eq_ok] at h
    obtain ⟨qs, hqs, h⟩ := h
    obtain ⟨later, hlater, h⟩ := bind_eq_ok.mp h
    rw [ok.injEq] at h
    rw [← h]
    intro p hp
    have hds : ∀ d ∈ ds, d ∈ all := hparts (i0, ds) mem_cons_self
    rcases mem_append.mp hp with hp | hp
    · have hwithin := partitionPieces_within hqs p hp
      exact ⟨fun x hx => start_le_partitionGrid (fun d hd => hall d (hprevious d hd)) (hwithin.bars.subset hx),
        fun d hd => hds d (hwithin.decisions d hd)⟩
    · exact allPieces_from_start hall (fun q hq => hparts q (mem_cons_of_mem _ hq))
        (fun d hd => hds d (mem_of_getLast? hd)) hlater p hp

/-- **No piece has a bar before the replay start**, when the target path has no row before it. -/
theorem pieces_from_start
    (hlabels : ∀ d ∈ req.decisions, req.start ≤ d.label) (h : pieces req plan = .ok ps) :
    ∀ p ∈ ps, (∀ x ∈ p.grid, req.start ≤ x) ∧ ∀ d ∈ p.decisions, d ∈ req.decisions := by
  unfold pieces at h
  split at h
  · cases h
  · split at h
    · rw [ok.injEq] at h
      rw [← h]
      intro p hp
      rw [mem_singleton.mp hp]; exact ⟨fun x hx => (mem_dateRange hx).1, by simp⟩
    · exact allPieces_from_start hlabels (fun q hq d hd => mem_of_mem_partitions le_rfl hq hd) (by simp) h

end Pieces

/-! ## Neighbouring pieces -/

section Links

variable {req : StreamRequest} {grid : List ℤ} {key : ℕ × ℕ} {planned : ℕ}

def Piece.Covered (p : Piece) : Prop := p.grid ≠ [] → ∀ d ∈ p.decisions, d.label ≤ p.grid.getLastD 0

/-- A piece covers its decisions, or the next piece starts at the last of them. -/
def Piece.Linked (p q : Piece) : Prop :=
  p.Covered ∨ ∃ e, p.decisions.getLast? = some e ∧ q.grid.headD 0 = e.label

theorem le_of_posLeft_le (hsorted : grid.Pairwise (· < ·)) {t : ℤ} {i : ℕ} (hi : i < grid.length)
    (h : posLeft grid t ≤ i) : t ≤ grid[i] := by
  by_contra hlt
  have hall : (grid.take (i + 1)).filter (fun b => decide (b < t)) = grid.take (i + 1) := by
    rw [filter_eq_self]
    intro x hx
    obtain ⟨j, hj, rfl⟩ := mem_take_iff_getElem.mp hx
    simp only [decide_eq_true_eq]
    rcases Nat.lt_or_ge j i with hji | hji
    · have := pairwise_iff_getElem.mp hsorted j i (by omega) hi hji; omega
    · have : j = i := by omega
      subst this; omega
  have hlength := ((take_sublist (i + 1) grid).filter (fun b => decide (b < t))).length_le
  rw [hall, length_take] at hlength
  unfold posLeft at h; omega

theorem cut_getLastD {g0 g1 : ℕ} (hg1 : g1 < grid.length) (h : cut grid g0 g1 ≠ []) :
    (cut grid g0 g1).getLastD 0 = grid[g1] := by
  unfold cut at h ⊢
  rw [getLastD_eq_getLast?, getLast?_drop, if_neg, getLast?_take]
  · simp [hg1]
  · intro hle; exact h (drop_eq_nil_of_le hle)

theorem pieceEnd_lt {g0 : ℕ} (h : grid ≠ []) : pieceEnd grid planned g0 < grid.length := by
  have := length_pos_iff.mpr h
  unfold pieceEnd; omega

variable {ds : List Decision} {ps : List Piece} {plan : Option (ℕ × ℕ → ℕ)}

theorem fitting_covered (hsorted : grid.Pairwise (· < ·)) {g0 g1 i stop : ℕ}
    (hg1 : g1 < grid.length) : Piece.Covered ⟨cut grid g0 g1, i, fitting req grid g1 ds, stop, key, true⟩ := by
  intro hne d hd
  rw [cut_getLastD hg1 hne]
  apply le_of_posLeft_le hsorted
  have := mem_takeWhile_imp hd
  simp only [Bool.and_eq_true, decide_eq_true_eq] at this; exact this.1

theorem decisionPieces_covered (hsorted : grid.Pairwise (· < ·)) (hgrid : grid ≠ [])
    {fuel g0 i : ℕ} {g : ℕ} {done : Bool}
    (h : decisionPieces req grid key planned fuel g0 i ds = .ok (ps, g, done)) : ∀ p ∈ ps, p.Covered := by
  intro p hp
  cases decisionPieces_shape h p hp with
  | gap g0 g1 i => exact fun _ => by simp
  | fits g0 i left _ => exact fitting_covered hsorted (pieceEnd_lt hgrid)

theorem tailPieces_covered : ∀ {fuel g : ℕ}, ∀ p ∈ tailPieces grid key planned fuel g, p.Covered := by
  intro fuel g p hp _ d hd
  have := (tailPieces_within p hp : p.Within grid []).decisions d hd; simp at this

variable {rest : List Decision}

theorem decisionPieces_head (hgrid : grid ≠ []) {fuel i : ℕ} {d : Decision} {g : ℕ} {done : Bool}
    (h : decisionPieces req grid key planned fuel 0 i (d :: rest) = .ok (ps, g, done)) :
    ∃ p later, ps = p :: later ∧ p.grid.headD 0 = grid.headD 0 := by
  have hhead : ∀ g1, (cut grid 0 g1).headD 0 = grid.headD 0 := by
    intro g1
    cases grid with
    | nil => exact absurd rfl hgrid
    | cons x xs => simp [cut]
  cases fuel with
  | zero =>
    cases h
  | succ fuel =>
    rw [decisionPieces] at h
    simp only at h
    split at h
    · split at h
      · cases h
      · rw [bind_eq_ok] at h
        obtain ⟨⟨later, g', done'⟩, -, h⟩ := h
        simp only [ok.injEq, mk.injEq] at h; exact ⟨_, later, h.1.symm, hhead _⟩
    · split at h
      · simp only [ok.injEq, mk.injEq] at h; exact ⟨_, [], h.1.symm, hhead _⟩
      · rw [bind_eq_ok] at h
        obtain ⟨⟨later, g', done'⟩, -, h⟩ := h
        simp only [ok.injEq, mk.injEq] at h; exact ⟨_, later, h.1.symm, hhead _⟩

variable {previous : Option Decision}

theorem partitionPieces_cases {i0 : ℕ} {d : Decision} {isLast : Bool}
    (h : partitionPieces req plan previous i0 (d :: rest) isLast = .ok ps) :
    (∃ p later, ps = p :: later ∧ p.grid.headD 0 = (partitionGrid req previous (d :: rest) isLast).headD 0) ∧
      partitionGrid req previous (d :: rest) isLast ≠ [] ∧
      ((∃ p, ps = [p] ∧ p.decisions = d :: rest) ∨ ∀ p ∈ ps, p.Covered) := by
  unfold partitionPieces at h
  simp only at h
  split at h
  · cases h
  · next hlength =>
    have hgrid : partitionGrid req previous (d :: rest) isLast ≠ [] := by
      intro hnil
      rw [hnil] at hlength; simp at hlength
    have hsorted : (partitionGrid req previous (d :: rest) isLast).Pairwise (· < ·) := dateRange_sorted _ _
    split at h
    · rw [ok.injEq] at h
      subst h; exact ⟨⟨_, [], rfl, rfl⟩, hgrid, .inl ⟨_, rfl, rfl⟩⟩
    · split at h
      · cases h
      · split at h
        · cases h
        · split at h
          · rw [ok.injEq] at h
            subst h; exact ⟨⟨_, [], rfl, rfl⟩, hgrid, .inl ⟨_, rfl, rfl⟩⟩
          · rw [bind_eq_ok] at h
            obtain ⟨⟨qs, g, done⟩, hqs, h⟩ := h
            obtain ⟨p, later, rfl, hhead⟩ := decisionPieces_head hgrid hqs
            have hcovered := decisionPieces_covered hsorted hgrid hqs
            simp only [ok.injEq] at h
            rw [← h]
            refine ⟨?_, hgrid, .inr ?_⟩
            · split
              · exact ⟨p, _, rfl, hhead⟩
              · exact ⟨p, later, rfl, hhead⟩
            · intro q hq
              split at hq
              · rcases mem_append.mp hq with hq | hq
                · exact hcovered q hq
                · exact tailPieces_covered q hq
              · exact hcovered q hq

theorem dateRange_head {a b : ℤ} (h : dateRange a b ≠ []) : (dateRange a b).headD 0 = a := by
  unfold dateRange at h ⊢
  cases hn : ((b - a) / stepNs + 1).toNat with
  | zero => simp [hn] at h
  | succ n => simp [range_succ_eq_map]

theorem partitionGrid_head {isLast : Bool} (h : partitionGrid req previous ds isLast ≠ []) :
    (partitionGrid req previous ds isLast).headD 0 = (previous.map Decision.label).getD req.start := by
  unfold partitionGrid at h ⊢
  rw [dateRange_head h]
  cases previous <;> rfl

theorem partitions_ne_nil : ∀ {fuel i : ℕ} {ds : List Decision}, ∀ q ∈ partitions fuel i ds, q.2 ≠ []
  | 0, i, ds, q, hq | fuel + 1, i, [], q, hq => by simp [partitions] at hq
  | fuel + 1, i, d :: rest, q, hq => by
    rcases mem_cons.mp hq with rfl | hq
    · simp
    · exact partitions_ne_nil q hq

theorem allPieces_linked :
    ∀ {parts : List (ℕ × List Decision)} {previous : Option Decision} {ps : List Piece},
      (∀ q ∈ parts, q.2 ≠ []) → allPieces req plan previous parts = .ok ps →
      ps.IsChain Piece.Linked ∧
        ∀ p ∈ ps.head?, p.grid.headD 0 = (previous.map Decision.label).getD req.start
  | [], previous, ps, _, h => by
    rw [allPieces, ok.injEq] at h
    rw [← h]; simp
  | (i0, []) :: rest, previous, ps, hparts, h => absurd rfl (hparts (i0, []) mem_cons_self)
  | (i0, d :: ds) :: rest, previous, ps, hparts, h => by
    rw [allPieces, bind_eq_ok] at h
    obtain ⟨qs, hqs, h⟩ := h
    obtain ⟨later, hlater, h⟩ := bind_eq_ok.mp h
    rw [ok.injEq] at h
    subst h
    obtain ⟨hchain, hhead⟩ := allPieces_linked (fun q hq => hparts q (mem_cons_of_mem _ hq)) hlater
    obtain ⟨⟨p, tail, rfl, hp⟩, hgrid, hcases⟩ := partitionPieces_cases hqs
    refine ⟨?_, ?_⟩
    · apply List.IsChain.append _ hchain
      · intro x hx y hy
        -- the next partition starts at the last decision of this one
        rcases hcases with ⟨q, hq, hdecisions⟩ | hcovered
        · rw [hq] at hx
          simp only [getLast?_singleton, Option.mem_def, Option.some.injEq] at hx
          subst hx
          refine .inr ⟨(d :: ds).getLast (by simp), ?_, ?_⟩
          · rw [hdecisions, getLast?_eq_some_getLast]
          · rw [hhead y hy]; rfl
        · exact .inl (hcovered x (mem_of_getLast? hx))
      · rcases hcases with ⟨q, hq, -⟩ | hcovered
        · rw [hq]; simp
        · rw [isChain_iff_forall_rel_of_append_cons_cons]
          intro x y before after heq; exact .inl (hcovered x (by rw [heq]; simp))
    · intro x hx
      simp only [cons_append, head?_cons, Option.mem_def, Option.some.injEq] at hx
      subst hx
      rw [hp, partitionGrid_head hgrid]

/-- **Neighbouring pieces are linked**, and the first piece starts with the replay. -/
theorem pieces_linked (h : pieces req plan = .ok ps) :
    ps.IsChain Piece.Linked ∧ ∀ p ∈ ps.head?, p.grid ≠ [] → p.grid.headD 0 = req.start := by
  unfold pieces at h
  split at h
  · cases h
  · split at h
    · rw [ok.injEq] at h
      rw [← h]
      refine ⟨by simp, ?_⟩
      intro p hp hne
      simp only [head?_cons, Option.mem_def, Option.some.injEq] at hp
      subst hp; exact dateRange_head hne
    · obtain ⟨hchain, hhead⟩ := allPieces_linked (fun q hq => partitions_ne_nil q hq) h
      exact ⟨hchain, fun p hp _ => hhead p hp⟩

end Links

/-! ## Materialized windows -/

section Windows

variable {req : StreamRequest} {m : Market} {p : Piece} {previous requirement : List String} {w : Window}

/-- The window of a piece: its roster, the planes of the market and its settlement evidence. -/
structure Materialized (req : StreamRequest) (m : Market) (p : Piece) (previous requirement : List String)
    (w : Window) : Prop where
  columns : w.columns = req.columns
  symbols : w.symbols =
    (pieceRoster req p previous requirement).filter (fun s => !settledBeforePiece m p s)
  grid : w.grid = p.grid
  decisions : w.decisions = p.decisions
  high : w.high = m.high
  low : w.low = m.low
  close : w.close = m.close
  mark : w.mark = m.close
  fundingRate : w.fundingRate = m.fundingRate
  fundingKnown : w.fundingKnown = m.fundingKnown
  quoteVolume : w.quoteVolume = m.quoteVolume
  available : w.availableAt = some (fun b => b + stepNs)
  events : settlementEventsForPiece req m w.symbols p.grid = .ok w.settlementEvents

theorem materialize_eq_ok (h : materialize req m p previous requirement = .ok w) :
    Materialized req m p previous requirement w := by
  unfold materialize at h
  simp only at h
  split at h
  · rw [bind_eq_ok] at h
    obtain ⟨events, hevents, h⟩ := h
    rw [ok.injEq] at h
    subst h; exact ⟨rfl, rfl, rfl, rfl, rfl, rfl, rfl, rfl, rfl, rfl, rfl, rfl, hevents⟩
  · cases h

theorem settlementEventsForPiece_eq_ok {roster : List String} {grid : List ℤ} {events : List SettlementEvent}
    (h : settlementEventsForPiece req m roster grid = .ok events) :
    (∀ s ∈ roster, settlementsRejected req m grid s = false) ∧
      ∀ e, e ∈ events ↔ ∃ r ∈ m.registry, r.symbol ∈ roster ∧ r.announcedAt ≤ grid.getLastD 0 ∧ e = r.event := by
  unfold settlementEventsForPiece at h
  split at h
  · cases h
  · next haccepted =>
    rw [ok.injEq] at h
    subst h
    constructor
    · intro s hs
      rw [Bool.not_eq_true, any_eq_false] at haccepted; simpa using haccepted s hs
    · intro e
      simp only [mem_insertionSort, mem_flatMap, mem_map, emittedRecords, Market.settlementsFor,
        mem_filter, decide_eq_true_eq]
      constructor
      · rintro ⟨s, hs, r, ⟨⟨hr, rfl⟩, hann⟩, rfl⟩; exact ⟨r, hr, hs, hann, rfl⟩
      · rintro ⟨r, hr, hs, hann, rfl⟩; exact ⟨r.symbol, hs, r, ⟨⟨hr, rfl⟩, hann⟩, rfl⟩

theorem drive_eq_ok {cfg : ReplayConfig} {mode : RosterMode} {a b : Acc} {active : List String}
    (h : drive cfg req m mode (a, previous) p = .ok (b, active)) :
    ∃ requirement w, Materialized req m p previous requirement w ∧ consume cfg a w = .ok b ∧
      active = nextActive req p previous := by
  obtain ⟨w, hw, h⟩ := bind_eq_ok.mp h
  obtain ⟨c, hc, h⟩ := bind_eq_ok.mp h
  obtain ⟨rfl, rfl⟩ := h; exact ⟨_, w, materialize_eq_ok hw, hc, rfl⟩

end Windows

end CryptoPilot.Engine
