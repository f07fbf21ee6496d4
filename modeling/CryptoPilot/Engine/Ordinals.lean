/- # Ordinals — the decisions of the pieces.

The pieces of a partition take its decisions in order.  A piece that reaches the last bar ends the
loop, and a decision that starts or resolves after that bar fits in no piece: a cut partition yields
each of its decisions exactly when all of them fit (`pieces_decisions`). -/
import CryptoPilot.Engine.Pieces

namespace CryptoPilot.Engine

open List Prod Except

open CryptoPilot.Live (Exc)
open CryptoPilot.Lib (bind_eq_ok)

section Once

variable {req : StreamRequest} {grid : List ℤ} {key : ℕ × ℕ} {planned : ℕ}

def yielded (ps : List Piece) : List Decision := ps.flatMap Piece.decisions

theorem yielded_append (ps qs : List Piece) : yielded (ps ++ qs) = yielded ps ++ yielded qs := by
  simp [yielded]

def Resolves (req : StreamRequest) (grid : List ℤ) (last : ℕ) (d : Decision) : Prop :=
  posLeft grid d.label ≤ last ∧ timeoutPos req grid d ≤ last

variable {ds : List Decision} {ps : List Piece} {plan : Option (ℕ × ℕ → ℕ)} {previous : Option Decision}

theorem mem_fitting {g1 : ℕ} {d : Decision} (h : d ∈ fitting req grid g1 ds) : Resolves req grid g1 d := by
  have := mem_takeWhile_imp h; simpa [Resolves] using this

theorem fitting_eq_self {g1 : ℕ} (h : ∀ d ∈ ds, Resolves req grid g1 d) : fitting req grid g1 ds = ds := by
  unfold fitting
  rw [takeWhile_eq_self_iff]
  intro d hd; simpa [Resolves] using h d hd

theorem pieceEnd_le (g0 : ℕ) : pieceEnd grid planned g0 ≤ grid.length - 1 := min_le_right _ _

theorem decisionPieces_yielded :
    ∀ {fuel g0 i : ℕ} {ds : List Decision} {ps : List Piece} {g : ℕ} {done : Bool},
      decisionPieces req grid key planned fuel g0 i ds = .ok (ps, g, done) →
      ∃ left, ds = yielded ps ++ left ∧ (done = true ↔ left = []) ∧
        ((∀ d ∈ ds, Resolves req grid (grid.length - 1) d) → left = [])
  | 0, g0, i, ds, ps, g, done, h => by
    cases h
  | fuel + 1, g0, i, [], ps, g, done, h => by
    obtain ⟨rfl, -, rfl⟩ := h; exact ⟨[], rfl, by simp, fun _ => rfl⟩
  | fuel + 1, g0, i, d :: rest, ps, g, done, h => by
    rw [decisionPieces] at h
    simp only at h
    have hsplit : d :: rest = fitting req grid (pieceEnd grid planned g0) (d :: rest) ++
        (d :: rest).drop (fitting req grid (pieceEnd grid planned g0) (d :: rest)).length :=
      prefix_iff_eq_append.mp fitting_first |>.symm
    split at h
    · split at h
      · cases h
      · rw [bind_eq_ok] at h
        obtain ⟨⟨later, g', done'⟩, hlater, h⟩ := h
        obtain ⟨rfl, -, rfl⟩ := h
        obtain ⟨left, hleft, hdone, hall⟩ := decisionPieces_yielded hlater
        exact ⟨left, hleft, hdone, hall⟩
    · split at h
      · next hlast =>
        obtain ⟨rfl, -, rfl⟩ := h
        refine ⟨(d :: rest).drop (fitting req grid (pieceEnd grid planned g0) (d :: rest)).length, ?_, ?_, ?_⟩
        · simpa [yielded] using hsplit
        · simp
        · intro hall
          rw [hlast, fitting_eq_self hall]; simp
      · rw [bind_eq_ok] at h
        obtain ⟨⟨later, g', done'⟩, hlater, h⟩ := h
        obtain ⟨rfl, -, rfl⟩ := h
        obtain ⟨left, hleft, hdone, hall⟩ := decisionPieces_yielded hlater
        refine ⟨left, ?_, hdone, fun h => hall (fun e he => h e (mem_of_mem_drop he))⟩
        nth_rewrite 1 [hsplit]
        rw [hleft]; simp [yielded]

theorem decisionPieces_resolves {fuel g0 i : ℕ} {g : ℕ} {done : Bool}
    (h : decisionPieces req grid key planned fuel g0 i ds = .ok (ps, g, done)) :
    ∀ d ∈ yielded ps, Resolves req grid (grid.length - 1) d := by
  intro d hd
  obtain ⟨p, hp, hd⟩ := mem_flatMap.mp hd
  cases decisionPieces_shape h p hp with
  | gap g0 g1 i => simp at hd
  | fits g0 i left _ =>
    have hfit := mem_fitting hd
    exact ⟨hfit.1.trans (pieceEnd_le g0), hfit.2.trans (pieceEnd_le g0)⟩

theorem tailPieces_yielded {fuel g : ℕ} : yielded (tailPieces grid key planned fuel g) = [] := by
  unfold yielded
  rw [flatMap_eq_nil_iff]
  intro p hp
  rw [eq_nil_iff_forall_not_mem]
  intro d hd
  have := (tailPieces_within p hp : p.Within grid []).decisions d hd; simp at this

/-- A partition that the budget cuts has room for each of its decisions. -/
def PartitionResolves (req : StreamRequest) (plan : Option (ℕ × ℕ → ℕ)) (previous : Option Decision) (i0 : ℕ)
    (ds : List Decision) (isLast : Bool) : Prop :=
  ∀ planner ∈ plan, planner (i0, i0 + ds.length) < (partitionGrid req previous ds isLast).length →
    ∀ d ∈ ds, Resolves req (partitionGrid req previous ds isLast)
      ((partitionGrid req previous ds isLast).length - 1) d

/-- **The decisions of one partition**: in order, and all of them exactly when they fit. -/
theorem partitionPieces_yielded {i0 : ℕ} {isLast : Bool}
    (h : partitionPieces req plan previous i0 ds isLast = .ok ps) :
    yielded ps <+: ds ∧ (yielded ps = ds ↔ PartitionResolves req plan previous i0 ds isLast) := by
  have whole : yielded [(⟨partitionGrid req previous ds isLast, i0, ds, i0 + ds.length,
    (i0, i0 + ds.length), true⟩ :
      Piece)] = ds := by
    simp [yielded]
  unfold partitionPieces at h
  simp only at h
  split at h
  · cases h
  · split at h
    · rw [ok.injEq] at h
      subst h
      rw [whole]; exact ⟨prefix_refl ds, by simp [PartitionResolves]⟩
    · next planner =>
      split at h
      · cases h
      · split at h
        · cases h
        · next hplanned =>
          split at h
          · next hall =>
            rw [ok.injEq] at h
            subst h
            rw [whole]
            refine ⟨prefix_refl ds, ?_⟩; simp [PartitionResolves, hall]
          · next hcut =>
            obtain ⟨⟨qs, g, done⟩, hqs, h⟩ := bind_eq_ok.mp h
            simp only [ok.injEq] at h
            subst h
            have hyielded : yielded (if done = true then
                qs ++ tailPieces (partitionGrid req previous ds isLast) (i0, i0 + ds.length)
                  (planner (i0, i0 + ds.length)) (partitionGrid req previous ds isLast).length g
                else qs) = yielded qs := by
              split
              · rw [yielded_append, tailPieces_yielded, append_nil]
              · rfl
            obtain ⟨left, hleft, -, hfits⟩ := decisionPieces_yielded hqs
            rw [hyielded]
            refine ⟨⟨left, hleft.symm⟩, ?_, ?_⟩
            · intro heq planner' hplanner' _ d hd
              exact decisionPieces_resolves hqs d (by rw [heq]; exact hd)
            · intro hresolves
              have hlt : planner (i0, i0 + ds.length) < (partitionGrid req previous ds isLast).length := by
                omega
              have hnil := hfits (hresolves planner rfl hlt)
              rw [hnil, append_nil] at hleft; exact hleft.symm

def AllResolve (req : StreamRequest) (plan : Option (ℕ × ℕ → ℕ)) : Option Decision → List (ℕ × List Decision) → Prop
  | _, [] => True
  | previous, (i0, ds) :: rest =>
    PartitionResolves req plan previous i0 ds rest.isEmpty ∧ AllResolve req plan ds.getLast? rest

theorem append_eq_append_of_sublist {α : Type} {xs ys xs' ys' : List α} (hx : xs.Sublist xs')
    (hy : ys.Sublist ys') :
    xs ++ ys = xs' ++ ys' ↔ xs = xs' ∧ ys = ys' := by
  constructor
  · intro h
    have hlength := congrArg List.length h
    rw [length_append, length_append] at hlength
    have h1 := hx.length_le
    have h2 := hy.length_le; exact ⟨hx.eq_of_length (by omega), hy.eq_of_length (by omega)⟩
  · rintro ⟨rfl, rfl⟩; rfl

theorem allPieces_yielded :
    ∀ {parts : List (ℕ × List Decision)} {previous : Option Decision} {ps : List Piece},
      allPieces req plan previous parts = .ok ps →
      (yielded ps).Sublist (parts.map snd).flatten ∧
        (yielded ps = (parts.map snd).flatten ↔ AllResolve req plan previous parts)
  | [], previous, ps, h => by
    rw [allPieces, ok.injEq] at h
    subst h; simp [yielded, AllResolve]
  | (i0, ds) :: rest, previous, ps, h => by
    rw [allPieces, bind_eq_ok] at h
    obtain ⟨qs, hqs, h⟩ := h
    obtain ⟨later, hlater, h⟩ := bind_eq_ok.mp h
    rw [ok.injEq] at h
    subst h
    obtain ⟨hfirst, hiff⟩ := partitionPieces_yielded hqs
    obtain ⟨hsub, hiff'⟩ := allPieces_yielded hlater
    rw [yielded_append, map_cons, flatten_cons]
    refine ⟨hfirst.sublist.append hsub, ?_⟩
    rw [append_eq_append_of_sublist hfirst.sublist hsub, hiff, hiff']; rfl

/-- Every partition that the budget cuts has room for each of its decisions. -/
def RequestResolves (req : StreamRequest) (plan : Option (ℕ × ℕ → ℕ)) : Prop :=
  AllResolve req plan none (partitions req.decisions.length 0 req.decisions)

/-- **The pieces of a target path** take its rows in order, and all of them exactly when they fit.
-/
theorem pieces_decisions (h : pieces req plan = .ok ps) :
    (yielded ps).Sublist req.decisions ∧ (yielded ps = req.decisions ↔ RequestResolves req plan) := by
  unfold pieces at h
  split at h
  · cases h
  · split at h
    · next hnone =>
      rw [ok.injEq] at h
      subst h
      rw [RequestResolves, hnone]; simp [yielded, partitions, AllResolve]
    · have hall := allPieces_yielded h
      rw [partitions_flatten le_rfl] at hall; exact hall

/-! ## Ordinals -/

/-- The pieces are in the order of their ordinals, and no decision of a piece is after its ordinal.
-/
structure Scheduling (all : List Decision) (lo hi : ℕ) (ps : List Piece) : Prop where
  stops : ∀ p ∈ ps, lo ≤ p.stop ∧ p.stop ≤ hi
  ordered : ps.Pairwise (fun p q => p.stop ≤ q.stop)
  taken : ∀ p ∈ ps, ∀ d ∈ p.decisions, d ∈ all.take p.stop

variable {all : List Decision}

theorem Scheduling.nil (lo hi : ℕ) : Scheduling all lo hi [] := ⟨by simp, by simp, by simp⟩

theorem Scheduling.append {lo mid hi : ℕ} {ps qs : List Piece} (hps : Scheduling all lo mid ps)
    (hqs : Scheduling all mid hi qs) (hlo : lo ≤ mid) (hhi : mid ≤ hi) : Scheduling all lo hi (ps ++ qs) where
  stops := by
    intro p hp
    rcases mem_append.mp hp with hp | hp
    · exact ⟨(hps.stops p hp).1, (hps.stops p hp).2.trans hhi⟩
    · exact ⟨hlo.trans (hqs.stops p hp).1, (hqs.stops p hp).2⟩
  ordered := by
    refine pairwise_append.mpr ⟨hps.ordered, hqs.ordered, ?_⟩
    intro p hp q hq; exact (hps.stops p hp).2.trans (hqs.stops q hq).1
  taken := by
    intro p hp
    rcases mem_append.mp hp with hp | hp
    · exact hps.taken p hp
    · exact hqs.taken p hp

theorem Scheduling.one {i : ℕ} {p : Piece} (hp : p.decisions <+: all.drop i)
    (hstop : p.stop = i + p.decisions.length) :
    Scheduling all i p.stop [p] where
  stops := by
    intro q hq
    rw [mem_singleton.mp hq]; omega
  ordered := pairwise_singleton _ _
  taken := by
    intro q hq d hd
    rw [mem_singleton.mp hq] at hd ⊢
    rw [hstop, take_add, ← prefix_iff_eq_take.mp hp]; exact mem_append_right _ hd

theorem drop_first_of_first {i : ℕ} {fits ds : List Decision} (hfits : fits <+: ds) (hds : ds <+: all.drop i) :
    ds.drop fits.length <+: all.drop (i + fits.length) := by
  obtain ⟨left, rfl⟩ := hfits
  obtain ⟨rest, hrest⟩ := hds
  refine ⟨rest, ?_⟩
  rw [drop_left, ← drop_drop, ← hrest, append_assoc, drop_left]

theorem decisionPieces_scheduled :
    ∀ {fuel g0 i : ℕ} {ds : List Decision} {ps : List Piece} {g : ℕ} {done : Bool}, ds <+: all.drop i →
      decisionPieces req grid key planned fuel g0 i ds = .ok (ps, g, done) → Scheduling all i (i + ds.length) ps
  | 0, g0, i, ds, ps, g, done, _, h => by
    cases h
  | fuel + 1, g0, i, [], ps, g, done, _, h => by
    obtain ⟨rfl, -, -⟩ := h; exact .nil _ _
  | fuel + 1, g0, i, d :: rest, ps, g, done, hds, h => by
    rw [decisionPieces] at h
    simp only at h
    have hfirst : fitting req grid (pieceEnd grid planned g0) (d :: rest) <+: d :: rest := fitting_first
    have hlength := hfirst.length_le
    split at h
    · split at h
      · cases h
      · rw [bind_eq_ok] at h
        obtain ⟨⟨later, g', done'⟩, hlater, h⟩ := h
        obtain ⟨rfl, -, -⟩ := h
        have hone : Scheduling all i i
            [(⟨cut grid g0 (gapEnd grid (pieceEnd grid planned g0) d), i, [], i, key, false⟩ : Piece)] :=
          Scheduling.one (p := ⟨_, i, [], i, key, false⟩) nil_prefix rfl
        exact hone.append (decisionPieces_scheduled hds hlater) le_rfl (Nat.le_add_right _ _)
    · have hone : Scheduling all i _ [(⟨cut grid g0 (pieceEnd grid planned g0), i,
          fitting req grid (pieceEnd grid planned g0) (d :: rest),
          i + (fitting req grid (pieceEnd grid planned g0) (d :: rest)).length, key, true⟩ : Piece)] :=
        Scheduling.one (hfirst.trans hds) rfl
      split at h
      · obtain ⟨rfl, -, -⟩ := h
        have hmore := hone.append (.nil _ (i + (d :: rest).length)) (Nat.le_add_right _ _)
          (Nat.add_le_add_left hlength i)
        rwa [append_nil] at hmore
      · rw [bind_eq_ok] at h
        obtain ⟨⟨later, g', done'⟩, hlater, h⟩ := h
        obtain ⟨rfl, -, -⟩ := h
        have hrest := decisionPieces_scheduled (drop_first_of_first hfirst hds) hlater
        rw [length_drop, Nat.add_assoc, Nat.add_sub_cancel' hlength] at hrest
        exact hone.append hrest (Nat.le_add_right _ _) (Nat.add_le_add_left hlength i)

theorem tailPieces_scheduled {lo : ℕ} (hlo : lo ≤ key.2) :
    ∀ {fuel g : ℕ}, Scheduling all lo key.2 (tailPieces grid key planned fuel g)
  | 0, g => .nil _ _
  | fuel + 1, g => by
    rw [tailPieces]
    simp only
    split
    · have hone : Scheduling all lo key.2
          [(⟨cut grid g (pieceEnd grid planned g), key.2, [], key.2, key, false⟩ : Piece)] := by
        refine ⟨?_, pairwise_singleton _ _, ?_⟩
        · intro q hq
          rw [mem_singleton.mp hq]; exact ⟨hlo, le_rfl⟩
        · intro q hq
          rw [mem_singleton.mp hq]; simp
      split
      · exact hone
      · exact hone.append (tailPieces_scheduled le_rfl) hlo le_rfl
    · exact .nil _ _

theorem partitionPieces_scheduled {i0 : ℕ} {isLast : Bool} (hds : ds <+: all.drop i0)
    (h : partitionPieces req plan previous i0 ds isLast = .ok ps) : Scheduling all i0 (i0 + ds.length) ps := by
  have whole : Scheduling all i0 _
      [(⟨partitionGrid req previous ds isLast, i0, ds, i0 + ds.length, (i0, i0 + ds.length), true⟩ : Piece)] :=
    Scheduling.one hds rfl
  unfold partitionPieces at h
  simp only at h
  split at h
  · cases h
  · split at h
    · exact ok.inj h ▸ whole
    · split at h
      · cases h
      · split at h
        · cases h
        · split at h
          · exact ok.inj h ▸ whole
          · rw [bind_eq_ok] at h
            obtain ⟨⟨qs, g, done⟩, hqs, h⟩ := h
            simp only [ok.injEq] at h
            subst h
            have hscheduled := decisionPieces_scheduled hds hqs
            split
            · have hlast : i0 + ds.length ≤ (i0, i0 + ds.length).2 := le_rfl
              exact hscheduled.append (tailPieces_scheduled hlast) (Nat.le_add_right _ _) le_rfl
            · exact hscheduled

theorem partitions_allPieces_scheduled :
    ∀ {fuel i : ℕ} {ds : List Decision} {previous : Option Decision} {ps : List Piece}, ds <+: all.drop i →
      allPieces req plan previous (partitions fuel i ds) = .ok ps → Scheduling all i (i + ds.length) ps
  | 0, i, ds, previous, ps, _, h | fuel + 1, i, [], previous, ps, _, h => by
    rw [partitions, allPieces, ok.injEq] at h
    subst h; exact .nil _ _
  | fuel + 1, i, d :: rest, previous, ps, hds, h => by
    rw [partitions, allPieces, bind_eq_ok] at h
    obtain ⟨qs, hqs, h⟩ := h
    obtain ⟨later, hlater, h⟩ := bind_eq_ok.mp h
    rw [ok.injEq] at h
    subst h
    have hfirst : (d :: rest.takeWhile (fun e => decide (e.label - d.label ≤ maxWindowNs))) <+: d :: rest :=
      cons_prefix_cons.mpr ⟨rfl, takeWhile_prefix _⟩
    have hlength := hfirst.length_le
    have hnext := drop_first_of_first hfirst hds
    rw [length_cons, drop_succ_cons, Nat.add_comm _ 1, ← Nat.add_assoc] at hnext
    have hps := partitionPieces_scheduled (hfirst.trans hds) hqs
    have hlater := partitions_allPieces_scheduled hnext hlater
    rw [length_cons] at hps hlength
    rw [length_drop] at hlater
    rw [length_cons] at hlength ⊢
    have hmid : i + ((rest.takeWhile (fun e => decide (e.label - d.label ≤ maxWindowNs))).length + 1) =
        i + 1 + (rest.takeWhile (fun e => decide (e.label - d.label ≤ maxWindowNs))).length := by omega
    rw [hmid] at hps
    have hend : i + 1 + (rest.takeWhile (fun e => decide (e.label - d.label ≤ maxWindowNs))).length +
        (rest.length - (rest.takeWhile (fun e => decide (e.label - d.label ≤ maxWindowNs))).length) =
        i + (rest.length + 1) := by omega
    rw [hend] at hlater; exact hps.append hlater (by omega) (by omega)

/-- **The ordinals of the pieces.** -/
theorem pieces_scheduled (h : pieces req plan = .ok ps) :
    ps.Pairwise (fun p q => p.stop ≤ q.stop) ∧ ∀ p ∈ ps, ∀ d ∈ p.decisions, d ∈ req.decisions.take p.stop := by
  unfold pieces at h
  split at h
  · cases h
  · split at h
    · rw [ok.injEq] at h
      subst h; simp
    · have hall := partitions_allPieces_scheduled (prefix_refl (req.decisions.drop 0)) h
      exact ⟨hall.ordered, hall.taken⟩

end Once

end CryptoPilot.Engine
