/- # Effect — programs with mutable state and exceptions, and their weakest preconditions.

`Proc ε σ α` is a program over a state `σ` that returns an `α` or raises an `ε`; the state survives
the exception, as object fields do in an imperative program.  `wp x Q E s` says that `x` started in
`s` either returns with `Q` or raises with `E`.  `Along R x s Q` adds that every exit of `x` is
related to its start by the preorder `R`: the form in which a program refines a machine. -/
import Mathlib.Data.List.Forall2
import Mathlib.Logic.Relation
import Mathlib.Order.Defs.Unbundled

namespace CryptoPilot.Lib

open List

/-! ## Peeling a computation in `Except` -/

section ExceptLemmas

variable {ε α β : Type} {f : α → Except ε β}

theorem bind_eq_ok {x : Except ε α} {b : β} : (x >>= f) = .ok b ↔ ∃ a, x = .ok a ∧ f a = .ok b := by
  cases x with
  | error e | ok a => simp [bind, Except.bind]

theorem pure_eq_ok {a b : α} : (pure a : Except ε α) = .ok b ↔ a = b := by
  simp [pure, Except.pure]

theorem mem_of_mapM_eq_ok :
    ∀ {xs : List α} {ys : List β}, xs.mapM f = .ok ys →
      ∀ y ∈ ys, ∃ x ∈ xs, f x = .ok y
  | [], ys, h, y, hy => by
    rw [mapM_nil, pure_eq_ok] at h
    subst h; cases hy
  | x :: xs, ys, h, y, hy => by
    rw [mapM_cons, bind_eq_ok] at h
    obtain ⟨b, hb, h⟩ := h
    obtain ⟨bs, hbs, h⟩ := bind_eq_ok.mp h
    rw [pure_eq_ok] at h
    subst h
    rcases mem_cons.mp hy with rfl | hy
    · exact ⟨x, mem_cons_self, hb⟩
    · obtain ⟨x', hx', hfx'⟩ := mem_of_mapM_eq_ok hbs y hy
      exact ⟨x', mem_cons_of_mem x hx', hfx'⟩

theorem forall₂_of_mapM_eq_ok :
    ∀ {xs : List α} {ys : List β}, xs.mapM f = .ok ys → List.Forall₂ (fun x y => f x = .ok y) xs ys
  | [], ys, h => by
    rw [mapM_nil, pure_eq_ok] at h
    subst h; exact List.Forall₂.nil
  | x :: xs, ys, h => by
    rw [mapM_cons, bind_eq_ok] at h
    obtain ⟨b, hb, h⟩ := h
    obtain ⟨bs, hbs, h⟩ := bind_eq_ok.mp h
    rw [pure_eq_ok] at h
    subst h; exact List.Forall₂.cons hb (forall₂_of_mapM_eq_ok hbs)

variable {xs : List α} {f : α → Option β}

theorem option_mapM_eq_some {ys : List β} :
    xs.mapM f = some ys ↔ List.Forall₂ (fun x y => f x = some y) xs ys := by
  induction xs generalizing ys with
  | nil =>
    rw [mapM_nil, Option.pure_def, Option.some.injEq, forall₂_nil_left_iff]; exact eq_comm
  | cons x xs ih =>
    simp only [mapM_cons, Option.bind_eq_bind, Option.bind_eq_some_iff, Option.pure_def, Option.some.injEq, ih]
    constructor
    · rintro ⟨y, hy, zs, hzs, rfl⟩; exact List.Forall₂.cons hy hzs
    · rintro (_ | ⟨hy, hzs⟩); exact ⟨_, hy, _, hzs, rfl⟩

theorem option_mapM_eq_none : xs.mapM f = none ↔ ∃ x ∈ xs, f x = none := by
  induction xs with
  | nil => simp
  | cons x xs ih =>
    cases hx : f x with
    | none => simp [hx]
    | some y =>
      cases hxs : xs.mapM f with
      | none => simpa [hx, hxs] using ih.mp hxs
      | some ys =>
        have hnone : ¬∃ x ∈ xs, f x = none := fun h => by rw [ih.mpr h] at hxs; cases hxs
        simpa [hx, hxs] using hnone

theorem forall₂_exists_right {R : α → β → Prop} {ys : List β}
    (h : List.Forall₂ R xs ys) {x : α} (hx : x ∈ xs) : ∃ y ∈ ys, R x y := by
  induction h with
  | nil => cases hx
  | cons hxy _ ih =>
    rcases mem_cons.mp hx with rfl | hx
    · exact ⟨_, mem_cons_self, hxy⟩
    · obtain ⟨y, hy, hR⟩ := ih hx; exact ⟨y, mem_cons_of_mem _ hy, hR⟩

theorem exists_ok {x : Except ε α} {p : α → Bool} (h : x.toOption.any p = true) :
    ∃ a, x = .ok a ∧ p a = true := by
  cases x with
  | ok a => exact ⟨a, rfl, h⟩
  | error e => cases h

theorem foldlM_invariant {σ : Type} {I : σ → Prop} {f : σ → α → Except ε σ} :
    ∀ {xs : List α} {s t : σ}, (∀ x ∈ xs, ∀ s t, f s x = .ok t → I s → I t) → xs.foldlM f s = .ok t → I s → I t
  | [], s, t, _, h, hs => by
    rw [foldlM_nil, pure_eq_ok] at h; exact h ▸ hs
  | x :: xs, s, t, hstep, h, hs => by
    rw [foldlM_cons, bind_eq_ok] at h
    obtain ⟨u, hu, h⟩ := h
    exact foldlM_invariant (fun y hy => hstep y (mem_cons_of_mem x hy)) h
      (hstep x mem_cons_self s u hu hs)

end ExceptLemmas

/-! ## Stateful programs -/

/-- A program over state `σ` raising `ε`; the state survives an exception. -/
def Proc (ε σ α : Type) : Type := σ → Except ε α × σ

namespace Proc

variable {ε σ τ α β : Type}

instance : Monad (Proc ε σ) where
  pure a := fun s => (.ok a, s)
  bind x f := fun s =>
    match x s with
    | (.ok a, s') => f a s'
    | (.error e, s') => (.error e, s')

def get : Proc ε σ σ := fun s => (.ok s, s)

def modify (f : σ → σ) : Proc ε σ Unit := fun s => (.ok (), f s)

/-- Raise `e`. -/
def throw (e : ε) : Proc ε σ α := fun s => (.error e, s)

/-- Run `x`; on an exception run the handler in the state the exception left. -/
def tryCatch (x : Proc ε σ α) (h : ε → Proc ε σ α) : Proc ε σ α := fun s =>
  match x s with
  | (.ok a, s') => (.ok a, s')
  | (.error e, s') => h e s'

def ofExcept (x : Except ε α) : Proc ε σ α := fun s => (x, s)

def zoom (view : σ → τ) (put : σ → τ → σ) (x : Proc ε τ α) : Proc ε σ α := fun s =>
  ((x (view s)).1, put s (x (view s)).2)

/-- `for a in xs: f a`. -/
def forEach : List α → (α → Proc ε σ Unit) → Proc ε σ Unit
  | [], _ => pure ()
  | a :: rest, f => do
    f a
    forEach rest f

/-- **Weakest precondition**: from `s`, `x` returns with `Q` or raises with `E`. -/
def wp (x : Proc ε σ α) (Q : α → σ → Prop) (E : ε → σ → Prop) (s : σ) : Prop :=
  match x s with
  | (.ok a, s') => Q a s'
  | (.error e, s') => E e s'

section Rules

variable {x : Proc ε σ α} {f : α → Proc ε σ β} {Q Q' : α → σ → Prop} {Qb : β → σ → Prop}
  {E E' : ε → σ → Prop} {s : σ}

@[simp] theorem wp_pure (a : α) : wp (pure a : Proc ε σ α) Q E s ↔ Q a s := Iff.rfl

@[simp] theorem wp_bind : wp (x >>= f) Qb E s ↔ wp x (fun a s' => wp (f a) Qb E s') E s := by
  simp only [wp, bind]
  cases x s with
  | mk r s' => cases r <;> exact Iff.rfl

@[simp] theorem wp_map (g : α → β) : wp (g <$> x) Qb E s ↔ wp x (fun a s' => Qb (g a) s') E s := by
  change wp (x >>= fun a => pure (g a)) Qb E s ↔ _
  rw [wp_bind]; exact Iff.rfl

@[simp] theorem wp_get {Q : σ → σ → Prop} : wp (get : Proc ε σ σ) Q E s ↔ Q s s := Iff.rfl

@[simp] theorem wp_modify (g : σ → σ) {Q : Unit → σ → Prop} :
    wp (modify g : Proc ε σ Unit) Q E s ↔ Q () (g s) := Iff.rfl

@[simp] theorem wp_throw (e : ε) : wp (throw e : Proc ε σ α) Q E s ↔ E e s := Iff.rfl

@[simp] theorem wp_tryCatch {h : ε → Proc ε σ α} :
    wp (tryCatch x h) Q E s ↔ wp x Q (fun e s' => wp (h e) Q E s') s := by
  simp only [wp, tryCatch]
  cases x s with
  | mk r s' => cases r <;> exact Iff.rfl

@[simp] theorem wp_zoom {view : σ → τ} {put : σ → τ → σ} {y : Proc ε τ α} :
    wp (zoom view put y) Q E s ↔
      wp y (fun a t => Q a (put s t)) (fun e t => E e (put s t)) (view s) := by
  simp only [wp, zoom]
  cases y (view s) with
  | mk r t => cases r <;> exact Iff.rfl

theorem wp_ofExcept {r : Except ε α} :
    wp (ofExcept r : Proc ε σ α) Q E s ↔
      (∀ a, r = .ok a → Q a s) ∧ (∀ e, r = .error e → E e s) := by
  cases r with
  | ok a | error e => simp [wp, ofExcept]

@[simp] theorem wp_ite {c : Prop} [Decidable c] {y : Proc ε σ α} :
    wp (if c then x else y) Q E s ↔ (c → wp x Q E s) ∧ (¬ c → wp y Q E s) := by
  by_cases h : c <;> simp [h]

theorem wp_mono (h : wp x Q E s) (hQ : ∀ a s', Q a s' → Q' a s') (hE : ∀ e s', E e s' → E' e s') :
    wp x Q' E' s := by
  unfold wp at h ⊢
  split <;> next heq => rw [heq] at h; first | exact hQ _ _ h | exact hE _ _ h

theorem wp_true (x : Proc ε σ α) (s : σ) : wp x (fun _ _ => True) (fun _ _ => True) s := by
  unfold wp
  split <;> trivial

theorem wp_and (h : wp x Q E s) (h' : wp x Q' E' s) :
    wp x (fun a s' => Q a s' ∧ Q' a s') (fun e s' => E e s' ∧ E' e s') s := by
  unfold wp at h h' ⊢
  split <;> next heq => rw [heq] at h h'; exact ⟨h, h'⟩

theorem wp_final {P : σ → Prop} (h : wp x (fun _ => P) (fun _ => P) s) : P (x s).2 := by
  unfold wp at h
  split at h <;> next heq => rw [heq]; exact h

theorem wp_returned {a : α} (h : wp x Q E s) (hret : (x s).1 = .ok a) : Q a (x s).2 := by
  unfold wp at h
  split at h <;> next heq => rw [heq] at hret ⊢; cases hret <;> exact h

variable {body : α → Proc ε σ Unit}

theorem wp_forEach {I : σ → Prop} {xs : List α} (hbody : ∀ a ∈ xs, ∀ s, I s → wp (body a) (fun _ => I) E s) :
    ∀ {s : σ}, I s → wp (forEach xs body) (fun _ => I) E s := by
  induction xs with
  | nil => intro s hs; exact hs
  | cons a rest ih =>
    intro s hs
    rw [forEach, wp_bind]
    refine wp_mono (hbody a mem_cons_self s hs) (fun _ s' hs' => ?_) (fun _ _ h => h)
    exact ih (fun b hb => hbody b (mem_cons_of_mem a hb)) hs'

/-- A loop whose body establishes `P a` for its element and keeps it for the others establishes it
for all. -/
theorem wp_forEach_each {I : σ → Prop} {P : α → σ → Prop} {xs : List α} (hbody : ∀ a ∈ xs, ∀ s, I s →
      wp (body a) (fun _ s' => I s' ∧ P a s' ∧ ∀ b, P b s → P b s') E s) :
    ∀ {s : σ}, I s → wp (forEach xs body) (fun _ s' => I s' ∧ (∀ a ∈ xs, P a s') ∧
      ∀ b, P b s → P b s') E s := by
  induction xs with
  | nil => intro s hs; exact ⟨hs, nofun, fun _ hb => hb⟩
  | cons a rest ih =>
    intro s hs
    rw [forEach, wp_bind]
    refine wp_mono (hbody a mem_cons_self s hs) (fun _ s' hs' => ?_) (fun _ _ h => h)
    obtain ⟨hI, ha, hkeep⟩ := hs'
    refine wp_mono (ih (fun b hb => hbody b (mem_cons_of_mem a hb)) hI) (fun _ s'' hs'' => ?_)
      (fun _ _ h => h)
    obtain ⟨hI'', hrest, hkeep''⟩ := hs''
    refine ⟨hI'', fun b hb => ?_, fun b hb => hkeep'' b (hkeep b hb)⟩
    rcases mem_cons.mp hb with rfl | hb
    · exact hkeep'' b ha
    · exact hrest b hb

end Rules

/-! ## Programs along a preorder -/

/-- From `s`, `x` moves along `R` on both exits, and returns with `Q`. -/
def Along (R : σ → σ → Prop) (x : Proc ε σ α) (s : σ) (Q : α → σ → Prop) : Prop :=
  wp x (fun r s' => R s s' ∧ Q r s') (fun _ s' => R s s') s

namespace Along

variable {R : σ → σ → Prop} [IsPreorder σ R] {x : Proc ε σ α} {s : σ} {Q Q' : α → σ → Prop}
  {T : β → σ → Prop}

omit [IsPreorder σ R] in
theorem mono (h : Along R x s Q) (hQ : ∀ r s', R s s' → Q r s' → Q' r s') : Along R x s Q' :=
  wp_mono h (fun r s' hr => ⟨hr.1, hQ r s' hr.1 hr.2⟩) (fun _ _ h => h)

omit [IsPreorder σ R] in
theorem coarsen {R' : σ → σ → Prop} (h : Along R x s Q) (hR : ∀ s', R s s' → R' s s') : Along R' x s Q :=
  wp_mono h (fun _ s' hr => ⟨hR s' hr.1, hr.2⟩) (fun _ s' hr => hR s' hr)

omit [IsPreorder σ R] in
theorem out (h : Along R x s Q) : R s (x s).2 ∧ ∀ r, (x s).1 = .ok r → Q r (x s).2 := by
  unfold Along wp at h
  generalize x s = result at h ⊢
  obtain ⟨r, s'⟩ := result
  cases r with
  | error e => exact ⟨h, fun r hr => absurd hr nofun⟩
  | ok a =>
    refine ⟨h.1, fun r hr => ?_⟩
    rw [← Except.ok.inj hr]; exact h.2

theorem ret {r : α} (h : Q r s) : Along R (pure r : Proc ε σ α) s Q := ⟨refl_of R s, h⟩

theorem raise {e : ε} : Along R (throw e : Proc ε σ α) s Q := refl_of R s

omit [IsPreorder σ R] in
theorem update {g : σ → σ} (h : R s (g s)) :
    Along R (modify g : Proc ε σ Unit) s fun _ s' => s' = g s := ⟨h, rfl⟩

variable {f : α → Proc ε σ β}

theorem bind (h : Along R x s Q) (hf : ∀ r s', R s s' → Q r s' → Along R (f r) s' T) :
    Along R (x >>= f) s T := by
  rw [Along, wp_bind]
  refine wp_mono h (fun r s' hr => ?_) (fun _ _ h => h)
  exact wp_mono (hf r s' hr.1 hr.2) (fun _ _ h => ⟨trans_of R hr.1 h.1, h.2⟩)
    (fun _ _ h => trans_of R hr.1 h)

theorem catching {handler : ε → Proc ε σ α} (h : Along R x s Q)
    (hh : ∀ e s', R s s' → Along R (handler e) s' Q) : Along R (tryCatch x handler) s Q := by
  rw [Along, wp_tryCatch]
  refine wp_mono h (fun _ _ h => h) (fun e s' hr => ?_)
  exact wp_mono (hh e s' hr) (fun _ _ h => ⟨trans_of R hr h.1, h.2⟩) (fun _ _ h => trans_of R hr h)

omit [IsPreorder σ R] in
theorem branch {p : Prop} [Decidable p] {y : Proc ε σ α} (ht : p → Along R x s Q)
    (hf : ¬ p → Along R y s Q) : Along R (if p then x else y) s Q := by
  by_cases hp : p
  · rw [if_pos hp]; exact ht hp
  · rw [if_neg hp]; exact hf hp

omit [IsPreorder σ R] in
theorem map {g : α → β} (h : Along R x s fun r s' => T (g r) s') : Along R (g <$> x) s T := by
  rw [Along, wp_map]; exact h

omit [IsPreorder σ R] in
theorem readState {f : σ → Proc ε σ β} (h : Along R (f s) s T) : Along R (get >>= f) s T := by
  exact h

theorem fallible {r : Except ε α} (h : ∀ v, r = .ok v → Along R (f v) s T) :
    Along R (ofExcept r >>= f) s T := by
  rw [Along, wp_bind, wp_ofExcept]; exact ⟨fun v hv => h v hv, fun _ _ => refl_of R s⟩

variable {body : β → Proc ε σ Unit}

theorem forEach {I : σ → Prop} {xs : List β} (hbody : ∀ b ∈ xs, ∀ s, I s → Along R (body b) s fun _ => I) :
    ∀ {s : σ}, I s → Along R (Proc.forEach xs body) s fun _ => I := by
  induction xs with
  | nil => intro s hs; exact ret hs
  | cons b rest ih =>
    intro s hs
    exact bind (hbody b mem_cons_self s hs) fun _ s' _ hs' =>
      ih (fun b' hb' => hbody b' (mem_cons_of_mem b hb')) hs'

/-- A loop whose body establishes a fact for its element, which `R` then keeps, establishes it for
all. -/
theorem forEach_each {P : β → σ → Prop} {xs : List β} (hstable : ∀ b s s', R s s' → P b s → P b s') :
    ∀ {s : σ}, (∀ b ∈ xs, ∀ s', R s s' → Along R (body b) s' fun _ => P b) →
      Along R (Proc.forEach xs body) s fun _ s' => ∀ b ∈ xs, P b s' := by
  induction xs with
  | nil => intro s _; exact ret nofun
  | cons b rest ih =>
    intro s hbody
    refine bind (hbody b mem_cons_self s (refl_of R s)) fun _ s' hr hb => ?_
    refine mono (ih fun b' hb' s'' hr' =>
      hbody b' (mem_cons_of_mem b hb') s'' (trans_of R hr hr')) fun _ s'' hr' hrest => ?_
    intro b' hb'
    rcases mem_cons.mp hb' with rfl | hb'
    · exact hstable _ s' s'' hr' hb
    · exact hrest b' hb'

end Along

end Proc

end CryptoPilot.Lib
