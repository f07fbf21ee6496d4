/- # Interleave — components that run scripts side by side.

A component applies the operations of its script in order and may stop after any of them.  `Along`
says that a property holds wherever it stops; it is proved along a script by going through its
parts.  When several components run at once, each over a state of its own, the order in which their
operations meet does not matter: `execute_interleaved` says that each state is what its own
component made of it. -/
import Mathlib.Algebra.BigOperators.Group.Finset.Piecewise
import Mathlib.Logic.Function.Basic

namespace CryptoPilot.Lib.Interleave

open List Function

section Script

variable {σ op : Type*} (apply : σ → op → σ)

def execute (s : σ) (ops : List op) : σ := ops.foldl apply s

/-- `I` holds after every front of the script. -/
def Along (I : σ → Prop) (s : σ) (ops : List op) : Prop := ∀ front, front <+: ops → I (execute apply s front)

variable {apply} {I J : σ → Prop} {s : σ} {o : op} {ops ops' : List op}

@[simp] theorem execute_cons (s : σ) (o : op) (ops : List op) :
    execute apply s (o :: ops) = execute apply (apply s o) ops := rfl

theorem execute_append (s : σ) (ops ops' : List op) :
    execute apply s (ops ++ ops') = execute apply (execute apply s ops) ops' := foldl_append

theorem Along.nil (h : I s) : Along apply I s [] := by
  intro front hfront
  rw [prefix_nil.mp hfront]; exact h

theorem Along.finish (h : Along apply I s ops) : I (execute apply s ops) := h ops prefix_rfl

theorem Along.mono (hmono : ∀ s, I s → J s) (h : Along apply I s ops) : Along apply J s ops :=
  fun front hfront => hmono _ (h front hfront)

theorem Along.append (h : Along apply I s ops) (h' : Along apply I (execute apply s ops) ops') :
    Along apply I s (ops ++ ops') := by
  intro front hfront
  rcases prefix_or_prefix_of_prefix hfront (prefix_append ops ops') with hleft | ⟨rest, rfl⟩
  · exact h front hleft
  · rw [execute_append]; exact h' rest ((prefix_append_right_inj ops).mp hfront)

theorem Along.cons (h : I s) (h' : Along apply I (apply s o) ops) : Along apply I s (o :: ops) := by
  intro front hfront
  rcases prefix_cons_iff.mp hfront with rfl | ⟨rest, rfl, hrest⟩
  · exact h
  · exact h' rest hrest

theorem Along.of_step (hs : I s) (hstep : ∀ o ∈ ops, ∀ s, I s → I (apply s o)) : Along apply I s ops := by
  induction ops generalizing s with
  | nil => exact Along.nil hs
  | cons o ops ih =>
    exact Along.cons hs (ih (hstep o mem_cons_self s hs) fun o' ho' => hstep o' (mem_cons_of_mem o ho'))

variable (apply) in
/-- `G` holds of every operation of the script in the state it is applied to. -/
def Steps (G : σ → op → Prop) (s : σ) (ops : List op) : Prop :=
  ∀ front o, front ++ [o] <+: ops → G (execute apply s front) o

variable {G : σ → op → Prop} {R : σ → σ → Prop}

theorem Steps.front (h : Steps apply G s ops') (hfront : ops <+: ops') : Steps apply G s ops :=
  fun front o ho => h front o (ho.trans hfront)

theorem steps_nil : Steps apply G s [] := fun _ _ ho => by simp at ho

theorem steps_cons : Steps apply G s (o :: ops) ↔ G s o ∧ Steps apply G (apply s o) ops := by
  constructor
  · intro h
    exact ⟨h [] o (cons_prefix_cons.mpr ⟨rfl, nil_prefix⟩),
      fun front o' ho => h (o :: front) o' (cons_prefix_cons.mpr ⟨rfl, ho⟩)⟩
  · rintro ⟨hhead, htail⟩ front o' ho
    cases front with
    | nil =>
      obtain ⟨rfl, _⟩ := cons_prefix_cons.mp ho; exact hhead
    | cons a front =>
      obtain ⟨rfl, hrest⟩ := cons_prefix_cons.mp ho; exact htail front o' hrest

/-- What every operation keeps where `G` holds of it, holds along a script whose operations all meet
`G`. -/
theorem Steps.along (hI : ∀ s o, I s → G s o → I (apply s o)) (hs : I s) (h : Steps apply G s ops) :
    Along apply I s ops := by
  induction ops generalizing s with
  | nil => exact Along.nil hs
  | cons o ops ih =>
    obtain ⟨hhead, htail⟩ := steps_cons.mp h; exact Along.cons hs (ih (hI s o hs hhead) htail)

section

variable (hrefl : ∀ s, R s s) (htrans : ∀ s t u, R s t → R t u → R s u)

include hrefl htrans

theorem Steps.related (hI : ∀ s o, I s → I (apply s o)) (hstep : ∀ s o, I s → G s o → R s (apply s o)) (hs : I s)
    (h : Steps apply G s ops) {front : List op} (hfront : front <+: ops) :
    R (execute apply s front) (execute apply s ops) := by
  induction ops generalizing s front with
  | nil => rw [prefix_nil.mp hfront]; exact hrefl _
  | cons o ops ih =>
    obtain ⟨hhead, htail⟩ := steps_cons.mp h
    have hrest : ∀ {front : List op}, front <+: ops → _ := fun hfront => ih (hI s o hs) htail hfront
    rcases prefix_cons_iff.mp hfront with rfl | ⟨rest, rfl, hprefix⟩
    · exact htrans _ _ _ (hstep s o hs hhead) (hrest nil_prefix)
    · exact hrest hprefix

theorem execute_related (hstep : ∀ s o, R s (apply s o)) {front : List op} (hfront : front <+: ops) :
    R (execute apply s front) (execute apply s ops) :=
  Steps.related (I := fun _ => True) (G := fun _ _ => True) hrefl htrans (fun _ _ _ => trivial)
    (fun s o _ _ => hstep s o) trivial (fun _ _ _ => trivial) hfront

/-- A script moves along `R` between any two of its states exactly if each of its operations does.
-/
theorem steps_iff_related (hI : ∀ s o, I s → I (apply s o))
    (hstep : ∀ s o, I s → (G s o ↔ R s (apply s o))) (hs : I s) :
    Steps apply G s ops ↔ ∀ front front', front <+: front' → front' <+: ops →
      R (execute apply s front) (execute apply s front') := by
  constructor
  · intro h front front' hfront hfront'
    exact Steps.related hrefl htrans hI (fun s o hs => (hstep s o hs).mp) hs (h.front hfront') hfront
  · intro h front o ho
    have hrel := h front (front ++ [o]) (prefix_append front [o]) ho
    rw [execute_append] at hrel
    exact (hstep _ o (Along.of_step hs fun o _ s hs => hI s o hs).finish).mpr hrel

end

/-- Where an operation either meets `G` and keeps an invariant, or breaks a property that this
implies, the property holds along a script exactly if `G` holds of each operation. -/
theorem along_iff_steps {Inv : σ → Prop} (hI : ∀ s, Inv s → I s)
    (hstep : ∀ s o, Inv s → G s o ∧ Inv (apply s o) ∨ ¬G s o ∧ ¬I (apply s o)) (hs : Inv s) :
    Along apply I s ops ↔ Steps apply G s ops := by
  induction ops generalizing s with
  | nil => exact ⟨fun _ => steps_nil, fun _ => Along.nil (hI s hs)⟩
  | cons o ops ih =>
    rw [steps_cons]
    rcases hstep s o hs with ⟨hgood, hkept⟩ | ⟨hbad, hbroken⟩
    · have hrest := ih hkept
      constructor
      · intro h
        refine ⟨hgood, hrest.mp fun front hfront => ?_⟩
        exact h (o :: front) (cons_prefix_cons.mpr ⟨rfl, hfront⟩)
      · rintro ⟨_, h⟩; exact Along.cons (hI s hs) (hrest.mpr h)
    · constructor
      · intro h; exact absurd (h [o] (cons_prefix_cons.mpr ⟨rfl, nil_prefix⟩)) hbroken
      · rintro ⟨hgood, _⟩; exact absurd hgood hbad

end Script

section World

variable {ι σ op : Type*} [DecidableEq ι] (apply : σ → op → σ)

def interleaved (world : ι → σ) (trace : List (ι × op)) : ι → σ :=
  trace.foldl (fun w e => Function.update w e.1 (apply (w e.1) e.2)) world

def scriptOf (i : ι) (trace : List (ι × op)) : List op := (trace.filter fun e => e.1 = i).map Prod.snd

def Interleaving (scripts : ι → List op) (trace : List (ι × op)) : Prop := ∀ i, scriptOf i trace <+: scripts i

variable {apply} {world : ι → σ} {scripts : ι → List op} {trace : List (ι × op)}

theorem scriptOf_cons (i : ι) (e : ι × op) (trace : List (ι × op)) :
    scriptOf i (e :: trace) = if e.1 = i then e.2 :: scriptOf i trace else scriptOf i trace := by
  by_cases h : e.1 = i <;> simp [scriptOf, h]

theorem execute_interleaved (world : ι → σ) (trace : List (ι × op)) (i : ι) :
    interleaved apply world trace i = execute apply (world i) (scriptOf i trace) := by
  induction trace generalizing world with
  | nil => rfl
  | cons e trace ih =>
    have hstep : interleaved apply world (e :: trace)
        = interleaved apply (Function.update world e.1 (apply (world e.1) e.2)) trace := rfl
    rw [hstep, ih, scriptOf_cons]
    by_cases h : e.1 = i
    · subst h
      rw [if_pos rfl, update_self, execute_cons]
    · rw [if_neg h, update_of_ne (Ne.symm h)]

theorem interleaving_single {i : ι} {ops : List op} (h : ops <+: scripts i) :
    Interleaving scripts (ops.map fun o => (i, o)) := by
  intro j
  have hscript : scriptOf j (ops.map fun o => (i, o)) = if i = j then ops else [] := by
    by_cases hij : i = j <;> simp [scriptOf, filter_map, comp_def, hij]
  rw [hscript]
  split
  next hij => exact hij ▸ h
  next => exact nil_prefix

theorem Interleaving.holds {I : ι → σ → Prop} (h : Interleaving scripts trace)
    (halong : ∀ i, Along apply (I i) (world i) (scripts i)) (i : ι) : I i (interleaved apply world trace i) := by
  rw [execute_interleaved]; exact halong i _ (h i)

theorem sum_scriptOf {M : Type*} [AddCommMonoid M] (f : op → M) {components : Finset ι}
    (h : ∀ e ∈ trace, e.1 ∈ components) :
    ((trace.map Prod.snd).map f).sum = ∑ i ∈ components, ((scriptOf i trace).map f).sum := by
  induction trace with
  | nil => simp [scriptOf]
  | cons e trace ih =>
    have hsplit : ∀ i, ((scriptOf i (e :: trace)).map f).sum
        = (if e.1 = i then f e.2 else 0) + ((scriptOf i trace).map f).sum := by
      intro i
      rw [scriptOf_cons]
      split <;> simp
    simp only [hsplit, Finset.sum_add_distrib, Finset.sum_ite_eq, if_pos (h e mem_cons_self)]
    rw [map_cons, map_cons, sum_cons, ih fun e' he' => h e' (mem_cons_of_mem e he')]

theorem scriptOf_eq_append {i : ι} {front later : List op} {o : op} (h : scriptOf i trace = front ++ o :: later) :
    ∃ front' later', trace = front' ++ (i, o) :: later' ∧ scriptOf i front' = front := by
  obtain ⟨l₁, l₂, hfilter, hfront, hlater⟩ := map_eq_append_iff.mp h
  obtain ⟨t₁, t₂, rfl, hl₁, hl₂⟩ := filter_eq_append_iff.mp hfilter
  obtain ⟨e, rest, rfl, ho, -⟩ := map_eq_cons_iff.mp hlater
  obtain ⟨u, v, rfl, hu, he, -⟩ := filter_eq_cons_iff.mp hl₂
  refine ⟨t₁ ++ u, v, ?_, ?_⟩
  · rw [append_assoc, ← ho, ← of_decide_eq_true he]
  · rw [scriptOf, filter_append, hl₁, filter_eq_nil_iff.mpr hu, append_nil, hfront]
end World

end CryptoPilot.Lib.Interleave
