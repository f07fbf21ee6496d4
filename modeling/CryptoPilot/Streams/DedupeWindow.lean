/-
# DedupeWindow — the normalizer's memory of what it derived.

The window remembers the receipts of recently derived grids and frames
(`src/market_data/streams/dedupe_window.py`).  The marks of a cycle are staged and count from then on within the
cycle; `commit` keeps them and `discard` drops them.  The seen marks are pruned from the oldest insertion on.
-/
import CryptoPilot.Streams.Snapshots

namespace CryptoPilot.Streams

open CryptoPilot.Lib CryptoPilot.Capture List

/-! # Ordered dictionaries of receipts -/

/-- An `OrderedDict` from keys to receipts. -/
abbrev Marks (κ : Type) : Type := List (κ × ℕ)

namespace Marks

variable {κ : Type} [DecidableEq κ]

/-- `marks.get(key)`. -/
def get (marks : Marks κ) (key : κ) : Option ℕ := (marks.find? (fun e => e.1 = key)).map Prod.snd

/-- `marks[key] = recv`: a key keeps its place. -/
def set : Marks κ → κ → ℕ → Marks κ
  | [], key, recv => [(key, recv)]
  | (k, v) :: rest, key, recv => if k = key then (k, recv) :: rest else (k, v) :: set rest key recv

/-- `marks.pop(key, None)` and `marks[key] = recv`: a key moves to the end. -/
def renew (marks : Marks κ) (e : κ × ℕ) : Marks κ := marks.filter (fun e' => e'.1 ≠ e.1) ++ [e]

def prune (marks : Marks κ) (cutoff : ℤ) : Marks κ := marks.dropWhile (fun e => (e.2 : ℤ) < cutoff)

variable {marks : Marks κ} {key : κ} {recv : ℕ} {e : κ × ℕ}

theorem mem_of_get (h : get marks key = some recv) : (key, recv) ∈ marks := by
  obtain ⟨e, he, rfl⟩ := Option.map_eq_some_iff.mp h
  have hkey : e.1 = key := by simpa using find?_some he
  rw [← hkey]; exact mem_of_find?_eq_some he

theorem mem_of_mem_set : ∀ {marks : Marks κ}, e ∈ set marks key recv → e ∈ marks ∨ e = (key, recv)
  | [], h => Or.inr (mem_singleton.mp h)
  | (k, v) :: rest, h => by
    rw [set] at h
    split at h
    · next hk =>
      subst hk
      rcases mem_cons.mp h with h | h
      · exact Or.inr h
      · exact Or.inl (mem_cons_of_mem _ h)
    · rcases mem_cons.mp h with h | h
      · exact Or.inl (h ▸ mem_cons_self)
      · rcases mem_of_mem_set h with h | h
        · exact Or.inl (mem_cons_of_mem _ h)
        · exact Or.inr h

theorem get_set_of_ne {k : κ} (h : k ≠ key) : ∀ (marks : Marks κ), get (set marks key recv) k = get marks k
  | [] => by simp [get, set, h.symm]
  | (k', v) :: rest => by
    have ih := get_set_of_ne h rest
    rw [set]
    split
    · next hk => simp [get, hk, h.symm]
    · simp only [get, find?_cons] at ih ⊢
      split
      · rfl
      · exact ih

theorem mem_of_mem_foldl_renew {staged : Marks κ} : ∀ {marks : Marks κ}, e ∈ staged.foldl renew marks →
    e ∈ marks ∨ e ∈ staged := by
  induction staged with
  | nil =>
    intro marks h; exact Or.inl h
  | cons e' rest ih =>
    intro marks h
    rcases ih h with h | h
    · rcases mem_append.mp h with h | h
      · exact Or.inl (mem_of_mem_filter h)
      · exact Or.inr (mem_singleton.mp h ▸ mem_cons_self)
    · exact Or.inr (mem_cons_of_mem _ h)

omit [DecidableEq κ] in
theorem mem_of_mem_prune {cutoff : ℤ} (h : e ∈ prune marks cutoff) : e ∈ marks :=
  (dropWhile_sublist _).subset h

omit [DecidableEq κ] in
@[simp] theorem prune_prune (marks : Marks κ) (cutoff : ℤ) : prune (prune marks cutoff) cutoff = prune marks cutoff := by
  induction marks with
  | nil => rfl
  | cons e rest ih =>
    by_cases h : (e.2 : ℤ) < cutoff
    · simpa [prune, h] using ih
    · simp [prune, h]

end Marks

/-! # Seen and staged marks -/

/-- The marks of one kind: those seen by earlier cycles, and those staged by this one. -/
structure Memory (κ : Type) where
  seen : Marks κ
  staged : Marks κ
  deriving DecidableEq

namespace Memory

variable {κ : Type} [DecidableEq κ]

def empty : Memory κ := ⟨[], []⟩

/-- The seen marks pruned, `_prune`. -/
def prune (m : Memory κ) (cutoff : ℤ) : Memory κ := { m with seen := m.seen.prune cutoff }

def mark (m : Memory κ) (key : κ) : Option ℕ := (m.staged.get key).or (m.seen.get key)

/-- Whether the key was derived from a receipt no later than `recvNs`. -/
def check (m : Memory κ) (key : κ) (recvNs : ℕ) : Bool := (m.mark key).any (· ≤ recvNs)

def stage (m : Memory κ) (key : κ) (recvNs : ℕ) : Memory κ := { m with staged := m.staged.set key recvNs }

def discard (m : Memory κ) : Memory κ := { m with staged := [] }

def commit (m : Memory κ) : Memory κ := ⟨m.staged.foldl Marks.renew m.seen, []⟩

/-- Every mark satisfies `P`. -/
def All (P : κ → ℕ → Prop) (m : Memory κ) : Prop := ∀ e, e ∈ m.seen ∨ e ∈ m.staged → P e.1 e.2

variable {P Q : κ → ℕ → Prop} {m : Memory κ} {key : κ} {recvNs : ℕ} {cutoff : ℤ}

omit [DecidableEq κ] in
theorem All.discarded {m' : Memory κ} (h : m.All P) (hseen : ∀ e ∈ m'.seen, e ∈ m.seen) : m'.discard.All P := by
  rintro e (he | he)
  · exact h e (Or.inl (hseen e he))
  · cases he

omit [DecidableEq κ] in
@[simp] theorem all_empty : All P (empty : Memory κ) := by
  rintro e (h | h) <;> cases h

omit [DecidableEq κ] in
theorem All.imp (h : All P m) (himp : ∀ k n, P k n → Q k n) : All Q m :=
  fun e he => himp _ _ (h e he)

theorem All.commit (h : All P m) : All P m.commit := by
  rintro e (he | he)
  · exact h e (Marks.mem_of_mem_foldl_renew he)
  · cases he

theorem All.of_check (h : All P m) (hcheck : m.check key recvNs = true) : ∃ n ≤ recvNs, P key n := by
  unfold check at hcheck
  cases hmark : m.mark key with
  | none => simp [hmark] at hcheck
  | some n =>
    refine ⟨n, by simpa [hmark] using hcheck, ?_⟩
    rcases Option.or_eq_some_iff.mp hmark with hn | ⟨-, hn⟩
    · exact h _ (Or.inr (Marks.mem_of_get hn))
    · exact h _ (Or.inl (Marks.mem_of_get hn))

omit [DecidableEq κ] in
@[simp] theorem prune_prune (m : Memory κ) (cutoff : ℤ) : (m.prune cutoff).prune cutoff = m.prune cutoff := by
  simp [prune]

omit [DecidableEq κ] in
@[simp] theorem staged_prune (m : Memory κ) (cutoff : ℤ) : (m.prune cutoff).staged = m.staged := rfl

@[simp] theorem seen_stage (m : Memory κ) (key : κ) (recvNs : ℕ) : (m.stage key recvNs).seen = m.seen := rfl

@[simp] theorem prune_stage (m : Memory κ) (key : κ) (recvNs : ℕ) (cutoff : ℤ) :
    (m.stage key recvNs).prune cutoff = (m.prune cutoff).stage key recvNs := rfl

end Memory

/-! # The window -/

/-- `(stream, grid)`. -/
abbrev Label : Type := Stream × String

/-- `DedupeWindow`: the grids and the digests of the frames. -/
structure Window where
  rest : Memory Label
  ws : Memory String
  deriving DecidableEq

namespace Window

def empty : Window := ⟨.empty, .empty⟩

def discard (w : Window) : Window := ⟨w.rest.discard, w.ws.discard⟩

def commit (w : Window) : Window := ⟨w.rest.commit, w.ws.commit⟩

end Window

/-- The parts of `NormalizerConfig` that the derivation reads; the windows are in nanoseconds. -/
structure Config where
  maxRejectedFraction : ℚ
  restWindowNs : ℤ
  wsWindowNs : ℤ

def Config.default : Config := ⟨binary64.nearest (1 / 20), 7200 * 10 ^ 9, 7200 * 10 ^ 9⟩

end CryptoPilot.Streams
