/- # Memo — tables of results that are built once.

`memo key build` answers from the table what it holds for `key`, and otherwise builds the result and
stores it; a build that raises stores nothing.  Where a table only holds what a relation allows for
its keys, and the relation determines the result, an answer from the table is the result of the
build, and the table stays so (`memo_run`). -/
import CryptoPilot.Lib.Effect

namespace CryptoPilot.Lib

open Proc

variable {ε κ β : Type} [DecidableEq κ]

abbrev Memo (κ β : Type) : Type := List (κ × β)

/-- `table[key]` if it is there, else what `build` gives, which is then stored. -/
def memo (key : κ) (build : Except ε β) : Proc ε (Memo κ β) β := do
  let table ← Proc.get
  match table.lookup key with
  | some stored => pure stored
  | none => do
    let built ← Proc.ofExcept build
    Proc.modify fun table => (key, built) :: table
    pure built

def Memo.Holds (R : κ → β → Prop) (table : Memo κ β) : Prop :=
  ∀ key stored, table.lookup key = some stored → R key stored

theorem Memo.holds_nil (R : κ → β → Prop) : Memo.Holds R [] := fun _ _ h => by cases h

variable {R : κ → β → Prop} {table : Memo κ β} {key : κ}

theorem Memo.Holds.cons (h : Memo.Holds R table) {built : β} (hbuilt : R key built) :
    Memo.Holds R ((key, built) :: table) := by
  intro k stored hk
  rw [List.lookup_cons] at hk
  split at hk
  · next heq =>
    obtain rfl := Option.some.inj hk; exact (beq_iff_eq.mp heq) ▸ hbuilt
  · exact h k stored hk

variable {build : Except ε β}

theorem memo_hit {stored : β} (h : table.lookup key = some stored) :
    memo key build table = (.ok stored, table) := by
  show (match table.lookup key with
    | some stored => pure stored
    | none => Proc.ofExcept build >>= fun built =>
      Proc.modify (fun table => (key, built) :: table) >>= fun _ => pure built : Proc ε (Memo κ β) β) table = _
  rw [h]; rfl

theorem memo_miss (h : table.lookup key = none) :
    memo key build table = (build, match build with
      | .ok built => (key, built) :: table
      | .error _ => table) := by
  show (match table.lookup key with
    | some stored => pure stored
    | none => Proc.ofExcept build >>= fun built =>
      Proc.modify (fun table => (key, built) :: table) >>= fun _ => pure built : Proc ε (Memo κ β) β) table = _
  rw [h]
  cases build <;> rfl

theorem memo_run (key : κ) (build : Except ε β) (h : table.Holds R)
    (hbuild : ∀ built, build = .ok built → R key built) (hunique : ∀ stored, R key stored → build = .ok stored) :
    (memo key build table).1 = build ∧ Memo.Holds R (memo key build table).2 := by
  cases hlookup : table.lookup key with
  | some stored =>
    rw [memo_hit hlookup]; exact ⟨(hunique stored (h key stored hlookup)).symm, h⟩
  | none =>
    rw [memo_miss hlookup]
    refine ⟨rfl, ?_⟩
    cases hresult : build with
    | ok built => exact h.cons (hbuild built hresult)
    | error e => exact h

end CryptoPilot.Lib
