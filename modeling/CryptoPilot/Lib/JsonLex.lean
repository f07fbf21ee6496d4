/- # JsonLex — where a document is open, and where it is complete.

A lexical automaton follows the brackets, the quotation marks and the escapes of a text.  A decoded
object leaves it `closed` (`closed_of_loads`), a written one leaves it open at every proper prefix
(`dumps_open`), and once open, starting further objects never closes it (`open_of_piece`). -/
import Mathlib.Data.List.TakeWhile
import CryptoPilot.Lib.JsonText

namespace CryptoPilot.Lib

namespace JsonLex

open JsonText List Option Prod

/-- Where a character stands: between tokens, in a string, behind a backslash, behind a closing
quotation mark. -/
inductive Mode where
  | between
  | inString
  | inEscape
  | afterString
  deriving DecidableEq, Repr

/-- The state of the automaton; `open n m` has `n + 1` open brackets. -/
inductive State where
  | start
  | opened (depth : ℕ) (m : Mode)
  | closed
  | dead
  deriving DecidableEq, Repr

def State.close : ℕ → State
  | 0 => .closed
  | n + 1 => .opened n .between

def step : State → Char → State
  | .start, c => if isWs c then .start else if c = lbrace then .opened 0 .between else .dead
  | .opened n .between, c =>
    if c = quote then .opened n .inString
    else if c = lbrace ∨ c = lbracket then .opened (n + 1) .between
    else if c = rbrace ∨ c = rbracket then .close n
    else .opened n .between
  | .opened n .inString, c =>
    if c = quote then .opened n .afterString
    else if c = backslash then .opened n .inEscape
    else .opened n .inString
  | .opened n .inEscape, _ => .opened n .inString
  | .opened n .afterString, c =>
    if isWs c then .opened n .afterString
    else if c = comma ∨ c = colon then .opened n .between
    else if c = rbrace ∨ c = rbracket then .close n
    else .dead
  | .closed, c => if isWs c then .closed else .dead
  | .dead, _ => .dead

def run (σ : State) (s : List Char) : State := s.foldl step σ

variable (σ : State)

@[simp] theorem run_nil : run σ [] = σ := rfl

@[simp] theorem run_cons (c : Char) (s : List Char) : run σ (c :: s) = run (step σ c) s := rfl

theorem run_append (s t : List Char) : run σ (s ++ t) = run (run σ s) t := foldl_append

@[simp] theorem run_dead (s : List Char) : run .dead s = .dead := by
  induction s with
  | nil => rfl
  | cons c s ih => exact ih

def Mode.outside : Mode → Prop
  | .between | .afterString => True
  | _ => False

theorem outside_between : Mode.between.outside := trivial

theorem outside_afterString : Mode.afterString.outside := trivial

/-! ## What the decoder reads -/

section Reading

variable {n : ℕ} {rest s t : List Char} {readFloat : List Char → FloatVal}

variable {c : Char} {fuel : ℕ} {fields : List (String × Json)}

theorem step_between_ws (h : isWs c = true) : step (.opened n .between) c = .opened n .between := by
  have hne : ∀ x : Char, isWs x = false → c ≠ x := by
    rintro x hx rfl
    rw [h] at hx; cases hx
  rw [step, if_neg (hne _ (by decide)), if_neg (by simp [hne lbrace (by decide), hne lbracket (by decide)]),
    if_neg (by simp [hne rbrace (by decide), hne rbracket (by decide)])]

variable {m : Mode}

theorem run_skipWs (hm : m.outside) (s : List Char) :
    run (.opened n m) (skipWs s) = run (.opened n m) s := by
  induction s with
  | nil => rfl
  | cons c s ih =>
    rw [skipWs]
    split
    · next h =>
      rw [ih, run_cons]
      cases m with
      | between => rw [step_between_ws h]
      | afterString => rw [step, if_pos h]
      | inString | inEscape => exact hm.elim
    · rfl

/-- The characters that neither open nor close anything between tokens. -/
def Neutral (c : Char) : Prop := c ≠ quote ∧ c ≠ lbrace ∧ c ≠ lbracket ∧ c ≠ rbrace ∧ c ≠ rbracket

instance (c : Char) : Decidable (Neutral c) :=
  inferInstanceAs (Decidable (c ≠ quote ∧ c ≠ lbrace ∧ c ≠ lbracket ∧ c ≠ rbrace ∧ c ≠ rbracket))

theorem step_neutral (h : Neutral c) : step (.opened n .between) c = .opened n .between := by
  obtain ⟨hq, hb, hk, hrb, hrk⟩ := h
  rw [step, if_neg hq, if_neg (by simp [hb, hk]), if_neg (by simp [hrb, hrk])]

theorem run_neutral {s : List Char} (h : ∀ c ∈ s, Neutral c) (t : List Char) :
    run (.opened n .between) (s ++ t) = run (.opened n .between) t := by
  induction s with
  | nil => rfl
  | cons c s ih =>
    rw [cons_append, run_cons, step_neutral (h c mem_cons_self)]
    exact ih fun x hx => h x (mem_cons_of_mem c hx)

theorem neutral_of_isDigit (h : c.isDigit = true) : Neutral c := by
  have hne : ∀ x : Char, x.isDigit = false → c ≠ x := by
    rintro x hx rfl
    rw [h] at hx; cases hx
  exact ⟨hne _ (by decide), hne _ (by decide), hne _ (by decide), hne _ (by decide), hne _ (by decide)⟩

theorem plain_of_hexVal {v : ℕ} (h : hexVal c = some v) : c ≠ quote ∧ c ≠ backslash := by
  have hquote : hexVal quote = none := by decide
  have hbackslash : hexVal backslash = none := by decide
  constructor
  · rintro rfl; exact absurd (hquote.symm.trans h) nofun
  · rintro rfl; exact absurd (hbackslash.symm.trans h) nofun

theorem step_inString (h : c ≠ quote ∧ c ≠ backslash) : step (.opened n .inString) c = .opened n .inString := by
  rw [step, if_neg h.1, if_neg h.2]

theorem run_readHex4 {v : ℕ} (h : readHex4 s = some (v, rest)) :
    run (.opened n .inString) s = run (.opened n .inString) rest := by
  unfold readHex4 at h
  split at h
  · next a b c d more =>
    simp only [bind_eq_bind, bind_eq_some_iff] at h
    obtain ⟨w, hw, x, hx, y, hy, z, hz, heq⟩ := h
    obtain ⟨-, rfl⟩ := mk.inj (Option.some.inj heq)
    rw [run_cons, step_inString (plain_of_hexVal hw), run_cons, step_inString (plain_of_hexVal hx), run_cons,
      step_inString (plain_of_hexVal hy), run_cons, step_inString (plain_of_hexVal hz)]
  · cases h

theorem run_readLowSurrogate {high : ℕ} (h : readLowSurrogate high s = some (c, rest)) :
    run (.opened n .inString) s = run (.opened n .inString) rest := by
  unfold readLowSurrogate at h
  split at h
  · next b u more =>
    split at h
    · next hbu =>
      obtain ⟨rfl, rfl⟩ := hbu
      simp only [bind_eq_bind, bind_eq_some_iff] at h
      obtain ⟨⟨low, more'⟩, hlow, h⟩ := h
      have hq : backslash ≠ quote := by decide
      rw [run_cons, step, if_neg hq, if_pos rfl, run_cons, step, run_readHex4 hlow]
      split at h
      · obtain ⟨-, rfl⟩ := mk.inj (Option.some.inj h); rfl
      · cases h
    · cases h
  · cases h

theorem run_readEscape (h : readEscape s = some (c, rest)) :
    run (.opened n .inEscape) s = run (.opened n .inString) rest := by
  cases s with
  | nil => cases h
  | cons x s =>
    rw [run_cons, step]
    rw [readEscape] at h
    split at h
    · simp only [bind_eq_bind, bind_eq_some_iff] at h
      obtain ⟨⟨v, more⟩, hv, h⟩ := h
      rw [run_readHex4 hv]
      split at h
      · exact run_readLowSurrogate h
      · split at h
        · cases h
        · obtain ⟨-, rfl⟩ := mk.inj (Option.some.inj h); rfl
    · rw [map_eq_some_iff] at h
      obtain ⟨y, -, h⟩ := h
      obtain ⟨-, rfl⟩ := mk.inj h; rfl

theorem run_readString (h : readString fuel s = some (t, rest)) :
    run (.opened n .inString) s = run (.opened n .afterString) rest := by
  induction fuel generalizing s t with
  | zero => cases h
  | succ fuel ih =>
    cases s with
    | nil => cases h
    | cons c s =>
      rw [readString] at h
      rw [run_cons, step]
      split at h
      · next hq =>
        obtain ⟨-, rfl⟩ := mk.inj (Option.some.inj h)
        rw [if_pos hq]
      · next hq =>
        rw [if_neg hq]
        split at h
        · next hb =>
          rw [if_pos hb]
          simp only [bind_eq_bind, bind_eq_some_iff] at h
          obtain ⟨⟨x, more⟩, hx, ⟨u, rest'⟩, hu, heq⟩ := h
          obtain ⟨-, rfl⟩ := mk.inj (Option.some.inj heq)
          rw [run_readEscape hx, ih hu]
        · next hb =>
          rw [if_neg hb]
          split at h
          · cases h
          · simp only [bind_eq_bind, bind_eq_some_iff] at h
            obtain ⟨⟨u, rest'⟩, hu, heq⟩ := h
            obtain ⟨-, rfl⟩ := mk.inj (Option.some.inj heq); exact ih hu

/-- A front of a text without brackets, quotation marks, and what is left. -/
def NeutralFront (s rest : List Char) : Prop := ∃ used, s = used ++ rest ∧ ∀ c ∈ used, Neutral c

theorem NeutralFront.refl (s : List Char) : NeutralFront s s := ⟨[], rfl, nofun⟩

theorem NeutralFront.trans {u : List Char} (h : NeutralFront s t) (h' : NeutralFront t u) : NeutralFront s u := by
  obtain ⟨used, rfl, hused⟩ := h
  obtain ⟨used', rfl, hused'⟩ := h'
  refine ⟨used ++ used', (append_assoc _ _ _).symm, fun c hc => ?_⟩
  exact (mem_append.mp hc).elim (hused c) (hused' c)

theorem NeutralFront.cons (hc : Neutral c) (h : NeutralFront s rest) : NeutralFront (c :: s) rest := by
  obtain ⟨used, rfl, hused⟩ := h
  refine ⟨c :: used, rfl, fun x hx => ?_⟩
  rcases mem_cons.mp hx with rfl | hx
  · exact hc
  · exact hused x hx

theorem NeutralFront.run (h : NeutralFront s rest) :
    run (.opened n .between) s = run (.opened n .between) rest := by
  obtain ⟨used, rfl, hused⟩ := h; exact run_neutral hused rest

theorem neutralFront_readDigits (s : List Char) : NeutralFront s (readDigits s).2 := by
  refine ⟨s.takeWhile Char.isDigit, (takeWhile_append_dropWhile).symm, fun c hc => ?_⟩
  exact neutral_of_isDigit (mem_takeWhile_imp hc)

theorem neutralFront_readFraction (s : List Char) : NeutralFront s (readFraction s).2 := by
  unfold readFraction
  split
  · next d more =>
    split
    · exact NeutralFront.cons (by decide) (neutralFront_readDigits (d :: more))
    · exact NeutralFront.refl _
  · exact NeutralFront.refl _

theorem neutralFront_readSign (s : List Char) : NeutralFront s (readSign s).2 := by
  unfold readSign
  split
  · exact NeutralFront.cons (by decide) (NeutralFront.refl _)
  · exact NeutralFront.cons (by decide) (NeutralFront.refl _)
  · exact NeutralFront.refl _

theorem neutralFront_readExponent (s : List Char) : NeutralFront s (readExponent s).2 := by
  cases s with
  | nil => exact NeutralFront.refl []
  | cons e more =>
    rw [readExponent]
    split
    · next he =>
      have hneutral : Neutral e := by rcases he.1 with rfl | rfl <;> decide
      exact NeutralFront.cons hneutral ((neutralFront_readSign more).trans (neutralFront_readDigits _))
    · exact NeutralFront.refl _

def Scalar : Json → Prop
  | .obj _ => False
  | _ => True

theorem readNumber_front {v : Json} (h : readNumber readFloat s = some (v, rest)) :
    NeutralFront s rest ∧ Scalar v := by
  unfold readNumber at h
  split at h
  next negative unsigned hsign =>
  have hfront : NeutralFront s unsigned := by
    split at hsign
    · obtain ⟨-, rfl⟩ := mk.inj hsign; exact NeutralFront.cons (by decide) (NeutralFront.refl _)
    · obtain ⟨-, rfl⟩ := mk.inj hsign; exact NeutralFront.refl _
  split at h
  · cases h
  · next d more =>
    split at h
    · cases h
    · next hd =>
      split at h
      next digits after hdigits =>
      have hdigit : d.isDigit = true := by simpa using hd
      have hint : NeutralFront (d :: more) after := by
        split at hdigits
        · obtain ⟨-, rfl⟩ := mk.inj hdigits
          exact NeutralFront.cons (neutral_of_isDigit hdigit) (NeutralFront.refl _)
        · rw [← (mk.inj hdigits).2]; exact neutralFront_readDigits (d :: more)
      have htail : NeutralFront (d :: more) (readExponent (readFraction after).2).2 :=
        (hint.trans (neutralFront_readFraction after)).trans (neutralFront_readExponent _)
      simp only at h
      split at h
      all_goals obtain ⟨rfl, rfl⟩ := mk.inj (Option.some.inj h); exact ⟨hfront.trans htail, trivial⟩

theorem stripLiteral_front {word : List Char} (hword : ∀ c ∈ word, Neutral c)
    (h : stripLiteral word s = some rest) :
    NeutralFront s rest := by
  unfold stripLiteral at h
  split at h
  · next hprefix =>
    obtain ⟨t, rfl⟩ := isPrefixOf_iff_prefix.mp hprefix
    rw [← Option.some.inj h, drop_left]; exact ⟨word, rfl, hword⟩
  · cases h

theorem readLiteral_front {v : Json} (h : readLiteral readFloat s = some (v, rest)) :
    NeutralFront s rest ∧ Scalar v := by
  have hfront : ∀ {word : List Char} {w : Json},
      ((stripLiteral word s).map fun rest => (w, rest)) = some (v, rest) → (∀ c ∈ word, Neutral c) →
      Scalar w → NeutralFront s rest ∧ Scalar v := by
    intro word w h hword hw
    rw [map_eq_some_iff] at h
    obtain ⟨t, ht, heq⟩ := h
    obtain ⟨rfl, rfl⟩ := mk.inj heq; exact ⟨stripLiteral_front hword ht, hw⟩
  unfold readLiteral at h
  rw [orElse_eq_or, or_eq_some_iff] at h
  rcases h with h | ⟨-, h⟩
  · exact hfront h (forall_of_all (by decide)) trivial
  rw [orElse_eq_or, or_eq_some_iff] at h
  rcases h with h | ⟨-, h⟩
  · exact hfront h (forall_of_all (by decide)) trivial
  rw [orElse_eq_or, or_eq_some_iff] at h
  rcases h with h | ⟨-, h⟩
  · exact hfront h (forall_of_all (by decide)) trivial
  obtain ⟨word, hword, h⟩ := exists_of_findSome?_eq_some h
  have hneutral : [['N', 'a', 'N'], ['I', 'n', 'f', 'i', 'n', 'i', 't', 'y'],
      ['-', 'I', 'n', 'f', 'i', 'n', 'i', 't', 'y']].all (fun word => word.all fun c =>
        decide (Neutral c)) = true := by
    decide
  exact hfront h (forall_of_all (all_eq_true.mp hneutral word hword)) trivial

theorem step_close (hm : m.outside) (hc : c = rbrace ∨ c = rbracket) :
    step (.opened n m) c = .close n := by
  cases m with
  | between | afterString => rcases hc with rfl | rfl <;> rfl
  | inString | inEscape => exact hm.elim

theorem step_separator (hm : m.outside) (hc : c = comma ∨ c = colon) :
    step (.opened n m) c = .opened n .between := by
  cases m with
  | between | afterString => rcases hc with rfl | rfl <;> rfl
  | inString | inEscape => exact hm.elim

theorem head_tail (h : s.head? = some c) : s = c :: s.tail := by
  cases s with
  | nil => cases h
  | cons x s => rw [head?_cons, Option.some.injEq] at h; rw [h]; rfl

/-- The automaton behind a value, an array and an object that were read. -/
structure Reads (readFloat : List Char → FloatVal) (fuel : ℕ) : Prop where
  value : ∀ {s rest v n}, readValue readFloat fuel s = some (v, rest) →
    ∃ m : Mode, m.outside ∧ run (.opened n .between) s = run (.opened n m) rest
  items : ∀ {s rest items n}, readItems readFloat fuel s = some (items, rest) →
    run (.opened n .between) s = run (.close n) rest
  fields : ∀ {s rest fields n}, readFields readFloat fuel s = some (fields, rest) →
    run (.opened n .between) s = run (.close n) rest

section

variable (ih : Reads readFloat fuel)

include ih

theorem Reads.value_succ {v : Json} (h : readValue readFloat (fuel + 1) s = some (v, rest)) :
    ∃ m : Mode, m.outside ∧ run (.opened n .between) s = run (.opened n m) rest := by
  cases s with
  | nil => cases h
  | cons c s =>
    rw [readValue] at h
    split at h
    · next hq =>
      simp only [bind_eq_bind, bind_eq_some_iff] at h
      obtain ⟨⟨t, more⟩, ht, heq⟩ := h
      obtain ⟨-, rfl⟩ := mk.inj (Option.some.inj heq)
      refine ⟨.afterString, trivial, ?_⟩
      rw [run_cons, step, if_pos hq, run_readString ht]
    · next hq =>
      split at h
      · next hb =>
        have hopen : step (.opened n .between) c = .opened (n + 1) .between := by
          rw [step, if_neg hq, if_pos (Or.inl hb)]
        refine ⟨.between, trivial, ?_⟩
        rw [run_cons, hopen, ← run_skipWs outside_between]
        split at h
        · next hhead =>
          obtain ⟨-, rfl⟩ := mk.inj (Option.some.inj h)
          rw [head_tail hhead]; rfl
        · simp only [bind_eq_bind, bind_eq_some_iff] at h
          obtain ⟨⟨fields, more⟩, hfields, heq⟩ := h
          obtain ⟨-, rfl⟩ := mk.inj (Option.some.inj heq); exact ih.fields hfields
      · next hb =>
        split at h
        · next hk =>
          have hopen : step (.opened n .between) c = .opened (n + 1) .between := by
            rw [step, if_neg hq, if_pos (Or.inr hk)]
          refine ⟨.between, trivial, ?_⟩
          rw [run_cons, hopen, ← run_skipWs outside_between]
          split at h
          · next hhead =>
            obtain ⟨-, rfl⟩ := mk.inj (Option.some.inj h)
            rw [head_tail hhead]; rfl
          · simp only [bind_eq_bind, bind_eq_some_iff] at h
            obtain ⟨⟨items, more⟩, hitems, heq⟩ := h
            obtain ⟨-, rfl⟩ := mk.inj (Option.some.inj heq); exact ih.items hitems
        · rw [orElse_eq_or, or_eq_some_iff] at h
          refine ⟨.between, trivial, NeutralFront.run ?_⟩
          rcases h with h | ⟨-, h⟩
          · exact (readLiteral_front h).1
          · exact (readNumber_front h).1

theorem Reads.items_succ {items : List Json}
    (h : readItems readFloat (fuel + 1) s = some (items, rest)) :
    run (.opened n .between) s = run (.close n) rest := by
  rw [readItems] at h
  simp only [bind_eq_bind, bind_eq_some_iff] at h
  obtain ⟨⟨item, more⟩, hitem, h⟩ := h
  obtain ⟨m, hm, hrun⟩ := ih.value (n := n) hitem
  rw [hrun, ← run_skipWs hm]
  split at h
  · cases h
  · next c after hws =>
    rw [hws]
    split at h
    · next hc =>
      obtain ⟨-, rfl⟩ := mk.inj (Option.some.inj h)
      rw [run_cons, step_close hm (Or.inr hc)]
    · split at h
      · next hc =>
        simp only [bind_eq_some_iff] at h
        obtain ⟨⟨tail, more'⟩, htail, heq⟩ := h
        obtain ⟨-, rfl⟩ := mk.inj (Option.some.inj heq)
        rw [run_cons, step_separator hm (Or.inl hc), ← run_skipWs outside_between]
        exact ih.items htail
      · cases h

theorem Reads.fields_succ (h : readFields readFloat (fuel + 1) s = some (fields, rest)) :
    run (.opened n .between) s = run (.close n) rest := by
  cases s with
  | nil => cases h
  | cons c s =>
    rw [readFields] at h
    split at h
    · cases h
    · next hq =>
      have hquote : c = quote := by simpa using hq
      simp only [bind_eq_bind, bind_eq_some_iff] at h
      obtain ⟨⟨key, more⟩, hkey, h⟩ := h
      rw [run_cons, step, if_pos hquote, run_readString hkey, ← run_skipWs outside_afterString]
      split at h
      · cases h
      · next c after hws =>
        rw [hws]
        split at h
        · cases h
        · next hcolon =>
          have hcolon : c = colon := by simpa using hcolon
          simp only [bind_eq_some_iff] at h
          obtain ⟨⟨value, more'⟩, hvalue, h⟩ := h
          obtain ⟨m, hm, hrun⟩ := ih.value (n := n) hvalue
          rw [run_cons, step_separator outside_afterString (Or.inr hcolon), ← run_skipWs outside_between, hrun,
            ← run_skipWs hm]
          split at h
          · cases h
          · next c' after' hws' =>
            rw [hws']
            split at h
            · next hc =>
              obtain ⟨-, rfl⟩ := mk.inj (Option.some.inj h)
              rw [run_cons, step_close hm (Or.inl hc)]
            · split at h
              · next hc =>
                simp only [bind_eq_some_iff] at h
                obtain ⟨⟨tail, more''⟩, htail, heq⟩ := h
                obtain ⟨-, rfl⟩ := mk.inj (Option.some.inj heq)
                rw [run_cons, step_separator hm (Or.inl hc), ← run_skipWs outside_between]
                exact ih.fields htail
              · cases h

end

theorem reads (readFloat : List Char → FloatVal) : ∀ fuel, Reads readFloat fuel
  | 0 => by
    constructor
    · intro s rest v n h; cases h
    · intro s rest items n h; cases h
    · intro s rest fields n h; cases h
  | fuel + 1 =>
    ⟨(reads readFloat fuel).value_succ, (reads readFloat fuel).items_succ, (reads readFloat fuel).fields_succ⟩

theorem run_start_skipWs (s : List Char) : run .start (skipWs s) = run .start s := by
  induction s with
  | nil => rfl
  | cons c s ih =>
    rw [skipWs]
    split
    · next h => rw [ih, run_cons, step, if_pos h]
    · rfl

theorem run_closed_of_skipWs (h : skipWs s = []) : run .closed s = .closed := by
  induction s with
  | nil => rfl
  | cons c s ih =>
    rw [skipWs] at h
    split at h
    · next hws => rw [run_cons, step, if_pos hws, ih h]
    · cases h

/-- **A decoded object is closed**: the automaton ends where its last bracket closed. -/
theorem closed_of_loads (h : loads readFloat s = some (.obj fields)) : run .start s = .closed := by
  unfold loads at h
  split at h
  · next v rest hread =>
    split at h
    · next hrest =>
      obtain rfl := Option.some.inj h
      rw [← run_start_skipWs]
      cases hs : skipWs s with
      | nil =>
        rw [hs] at hread; cases hread
      | cons c t =>
        rw [hs, readValue] at hread
        split at hread
        · simp only [bind_eq_bind, bind_eq_some_iff] at hread
          obtain ⟨_, -, heq⟩ := hread; cases (mk.inj (Option.some.inj heq)).1
        · split at hread
          · next hb =>
            have hws : isWs c = false := by rw [hb]; decide
            rw [run_cons, step, if_neg (by simp [hws]), if_pos hb, ← run_skipWs outside_between]
            split at hread
            · next hhead =>
              obtain ⟨-, rfl⟩ := mk.inj (Option.some.inj hread)
              rw [head_tail hhead]; exact run_closed_of_skipWs hrest
            · simp only [bind_eq_bind, bind_eq_some_iff] at hread
              obtain ⟨⟨fields', more⟩, hfields, heq⟩ := hread
              obtain ⟨-, rfl⟩ := mk.inj (Option.some.inj heq)
              rw [(reads readFloat _).fields hfields]; exact run_closed_of_skipWs hrest
          · split at hread
            · split at hread
              · cases (mk.inj (Option.some.inj hread)).1
              · simp only [bind_eq_bind, bind_eq_some_iff] at hread
                obtain ⟨_, -, heq⟩ := hread; cases (mk.inj (Option.some.inj heq)).1
            · rw [orElse_eq_or, or_eq_some_iff] at hread
              rcases hread with hread | ⟨-, hread⟩
              · exact (readLiteral_front hread).2.elim
              · exact (readNumber_front hread).2.elim
    · cases h
  · cases h

end Reading

/-! ## What the encoder writes -/

section Writing

variable {n : ℕ} {m m' m'' : Mode} {s t : List Char} {floatText : FloatVal → List Char}
  {readFloat : List Char → FloatVal}

/-- The text leads from mode `m` at depth `n` to mode `m'` at depth `n`, and no front of it below.
-/
def Stays (n : ℕ) (m : Mode) (s : List Char) (m' : Mode) : Prop :=
  (∀ q, q <+: s → ∃ j k, run (.opened n m) q = .opened j k ∧ n ≤ j) ∧ run (.opened n m) s = .opened n m'

theorem Stays.nil : Stays n m [] m := by
  refine ⟨fun q hq => ⟨n, m, ?_, Nat.le_refl n⟩, rfl⟩
  rw [prefix_nil.mp hq]; rfl

theorem Stays.append (h : Stays n m s m') (h' : Stays n m' t m'') : Stays n m (s ++ t) m'' := by
  refine ⟨fun q hq => ?_, by rw [run_append, h.2, h'.2]⟩
  rcases prefix_or_prefix_of_prefix hq (prefix_append s t) with hqs | ⟨u, rfl⟩
  · exact h.1 q hqs
  · rw [run_append, h.2]; exact h'.1 u ((prefix_append_right_inj s).mp hq)

theorem Stays.cons {c : Char} (hstep : step (.opened n m) c = .opened n m') (h : Stays n m' s m'') :
    Stays n m (c :: s) m'' := by
  have hone : Stays n m [c] m' := by
    refine ⟨fun q hq => ?_, hstep⟩
    rcases prefix_cons_iff.mp hq with rfl | ⟨u, rfl, hu⟩
    · exact ⟨n, m, rfl, Nat.le_refl n⟩
    · rw [prefix_nil.mp hu]; exact ⟨n, m', hstep, Nat.le_refl n⟩
  exact hone.append h

theorem Stays.bracket {a b : Char} (ha : a = lbrace ∨ a = lbracket) (hb : b = rbrace ∨ b = rbracket)
    (hm : m.outside) (h : Stays (n + 1) .between s m) : Stays n .between (a :: (s ++ [b])) .between := by
  have hopen : step (.opened n .between) a = .opened (n + 1) .between := by
    rcases ha with rfl | rfl <;> rfl
  have hclose : run (.opened (n + 1) .between) (s ++ [b]) = .opened n .between := by
    rw [run_append, h.2, run_cons, step_close hm hb]; rfl
  refine ⟨fun q hq => ?_, by rw [run_cons, hopen, hclose]⟩
  rcases prefix_cons_iff.mp hq with rfl | ⟨u, rfl, hu⟩
  · exact ⟨n, .between, rfl, Nat.le_refl n⟩
  · rw [run_cons, hopen]
    rcases prefix_concat_iff.mp hu with rfl | hu
    · exact ⟨n, .between, hclose, Nat.le_refl n⟩
    · obtain ⟨j, k, hj, hle⟩ := h.1 u hu; exact ⟨j, k, hj, Nat.le_of_succ_le hle⟩

theorem Stays.neutral {s : List Char} (h : ∀ c ∈ s, Neutral c) : Stays n .between s .between := by
  induction s with
  | nil => exact Stays.nil
  | cons c s ih =>
    exact Stays.cons (step_neutral (h c mem_cons_self)) (ih fun x hx => h x (mem_cons_of_mem c hx))

theorem Stays.inString {s : List Char} (h : ∀ c ∈ s, c ≠ quote ∧ c ≠ backslash) :
    Stays n .inString s .inString := by
  induction s with
  | nil => exact Stays.nil
  | cons c s ih =>
    exact Stays.cons (step_inString (h c mem_cons_self)) (ih fun x hx => h x (mem_cons_of_mem c hx))

theorem plain_hexDigit : ∀ d < 16, hexDigit d ≠ quote ∧ hexDigit d ≠ backslash := by decide

theorem plain_hex4 (v : ℕ) : ∀ c ∈ hex4 v, c ≠ quote ∧ c ≠ backslash := by
  intro c hc
  have hdigit : ∀ m, hexDigit (m % 16) ≠ quote ∧ hexDigit (m % 16) ≠ backslash :=
    fun m => plain_hexDigit _ (Nat.mod_lt m (by decide))
  simp only [hex4, mem_cons, not_mem_nil, or_false] at hc
  rcases hc with rfl | rfl | rfl | rfl <;> exact hdigit _

theorem stays_unicodeEscape (v : ℕ) : Stays n .inString (unicodeEscape v) .inString := by
  exact @Stays.cons n .inString .inEscape .inString _ _ rfl (Stays.cons rfl (Stays.inString (plain_hex4 v)))

theorem stays_escapeChar (c : Char) : Stays n .inString (escapeChar c) .inString := by
  unfold escapeChar
  split
  · next letter _ =>
    exact @Stays.cons n .inString .inEscape .inString _ _ rfl (Stays.cons rfl Stays.nil)
  · next hshort =>
    split
    · refine Stays.inString fun x hx => ?_
      obtain rfl := mem_singleton.mp hx
      constructor <;> rintro rfl <;> revert hshort <;> decide
    · split
      · exact stays_unicodeEscape _
      · exact (stays_unicodeEscape _).append (stays_unicodeEscape _)

theorem stays_escaped (s : List Char) : Stays n .inString (escaped s) .inString := by
  induction s with
  | nil => exact Stays.nil
  | cons c s ih =>
    exact (stays_escapeChar c).append ih

theorem stays_quoted (s : String) : Stays n .between (quoted s) .afterString :=
  @Stays.cons n .between .inString .afterString _ _ rfl ((stays_escaped s.toList).append (Stays.cons rfl Stays.nil))

theorem stays_intDigits (v : ℤ) : Stays n .between (intDigits v) .between := by
  have hneutral : ∀ {k : ℕ}, ∀ c ∈ Nat.toDigits 10 k, Neutral c :=
    fun c hc => neutral_of_isDigit (isDigit_of_mem_numeral hc)
  cases v with
  | ofNat k => exact Stays.neutral hneutral
  | negSucc k => exact Stays.cons (step_neutral (by decide)) (Stays.neutral hneutral)

theorem stays_separator {c : Char} (hc : c = comma ∨ c = colon) (hm : m.outside)
    (h : Stays n .between s m') : Stays n m (c :: space :: s) m' :=
  Stays.cons (step_separator hm hc) (Stays.cons (step_between_ws (by decide)) h)

mutual

theorem stays_dumps : ∀ v : Json, Written floatText readFloat v →
    ∃ m : Mode, m.outside ∧ ∀ n, Stays n .between (dumps floatText v) m
  | .null, _ => by
    have hneutral : ∀ c ∈ ['n', 'u', 'l', 'l'], Neutral c := forall_of_all (by decide)
    exact ⟨.between, trivial, fun n => Stays.neutral hneutral⟩
  | .bool b, _ => by
    have hneutral : ∀ b, ∀ c ∈ literal b, Neutral c := fun b => forall_of_all (by cases b <;> decide)
    exact ⟨.between, trivial, fun n => Stays.neutral (hneutral b)⟩
  | .int v, _ => ⟨.between, trivial, fun n => stays_intDigits v⟩
  | .float _, h => by
    refine ⟨.between, trivial, fun n => Stays.neutral fun c hc => ?_⟩
    rcases h.1.mem hc with hc | rfl | rfl | rfl | rfl | rfl
    · exact neutral_of_isDigit hc
    all_goals decide
  | .str s, _ => ⟨.afterString, trivial, fun n => stays_quoted s⟩
  | .arr [], _ =>
    ⟨.between, trivial, fun n => Stays.bracket (Or.inr rfl) (Or.inr rfl) outside_between Stays.nil⟩
  | .arr (item :: items), h => by
    obtain ⟨m, hm, hitem⟩ := stays_dumps item h.1
    obtain ⟨m', hm', hitems⟩ := stays_itemsText items h.2 m hm
    refine ⟨.between, trivial, fun n => ?_⟩
    rw [dumps, ← append_assoc]
    exact Stays.bracket (Or.inr rfl) (Or.inr rfl) hm' ((hitem _).append (hitems _))
  | .obj [], _ =>
    ⟨.between, trivial, fun n => Stays.bracket (Or.inl rfl) (Or.inl rfl) outside_between Stays.nil⟩
  | .obj ((key, value) :: fields), h => by
    obtain ⟨m, hm, hvalue⟩ := stays_dumps value h.1.1
    obtain ⟨m', hm', hfields⟩ := stays_fieldsText fields h.1.2 m hm
    refine ⟨.between, trivial, fun n => ?_⟩
    rw [dumps, ← append_assoc]
    exact Stays.bracket (Or.inl rfl) (Or.inl rfl) hm'
      (((stays_quoted key).append (stays_separator (Or.inr rfl) outside_afterString (hvalue _))).append
        (hfields _))

theorem stays_itemsText : ∀ items : List Json, WrittenItems floatText readFloat items → ∀ m : Mode, m.outside →
    ∃ m' : Mode, m'.outside ∧ ∀ n, Stays n m (itemsText floatText items) m'
  | [], _, m, hm => ⟨m, hm, fun _ => Stays.nil⟩
  | item :: items, h, m, hm => by
    obtain ⟨m₁, hm₁, hitem⟩ := stays_dumps item h.1
    obtain ⟨m₂, hm₂, hitems⟩ := stays_itemsText items h.2 m₁ hm₁
    refine ⟨m₂, hm₂, fun n => ?_⟩
    rw [itemsText]; exact stays_separator (Or.inl rfl) hm ((hitem n).append (hitems n))

theorem stays_fieldsText : ∀ fields : List (String × Json), WrittenFields floatText readFloat fields →
    ∀ m : Mode, m.outside → ∃ m' : Mode, m'.outside ∧ ∀ n, Stays n m (fieldsText floatText fields) m'
  | [], _, m, hm => ⟨m, hm, fun _ => Stays.nil⟩
  | (key, value) :: fields, h, m, hm => by
    obtain ⟨m₁, hm₁, hvalue⟩ := stays_dumps value h.1
    obtain ⟨m₂, hm₂, hfields⟩ := stays_fieldsText fields h.2 m₁ hm₁
    refine ⟨m₂, hm₂, fun n => ?_⟩
    rw [fieldsText]
    exact stays_separator (Or.inl rfl) hm
      (((stays_quoted key).append (stays_separator (Or.inr rfl) outside_afterString (hvalue n))).append
        (hfields n))

end

end Writing

/-! ## Cut and continued documents -/

section Pieces

variable {p s : List Char}

structure ObjectText (s : List Char) : Prop where
  bracketed : ∃ body, ∃ m : Mode, s = lbrace :: (body ++ [rbrace]) ∧ m.outside ∧ ∀ n, Stays n .between body m
  lettered : ∃ c t, s = lbrace :: quote :: c :: t ∧ ∀ n, step (.opened n .afterString) c = .dead

def Piece (p : List Char) : Prop := p ≠ [] ∧ ∃ s, ObjectText s ∧ p <+: s

theorem objectText_dumps {floatText : FloatVal → List Char} {readFloat : List Char → FloatVal} {key : String}
    {value : Json} {fields : List (String × Json)}
    (h : Written floatText readFloat (.obj ((key, value) :: fields))) {c : Char} {t : List Char}
    (hkey : escaped key.toList = c :: t) (hc : ∀ n, step (.opened n .afterString) c = .dead) :
    ObjectText (dumps floatText (.obj ((key, value) :: fields))) := by
  obtain ⟨m, hm, hvalue⟩ : ∃ m : Mode, m.outside ∧ ∀ n, Stays n .between (dumps floatText value) m :=
    stays_dumps value h.1.1
  obtain ⟨m', hm', hfields⟩ : ∃ m' : Mode, m'.outside ∧ ∀ n, Stays n m (fieldsText floatText fields) m' :=
    stays_fieldsText fields h.1.2 m hm
  refine ⟨⟨quoted key ++ (colon :: space :: dumps floatText value) ++ fieldsText floatText fields, m', ?_, hm',
    fun n => ?_⟩, c, t ++ [quote] ++ (colon :: space :: dumps floatText value) ++
      (fieldsText floatText fields ++ [rbrace]), ?_, hc⟩
  · rw [dumps]; simp
  · exact ((stays_quoted key).append (stays_separator (Or.inr rfl) outside_afterString (hvalue n))).append
      (hfields n)
  · rw [dumps, quoted, hkey]; simp

theorem ObjectText.closed (h : ObjectText s) : run .start s = .closed := by
  obtain ⟨body, m, rfl, hm, hbody⟩ := h.bracketed
  have hopen : step .start lbrace = .opened 0 .between := rfl
  rw [run_cons, hopen, run_append, (hbody 0).2, run_cons, step_close hm (Or.inl rfl)]; rfl

theorem ObjectText.cut_open (h : ObjectText s) (hp : p <+: s) (hne : p ≠ []) (hcut : p ≠ s) :
    ∃ n m, run .start p = .opened n m := by
  obtain ⟨body, m, rfl, hm, hbody⟩ := h.bracketed
  rcases prefix_cons_iff.mp hp with rfl | ⟨q, rfl, hq⟩
  · exact absurd rfl hne
  · rcases prefix_concat_iff.mp hq with rfl | hq
    · exact absurd rfl hcut
    · obtain ⟨j, k, hj, -⟩ := (hbody 0).1 q hq; exact ⟨j, k, hj⟩

theorem open_of_piece (hp : Piece p) (n : ℕ) (m : Mode) :
    run (.opened n m) p = .dead ∨ ∃ n' m', run (.opened n m) p = .opened n' m' := by
  obtain ⟨hne, s, hs, hps⟩ := hp
  have hletters : p = [lbrace] ∨ p = [lbrace, quote] ∨
      ∃ c t, p = lbrace :: quote :: c :: t ∧ ∀ n, step (.opened n .afterString) c = .dead := by
    obtain ⟨c, t, rfl, hc⟩ := hs.lettered
    rcases prefix_cons_iff.mp hps with rfl | ⟨p₁, rfl, hp₁⟩
    · exact absurd rfl hne
    · rcases prefix_cons_iff.mp hp₁ with rfl | ⟨p₂, rfl, hp₂⟩
      · exact Or.inl rfl
      · rcases prefix_cons_iff.mp hp₂ with rfl | ⟨p₃, rfl, -⟩
        · exact Or.inr (Or.inl rfl)
        · exact Or.inr (Or.inr ⟨c, p₃, rfl, hc⟩)
  -- inside a string the opening brace is text and the quotation mark ends the string
  have htext : ∀ {n : ℕ} {m : Mode}, step (.opened n m) lbrace = .opened n .inString →
      run (.opened n m) p = .dead ∨ ∃ n' m', run (.opened n m) p = .opened n' m' := by
    intro n m hstep
    have hquote : step (.opened n .inString) quote = .opened n .afterString := rfl
    rcases hletters with rfl | rfl | ⟨c, t, rfl, hc⟩
    · exact Or.inr ⟨n, .inString, hstep⟩
    · exact Or.inr ⟨n, .afterString, by rw [run_cons, hstep, run_cons, hquote, run_nil]⟩
    · left
      rw [run_cons, hstep, run_cons, hquote, run_cons, hc, run_dead]
  cases m with
  | inString | inEscape => exact htext rfl
  | afterString =>
    have hdead : step (.opened n .afterString) lbrace = .dead := rfl
    left
    rcases hletters with rfl | rfl | ⟨c, t, rfl, -⟩ <;> rw [run_cons, hdead, run_dead]
  | between =>
    -- an object may start here; it opens a bracket and closes no more than that
    right
    obtain ⟨body, m, rfl, hm, hbody⟩ := hs.bracketed
    rcases prefix_cons_iff.mp hps with rfl | ⟨q, rfl, hq⟩
    · exact absurd rfl hne
    · have hopen : step (.opened n .between) lbrace = .opened (n + 1) .between := rfl
      rw [run_cons, hopen]
      rcases prefix_concat_iff.mp hq with rfl | hq
      · refine ⟨n, .between, ?_⟩
        rw [run_append, (hbody (n + 1)).2, run_cons, step_close hm (Or.inl rfl)]; rfl
      · obtain ⟨j, k, hj, -⟩ := (hbody (n + 1)).1 q hq; exact ⟨j, k, hj⟩

def Unclosed (s : List Char) : Prop := run .start s = .dead ∨ ∃ n m, run .start s = .opened n m

theorem Unclosed.not_closed (h : Unclosed s) : run .start s ≠ .closed := by
  rcases h with hs | ⟨n, m, hs⟩ <;> rw [hs] <;> nofun

theorem Unclosed.append (h : Unclosed s) (hp : Piece p) : Unclosed (s ++ p) := by
  rw [Unclosed, run_append]
  rcases h with hdead | ⟨n, m, hopened⟩
  · exact Or.inl (by rw [hdead, run_dead])
  · rw [hopened]; exact open_of_piece hp n m

theorem unclosed_behind_object (h : ObjectText s) (hp : Piece p) : Unclosed (s ++ p) := by
  obtain ⟨hne, s', hs', hps⟩ := hp
  obtain ⟨c, t, rfl, -⟩ := hs'.lettered
  left
  rcases prefix_cons_iff.mp hps with rfl | ⟨q, rfl, -⟩
  · exact absurd rfl hne
  · have hdead : step .closed lbrace = .dead := rfl
    rw [run_append, h.closed, run_cons, hdead, run_dead]

theorem ObjectText.unclosed_of_cut (h : ObjectText s) (hp : p <+: s) (hne : p ≠ []) (hcut : p ≠ s) : Unclosed p :=
  Or.inr (h.cut_open hp hne hcut)

end Pieces

end JsonLex

end CryptoPilot.Lib
