/- # TextLines — text files read line by line.

A file is its characters, which for printable ASCII are its bytes.  Reading translates every line
end to a newline, and `splitLines` cuts at the line boundaries of `str.splitlines`, of which a
newline is one. -/
import CryptoPilot.Lib.JsonText

namespace CryptoPilot.Lib

open List

open JsonText (Printable)

def newline : Char := Char.ofNat 10

def universalNewlines : List Char → List Char
  | [] => []
  | c :: rest =>
    if c.toNat = 13 then
      match rest with
      | d :: more =>
        if d.toNat = 10 then newline :: universalNewlines more else newline :: universalNewlines (d :: more)
      | [] => [newline]
    else c :: universalNewlines rest

/-- The line boundaries of `str.splitlines`. -/
def isLineBreak (c : Char) : Bool :=
  c.toNat = 10 || c.toNat = 11 || c.toNat = 12 || c.toNat = 13 || c.toNat = 28 || c.toNat = 29 || c.toNat = 30 ||
    c.toNat = 133 || c.toNat = 8232 || c.toNat = 8233

/-- `splitLines`, `current` being the line so far; an empty last line does not count. -/
def splitLines (current : List Char) : List Char → List (List Char)
  | [] => if current = [] then [] else [current]
  | c :: rest => if isLineBreak c then current :: splitLines [] rest else splitLines (current ++ [c]) rest

/-- `str.isspace` of a character. -/
def isSpace (c : Char) : Bool :=
  c.val ∈ ([0x20, 0x85, 0xa0, 0x1680, 0x2028, 0x2029, 0x202f, 0x205f, 0x3000] : List UInt32) ||
    (0x09 ≤ c.val && c.val ≤ 0x0d) || (0x1c ≤ c.val && c.val ≤ 0x1f) || (0x2000 ≤ c.val && c.val ≤ 0x200a)

variable {s : List Char} {c : Char} {lines : List (List Char)}

theorem universalNewlines_append (h : ∀ c ∈ s, c.toNat ≠ 13) (rest : List Char) :
    universalNewlines (s ++ rest) = s ++ universalNewlines rest := by
  induction s with
  | nil => rfl
  | cons c s ih =>
    have hc : ¬ c.toNat = 13 := h c mem_cons_self
    rw [universalNewlines.eq_def]
    simp only [if_neg hc, ih fun d hd => h d (mem_cons_of_mem c hd), cons_append]

theorem universalNewlines_eq (h : ∀ c ∈ s, c.toNat ≠ 13) : universalNewlines s = s := by
  have happend := universalNewlines_append h []; rwa [universalNewlines, append_nil] at happend

theorem printable_not_break (h : Printable c) : isLineBreak c = false := by
  obtain ⟨h₁, h₂⟩ := h
  simp only [isLineBreak, Bool.or_eq_false_iff, decide_eq_false_iff_not]; omega

theorem splitLines_append {s rest : List Char} (h : ∀ c ∈ s, Printable c) (current : List Char) :
    splitLines current (s ++ rest) = splitLines (current ++ s) rest := by
  induction s generalizing current with
  | nil => rw [nil_append, append_nil]
  | cons c s ih =>
    have hc : isLineBreak c = false := printable_not_break (h c mem_cons_self)
    rw [cons_append, splitLines, hc, if_neg Bool.false_ne_true,
      ih (fun d hd => h d (mem_cons_of_mem c hd)), append_assoc, singleton_append]

theorem splitLines_ne_nil {current : List Char} (h : current ≠ []) (s : List Char) : splitLines current s ≠ [] := by
  induction s generalizing current with
  | nil => rw [splitLines, if_neg h]; exact cons_ne_nil _ _
  | cons c s ih =>
    rw [splitLines]
    split
    · exact cons_ne_nil _ _
    · exact ih (append_ne_nil_of_right_ne_nil _ (cons_ne_nil _ _))

theorem splitLines_eq_nil (h : splitLines [] s = []) : s = [] := by
  cases s with
  | nil => rfl
  | cons c s =>
    rw [splitLines] at h
    split at h
    · cases h
    · exact absurd h (splitLines_ne_nil (cons_ne_nil c []) s)

/-! ## Files of lines -/

def lined (lines : List (List Char)) : List Char := lines.flatMap fun line => line ++ [newline]

theorem lined_append (lines more : List (List Char)) : lined (lines ++ more) = lined lines ++ lined more :=
  flatMap_append

theorem lined_singleton (line : List Char) : lined [line] = line ++ [newline] := flatMap_singleton _ _

section

variable (h : ∀ line ∈ lines, ∀ c ∈ line, Printable c)

include h

theorem mem_lined (hc : c ∈ lined lines) : Printable c ∨ c = newline := by
  obtain ⟨line, hline, hc⟩ := mem_flatMap.mp hc
  rcases mem_append.mp hc with hc | hc
  · exact .inl (h line hline c hc)
  · exact .inr (mem_singleton.mp hc)

theorem lined_no_return (hc : c ∈ lined lines) : c.toNat ≠ 13 := by
  rcases mem_lined h hc with ⟨hlow, -⟩ | rfl
  · omega
  · decide

theorem splitLines_lined (rest : List Char) : splitLines []
    (lined lines ++ rest) = lines ++ splitLines [] rest := by
  induction lines with
  | nil => rfl
  | cons line lines ih =>
    have hsplit : lined (line :: lines) ++ rest = line ++ newline :: (lined lines ++ rest) := by
      simp [lined]
    rw [hsplit, splitLines_append (h line mem_cons_self), splitLines, ih fun line' hline' =>
      h line' (mem_cons_of_mem line hline')]
    rfl

end

theorem splitLines_tail {tail : List Char} (h : ∀ c ∈ tail, Printable c) (hne : tail ≠ []) :
    splitLines [] tail = [tail] := by
  have hsplit := @splitLines_append tail [] h []
  rw [append_nil, nil_append] at hsplit
  rw [hsplit, splitLines, if_neg hne]

theorem getLast?_lined (h : lines ≠ []) : (lined lines).getLast? = some newline := by
  obtain ⟨prior, line, rfl⟩ := eq_nil_or_concat' lines |>.resolve_left h
  rw [lined_append, lined_singleton, ← append_assoc, getLast?_concat]

theorem printable_ne_newline (h : Printable c) : c ≠ newline := by
  rintro rfl; exact absurd h (by decide)

end CryptoPilot.Lib
