/- # JsonText — JSON documents as texts.

`dumps` writes a value with the default separators and every character outside the printable ASCII
range escaped; `loads` is the strict decoder: whitespace, the escapes with their surrogate pairs,
numbers without leading zeros, the non-finite literals, and nothing after the value. -/
import Mathlib.Data.List.Basic
import CryptoPilot.Lib.Json
import CryptoPilot.Lib.Text

namespace CryptoPilot.Lib

open List

namespace JsonText

/-! ## Characters -/

def quote : Char := Char.ofNat 34
def backslash : Char := Char.ofNat 92
def lbrace : Char := Char.ofNat 123
def rbrace : Char := Char.ofNat 125
def lbracket : Char := Char.ofNat 91
def rbracket : Char := Char.ofNat 93
def comma : Char := Char.ofNat 44
def colon : Char := Char.ofNat 58
def space : Char := Char.ofNat 32

def isWs (c : Char) : Bool := c.toNat = 32 || c.toNat = 9 || c.toNat = 10 || c.toNat = 13

def hexDigit (d : ℕ) : Char := if d < 10 then Char.ofNat (48 + d) else Char.ofNat (87 + d)

def hexVal (c : Char) : Option ℕ :=
  if 48 ≤ c.toNat ∧ c.toNat ≤ 57 then some (c.toNat - 48)
  else if 97 ≤ c.toNat ∧ c.toNat ≤ 102 then some (c.toNat - 87)
  else if 65 ≤ c.toNat ∧ c.toNat ≤ 70 then some (c.toNat - 55)
  else none

/-! ## Encoding -/

def hex4 (n : ℕ) : List Char :=
  [hexDigit (n / 4096 % 16), hexDigit (n / 256 % 16), hexDigit (n / 16 % 16), hexDigit (n % 16)]

def unicodeEscape (n : ℕ) : List Char := backslash :: 'u' :: hex4 n

def shortEscape (c : Char) : Option Char :=
  if c = quote ∨ c = backslash then some c
  else if c.toNat = 8 then some 'b'
  else if c.toNat = 9 then some 't'
  else if c.toNat = 10 then some 'n'
  else if c.toNat = 12 then some 'f'
  else if c.toNat = 13 then some 'r'
  else none

def escapeChar (c : Char) : List Char :=
  match shortEscape c with
  | some letter => [backslash, letter]
  | none =>
    if 32 ≤ c.toNat ∧ c.toNat ≤ 126 then [c]
    else if c.toNat < 65536 then unicodeEscape c.toNat
    else unicodeEscape (55296 + (c.toNat - 65536) / 1024) ++ unicodeEscape (56320 + (c.toNat - 65536) % 1024)

def escaped (s : List Char) : List Char := s.flatMap escapeChar

def quoted (s : String) : List Char := quote :: (escaped s.toList ++ [quote])

def literal (b : Bool) : List Char := if b then ['t', 'r', 'u', 'e'] else ['f', 'a', 'l', 's', 'e']

mutual

/-- `json.dumps`; floats are left to the caller. -/
def dumps (floatText : FloatVal → List Char) : Json → List Char
  | .null => ['n', 'u', 'l', 'l']
  | .bool b => literal b
  | .int n => intDigits n
  | .float x => floatText x
  | .str s => quoted s
  | .arr [] => [lbracket, rbracket]
  | .arr (item :: rest) => lbracket :: (dumps floatText item ++ (itemsText floatText rest ++ [rbracket]))
  | .obj [] => [lbrace, rbrace]
  | .obj ((key, value) :: rest) =>
    lbrace :: (quoted key ++ (colon :: space :: dumps floatText value) ++ (fieldsText floatText rest ++ [rbrace]))

def itemsText (floatText : FloatVal → List Char) : List Json → List Char
  | [] => []
  | item :: rest => comma :: space :: (dumps floatText item ++ itemsText floatText rest)

def fieldsText (floatText : FloatVal → List Char) : List (String × Json) → List Char
  | [] => []
  | (key, value) :: rest =>
    comma :: space :: (quoted key ++ (colon :: space :: dumps floatText value) ++ fieldsText floatText rest)

end

/-! ## Decoding -/

def skipWs : List Char → List Char
  | [] => []
  | c :: rest => if isWs c then skipWs rest else c :: rest

def readHex4 : List Char → Option (ℕ × List Char)
  | a :: b :: c :: d :: rest => do
    let w ← hexVal a
    let x ← hexVal b
    let y ← hexVal c
    let z ← hexVal d
    some (w * 4096 + x * 256 + y * 16 + z, rest)
  | _ => none

def unescapeChar (c : Char) : Option Char :=
  if c = quote ∨ c = backslash ∨ c = '/' then some c
  else if c = 'b' then some (Char.ofNat 8)
  else if c = 't' then some (Char.ofNat 9)
  else if c = 'n' then some (Char.ofNat 10)
  else if c = 'f' then some (Char.ofNat 12)
  else if c = 'r' then some (Char.ofNat 13)
  else none

def readLowSurrogate (high : ℕ) : List Char → Option (Char × List Char)
  | b :: u :: rest =>
    if b = backslash ∧ u = 'u' then do
      let (low, rest) ← readHex4 rest
      if 56320 ≤ low ∧ low ≤ 57343 then
        some (Char.ofNat (65536 + (high - 55296) * 1024 + (low - 56320)), rest)
      else none
    else none
  | _ => none

def readEscape : List Char → Option (Char × List Char)
  | [] => none
  | c :: rest =>
    if c = 'u' then do
      let (n, rest) ← readHex4 rest
      if 55296 ≤ n ∧ n ≤ 56319 then readLowSurrogate n rest
      else if 56320 ≤ n ∧ n ≤ 57343 then none
      else some (Char.ofNat n, rest)
    else (unescapeChar c).map fun x => (x, rest)

/-- A string, after its opening quotation mark; a control character is refused. -/
def readString : ℕ → List Char → Option (List Char × List Char)
  | 0, _ => none
  | _ + 1, [] => none
  | fuel + 1, c :: rest =>
    if c = quote then some ([], rest)
    else if c = backslash then do
      let (x, rest) ← readEscape rest
      let (s, rest) ← readString fuel rest
      some (x :: s, rest)
    else if c.toNat < 32 then none
    else do
      let (s, rest) ← readString fuel rest
      some (c :: s, rest)

def readDigits (s : List Char) : List Char × List Char := (s.takeWhile Char.isDigit, s.dropWhile Char.isDigit)

/-- `(\.\d+)?` -/
def readFraction : List Char → List Char × List Char
  | '.' :: d :: rest =>
    if d.isDigit then ('.' :: (readDigits (d :: rest)).1, (readDigits (d :: rest)).2) else ([], '.' :: d :: rest)
  | s => ([], s)

/-- `[-+]?` -/
def readSign : List Char → List Char × List Char
  | '+' :: rest => (['+'], rest)
  | '-' :: rest => (['-'], rest)
  | s => ([], s)

/-- `([eE][-+]?\d+)?` -/
def readExponent : List Char → List Char × List Char
  | [] => ([], [])
  | e :: rest =>
    if (e = 'e' ∨ e = 'E') ∧ (readDigits (readSign rest).2).1 ≠ [] then
      (e :: (readSign rest).1 ++ (readDigits (readSign rest).2).1, (readDigits (readSign rest).2).2)
    else ([], e :: rest)

/-- `-?(?:0|[1-9]\d*)` with its fraction and exponent; a number with neither is an integer. -/
def readNumber (readFloat : List Char → FloatVal) (s : List Char) : Option (Json × List Char) :=
  let (negative, unsigned) := match s with
    | '-' :: rest => (true, rest)
    | _ => (false, s)
  match unsigned with
  | [] => none
  | d :: more =>
    if ¬ d.isDigit then none
    else
      let (digits, rest) := if d = '0' then (['0'], more) else readDigits unsigned
      let (fraction, rest) := readFraction rest
      let (exponent, rest) := readExponent rest
      let value := (Nat.ofDigitChars 10 digits 0 : ℤ)
      if fraction = [] ∧ exponent = [] then some (.int (if negative then -value else value), rest)
      else some (.float (readFloat ((if negative then ['-'] else []) ++ digits ++ fraction ++ exponent)), rest)

def stripLiteral (word : List Char) (s : List Char) : Option (List Char) :=
  if word.isPrefixOf s then some (s.drop word.length) else none

/-- The literals: `null`, the booleans and the non-finite floats. -/
def readLiteral (readFloat : List Char → FloatVal) (s : List Char) : Option (Json × List Char) :=
  ((stripLiteral ['n', 'u', 'l', 'l'] s).map fun rest => (.null, rest)).orElse fun _ =>
  ((stripLiteral (literal true) s).map fun rest => (.bool true, rest)).orElse fun _ =>
  ((stripLiteral (literal false) s).map fun rest => (.bool false, rest)).orElse fun _ =>
  ([['N', 'a', 'N'], ['I', 'n', 'f', 'i', 'n', 'i', 't', 'y'],
    ['-', 'I', 'n', 'f', 'i', 'n', 'i', 't', 'y']].findSome?
    fun word => (stripLiteral word s).map fun rest => (.float (readFloat word), rest))

/-- The entries of an object as a dictionary: the last value of a key stands at its first place. -/
def insertField (fields : List (String × Json)) (e : String × Json) : List (String × Json) :=
  if fields.any fun f => f.1 = e.1 then fields.map fun f => if f.1 = e.1 then e else f else fields ++ [e]

mutual

def readValue (readFloat : List Char → FloatVal) : ℕ → List Char → Option (Json × List Char)
  | 0, _ => none
  | _ + 1, [] => none
  | fuel + 1, c :: rest =>
    if c = quote then do
      let (s, rest) ← readString (rest.length + 1) rest
      some (.str (String.ofList s), rest)
    else if c = lbrace then
      if (skipWs rest).head? = some rbrace then some (.obj [], (skipWs rest).tail)
      else do
        let (fields, rest) ← readFields readFloat fuel (skipWs rest)
        some (.obj (fields.foldl insertField []), rest)
    else if c = lbracket then
      if (skipWs rest).head? = some rbracket then some (.arr [], (skipWs rest).tail)
      else do
        let (items, rest) ← readItems readFloat fuel (skipWs rest)
        some (.arr items, rest)
    else (readLiteral readFloat (c :: rest)).orElse fun _ => readNumber readFloat (c :: rest)

def readItems (readFloat : List Char → FloatVal) : ℕ → List Char → Option (List Json × List Char)
  | 0, _ => none
  | fuel + 1, s => do
    let (item, rest) ← readValue readFloat fuel s
    match skipWs rest with
    | [] => none
    | c :: rest =>
      if c = rbracket then some ([item], rest)
      else if c = comma then do
        let (items, rest) ← readItems readFloat fuel (skipWs rest)
        some (item :: items, rest)
      else none

def readFields (readFloat : List Char → FloatVal) : ℕ → List Char → Option (List (String × Json) × List Char)
  | 0, _ => none
  | _ + 1, [] => none
  | fuel + 1, c :: rest =>
    if c ≠ quote then none
    else do
      let (key, rest) ← readString (rest.length + 1) rest
      match skipWs rest with
      | [] => none
      | c :: rest =>
        if c ≠ colon then none
        else do
          let (value, rest) ← readValue readFloat fuel (skipWs rest)
          match skipWs rest with
          | [] => none
          | c :: rest =>
            if c = rbrace then some ([(String.ofList key, value)], rest)
            else if c = comma then do
              let (fields, rest) ← readFields readFloat fuel (skipWs rest)
              some ((String.ofList key, value) :: fields, rest)
            else none

end

def loads (readFloat : List Char → FloatVal) (s : List Char) : Option Json :=
  match readValue readFloat (s.length + 1) (skipWs s) with
  | some (v, rest) => if skipWs rest = [] then some v else none
  | none => none

/-! ## The round trip of texts -/

section Strings

variable {c : Char} {rest : List Char}

theorem hexVal_hexDigit : ∀ d < 16, hexVal (hexDigit d) = some d := by decide

theorem readHex4_hex4 {n : ℕ} (h : n < 65536) (rest : List Char) : readHex4 (hex4 n ++ rest) = some (n, rest) := by
  have hdigit : ∀ m, hexVal (hexDigit (m % 16)) = some (m % 16) :=
    fun m => hexVal_hexDigit _ (Nat.mod_lt m (by decide))
  show (do
    let w ← hexVal (hexDigit (n / 4096 % 16))
    let x ← hexVal (hexDigit (n / 256 % 16))
    let y ← hexVal (hexDigit (n / 16 % 16))
    let z ← hexVal (hexDigit (n % 16))
    some (w * 4096 + x * 256 + y * 16 + z, rest)) = some (n, rest)
  simp only [hdigit, Option.bind_eq_bind, Option.bind_some]
  have hsum : n / 4096 % 16 * 4096 + n / 256 % 16 * 256 + n / 16 % 16 * 16 + n % 16 = n := by omega
  rw [hsum]

theorem readEscape_unicode {n : ℕ} (h : n < 65536) (hlow : n < 55296 ∨ 57343 < n) (rest : List Char) :
    readEscape ('u' :: hex4 n ++ rest) = some (Char.ofNat n, rest) := by
  rw [cons_append, readEscape, if_pos rfl, readHex4_hex4 h]
  simp only [Option.bind_eq_bind, Option.bind_some]
  rw [if_neg (by omega), if_neg (by omega)]

theorem readLowSurrogate_unicode {high low : ℕ} (h : 56320 ≤ low) (h' : low ≤ 57343) (rest : List Char) :
    readLowSurrogate high (unicodeEscape low ++ rest) =
      some (Char.ofNat (65536 + (high - 55296) * 1024 + (low - 56320)), rest) := by
  have hlow : low < 65536 := lt_of_le_of_lt h' (by decide)
  have hsplit : unicodeEscape low ++ rest = backslash :: 'u' :: (hex4 low ++ rest) := rfl
  rw [hsplit, readLowSurrogate, if_pos ⟨rfl, rfl⟩, readHex4_hex4 hlow]
  simp only [Option.bind_eq_bind, Option.bind_some]
  rw [if_pos ⟨h, h'⟩]

theorem readEscape_pair {n : ℕ} (hn : 65536 ≤ n) (hmax : n < 1114112) (rest : List Char) :
    readEscape ('u' :: hex4 (55296 + (n - 65536) / 1024) ++
      (unicodeEscape (56320 + (n - 65536) % 1024) ++ rest)) = some (Char.ofNat n, rest) := by
  obtain ⟨q, hq⟩ : ∃ q, q = (n - 65536) / 1024 := ⟨_, rfl⟩
  obtain ⟨r, hr⟩ : ∃ r, r = (n - 65536) % 1024 := ⟨_, rfl⟩
  have hbounds : q < 1024 ∧ r < 1024 ∧ n = 65536 + q * 1024 + r := by omega
  obtain ⟨hq', hr', hvalue⟩ := hbounds
  rw [← hq, ← hr, cons_append, readEscape, if_pos rfl, readHex4_hex4 (by omega)]
  simp only [Option.bind_eq_bind, Option.bind_some]
  rw [if_pos (by omega), readLowSurrogate_unicode (by omega) (by omega), Nat.add_sub_cancel_left,
    Nat.add_sub_cancel_left, ← hvalue]

theorem escapeChar_cases (c : Char) :
    (escapeChar c = [c] ∧ c ≠ quote ∧ c ≠ backslash ∧ 32 ≤ c.toNat ∧ c.toNat ≤ 126) ∨
      ∃ e, escapeChar c = backslash :: e ∧ ∀ rest, readEscape (e ++ rest) = some (c, rest) := by
  cases hshort : shortEscape c with
  | some letter =>
    refine Or.inr ⟨[letter], by simp [escapeChar, hshort], fun rest => ?_⟩
    have hback : letter ≠ 'u' ∧ unescapeChar letter = some c := by
      unfold shortEscape at hshort
      have hchar : ∀ n, c.toNat = n → Char.ofNat n = c := fun n h => h ▸ Char.ofNat_toNat c
      split at hshort
      · next h =>
        obtain rfl := Option.some.inj hshort
        rcases h with rfl | rfl <;> decide
      · split at hshort
        · next h => obtain rfl := Option.some.inj hshort; rw [← hchar _ h]; decide
        · split at hshort
          · next h => obtain rfl := Option.some.inj hshort; rw [← hchar _ h]; decide
          · split at hshort
            · next h => obtain rfl := Option.some.inj hshort; rw [← hchar _ h]; decide
            · split at hshort
              · next h => obtain rfl := Option.some.inj hshort; rw [← hchar _ h]; decide
              · split at hshort
                · next h => obtain rfl := Option.some.inj hshort; rw [← hchar _ h]; decide
                · cases hshort
    rw [singleton_append, readEscape, if_neg hback.1, hback.2]; rfl
  | none =>
    have hnot : c ≠ quote ∧ c ≠ backslash := by
      constructor <;> rintro rfl <;> revert hshort <;> decide
    by_cases hplain : 32 ≤ c.toNat ∧ c.toNat ≤ 126
    · exact Or.inl ⟨by simp [escapeChar, hshort, hplain], hnot.1, hnot.2, hplain.1, hplain.2⟩
    · refine Or.inr ?_
      by_cases hsmall : c.toNat < 65536
      · refine ⟨'u' :: hex4 c.toNat, by simp [escapeChar, hshort, hplain, hsmall, unicodeEscape], ?_⟩
        intro rest
        have hvalid : c.toNat < 55296 ∨ 57343 < c.toNat := by
          rcases c.valid with h | h
          · exact Or.inl h
          · exact Or.inr h.1
        rw [readEscape_unicode hsmall hvalid, Char.ofNat_toNat]
      · refine ⟨'u' :: hex4 (55296 + (c.toNat - 65536) / 1024) ++
          unicodeEscape (56320 + (c.toNat - 65536) % 1024), ?_, fun rest => ?_⟩
        · simp [escapeChar, hshort, hplain, hsmall, unicodeEscape]
        · have hmax : c.toNat < 1114112 := by
            rcases c.valid with h | h
            · exact lt_trans h (by decide)
            · exact h.2
          rw [append_assoc, readEscape_pair (not_lt.mp hsmall) hmax, Char.ofNat_toNat]

theorem readString_escaped (s : List Char) (rest : List Char) :
    ∀ fuel, s.length < fuel → readString fuel (escaped s ++ quote :: rest) = some (s, rest) := by
  induction s with
  | nil =>
    intro fuel hfuel
    obtain ⟨fuel, rfl⟩ := Nat.exists_eq_succ_of_ne_zero (Nat.ne_of_gt hfuel)
    show (if quote = quote then _ else _) = _
    rw [if_pos rfl]
  | cons c s ih =>
    intro fuel hfuel
    obtain ⟨fuel, rfl⟩ := Nat.exists_eq_succ_of_ne_zero (Nat.ne_of_gt (Nat.zero_lt_of_lt hfuel))
    have hlen : s.length < fuel := Nat.lt_of_succ_lt_succ hfuel
    have hsplit : escaped (c :: s) ++ quote :: rest = escapeChar c ++ (escaped s ++ quote :: rest) := by
      simp [escaped]
    rw [hsplit]
    rcases escapeChar_cases c with ⟨hself, hquote, hback, hprintable, -⟩ | ⟨e, he, hread⟩
    · rw [hself, singleton_append, readString, if_neg hquote, if_neg hback,
        if_neg (not_lt.mpr hprintable), ih fuel hlen]
      rfl
    · rw [he, cons_append, readString, hread]
      simp only [Option.bind_eq_bind, Option.bind_some]
      rw [ih fuel hlen]; rfl

theorem escaped_length (s : List Char) : s.length ≤ (escaped s).length := by
  induction s with
  | nil => exact Nat.le_refl 0
  | cons c s ih =>
    have hpos : 0 < (escapeChar c).length := by
      rcases escapeChar_cases c with ⟨h, -⟩ | ⟨e, h, -⟩ <;> simp [h]
    have hlen : (escaped (c :: s)).length = (escapeChar c).length + (escaped s).length := by
      simp [escaped]
    rw [length_cons]; omega

end Strings

/-! ## The round trip of integers -/

section Numbers

def Delimits (rest : List Char) : Prop :=
  ∀ c, rest.head? = some c → c.isDigit = false ∧ c ≠ '.' ∧ c ≠ 'e' ∧ c ≠ 'E'

theorem delimits_nil : Delimits [] := nofun

theorem delimits_cons {c : Char} (h : c.isDigit = false ∧ c ≠ '.' ∧ c ≠ 'e' ∧ c ≠ 'E') (rest : List Char) :
    Delimits (c :: rest) := by
  intro c' hc'
  obtain rfl := Option.some.inj hc'; exact h

theorem head_toDigits_ne_zero (m : ℕ) (h : 0 < m) : (Nat.toDigits 10 m).head? ≠ some '0' := by
  induction m using Nat.strongRecOn with
  | ind m ih =>
    by_cases hsmall : m < 10
    · have hdigit : ∀ m < 10, 0 < m → [Nat.digitChar m].head? ≠ some '0' := by decide
      rw [Nat.toDigits_of_lt_base hsmall]; exact hdigit m hsmall h
    · rw [Nat.toDigits_of_base_le (by decide) (not_lt.mp hsmall), head?_append]
      have hrec := ih (m / 10) (Nat.div_lt_self h (by decide)) (Nat.div_pos (not_lt.mp hsmall) (by decide))
      cases hhead : (Nat.toDigits 10 (m / 10)).head? with
      | none => exact absurd (head?_eq_none_iff.mp hhead) Nat.toDigits_ne_nil
      | some c =>
        rw [hhead] at hrec; exact hrec

theorem readDigits_append {digits rest : List Char} (hdigits : ∀ c ∈ digits, c.isDigit = true)
    (hrest : ∀ c, rest.head? = some c → c.isDigit = false) : readDigits (digits ++ rest) = (digits, rest) := by
  have hstop : rest.takeWhile Char.isDigit = [] ∧ rest.dropWhile Char.isDigit = rest := by
    cases rest with
    | nil => exact ⟨rfl, rfl⟩
    | cons c rest => simp [hrest c rfl]
  rw [readDigits, takeWhile_append_of_pos hdigits, dropWhile_append_of_pos hdigits, hstop.1, hstop.2, append_nil]

variable {rest : List Char}

theorem readFraction_of_delimits (h : Delimits rest) : readFraction rest = ([], rest) := by
  unfold readFraction
  split
  · exact absurd rfl (h '.' rfl).2.1
  · rfl

theorem readExponent_of_delimits (h : Delimits rest) : readExponent rest = ([], rest) := by
  cases rest with
  | nil => rfl
  | cons c rest =>
    obtain ⟨-, -, he, hE⟩ := h c rfl; simp [readExponent, he, hE]

theorem readNumeral (m : ℕ) (h : ∀ c, rest.head? = some c → c.isDigit = false) :
    ∃ d more, Nat.toDigits 10 m ++ rest = d :: more ∧ d.isDigit = true ∧
      (if d = '0' then (['0'], more) else readDigits (d :: more)) = (Nat.toDigits 10 m, rest) := by
  cases hdigits : Nat.toDigits 10 m with
  | nil => exact absurd hdigits Nat.toDigits_ne_nil
  | cons d ds =>
    have hmem : ∀ c ∈ d :: ds, c.isDigit = true := fun c hc => isDigit_of_mem_numeral (hdigits ▸ hc)
    refine ⟨d, ds ++ rest, rfl, hmem d mem_cons_self, ?_⟩
    by_cases hzero : d = '0'
    · have hm : m = 0 := by
        by_contra hne
        have := head_toDigits_ne_zero m (Nat.pos_of_ne_zero hne)
        rw [hdigits, hzero] at this; exact this rfl
      rw [hm] at hdigits
      obtain ⟨-, hnil⟩ := List.cons.inj hdigits
      rw [if_pos hzero, hzero, ← hnil, nil_append]
    · rw [if_neg hzero]; exact readDigits_append hmem h

theorem readNumber_intDigits (readFloat : List Char → FloatVal) (n : ℤ) (h : Delimits rest) :
    readNumber readFloat (intDigits n ++ rest) = some (.int n, rest) := by
  cases n with
  | ofNat m =>
    obtain ⟨d, more, hsplit, hd, hread⟩ := readNumeral m fun c hc => (h c hc).1
    have hsign : d ≠ '-' := by
      rintro rfl
      revert hd
      decide
    show readNumber readFloat (Nat.toDigits 10 m ++ rest) = _
    rw [hsplit]
    unfold readNumber
    have hnot : (match d :: more with
        | '-' :: rest => (true, rest)
        | _ => (false, d :: more)) = (false, d :: more) := by
      split
      · next heq => exact absurd (List.cons.inj heq).1 hsign
      · rfl
    rw [hnot]
    simp only [hd, not_true_eq_false, if_false, hread, readFraction_of_delimits h, readExponent_of_delimits h,
      Nat.ofDigitChars_ten_toDigits]
    simp
  | negSucc m =>
    obtain ⟨d, more, hsplit, hd, hread⟩ := readNumeral (m + 1) fun c hc => (h c hc).1
    show readNumber readFloat ('-' :: (Nat.toDigits 10 (m + 1) ++ rest)) = _
    rw [hsplit]
    unfold readNumber
    simp only [hd, not_true_eq_false, if_false, hread, readFraction_of_delimits h, readExponent_of_delimits h,
      Nat.ofDigitChars_ten_toDigits]
    simp [Int.negSucc_eq]

def Numeral (s : List Char) : Prop :=
  ∃ (negative : Bool) (m : ℕ) (fraction exponent : List Char),
    s = (if negative then ['-'] else []) ++ (Nat.toDigits 10 m ++ (fraction ++ exponent)) ∧
    (fraction = [] ∨ ∃ digits, fraction = '.' :: digits ∧ digits ≠ [] ∧ ∀ c ∈ digits, c.isDigit = true) ∧
    (exponent = [] ∨ ∃ e sign digits, exponent = e :: (sign ++ digits) ∧ (e = 'e' ∨ e = 'E') ∧
      (sign = [] ∨ sign = ['+'] ∨ sign = ['-']) ∧ digits ≠ [] ∧ ∀ c ∈ digits, c.isDigit = true) ∧
    (fraction ≠ [] ∨ exponent ≠ [])

theorem Numeral.mem {s : List Char} (h : Numeral s) {c : Char} (hc : c ∈ s) :
    c.isDigit = true ∨ c = '-' ∨ c = '+' ∨ c = '.' ∨ c = 'e' ∨ c = 'E' := by
  obtain ⟨negative, m, fraction, exponent, rfl, hfraction, hexponent, -⟩ := h
  rcases mem_append.mp hc with hc | hc
  · cases negative with
    | true => exact .inr (.inl (mem_singleton.mp hc))
    | false => cases hc
  rcases mem_append.mp hc with hc | hc
  · exact .inl (isDigit_of_mem_numeral hc)
  rcases mem_append.mp hc with hc | hc
  · rcases hfraction with rfl | ⟨digits, rfl, -, hdigits⟩
    · cases hc
    · rcases mem_cons.mp hc with rfl | hc
      · simp
      · exact .inl (hdigits c hc)
  · rcases hexponent with rfl | ⟨e, sign, digits, rfl, he, hsign, -, hdigits⟩
    · cases hc
    · rcases mem_cons.mp hc with rfl | hc
      · rcases he with rfl | rfl <;> simp
      · rcases mem_append.mp hc with hc | hc
        · rcases hsign with rfl | rfl | rfl
          · cases hc
          all_goals simp [mem_singleton.mp hc]
        · exact .inl (hdigits c hc)

theorem Numeral.head {s : List Char} (h : Numeral s) :
    ∃ d t, d.isDigit = true ∧ (s = d :: t ∨ s = '-' :: d :: t) := by
  obtain ⟨negative, m, fraction, exponent, rfl, -⟩ := h
  cases hdigits : Nat.toDigits 10 m with
  | nil => exact absurd hdigits Nat.toDigits_ne_nil
  | cons d ds =>
    refine ⟨d, ds ++ (fraction ++ exponent), isDigit_of_mem_numeral (hdigits ▸ mem_cons_self), ?_⟩
    cases negative with
    | true => exact .inr rfl
    | false => exact .inl rfl

theorem readFraction_append {fraction rest : List Char}
    (h : fraction = [] ∨ ∃ digits, fraction = '.' :: digits ∧ digits ≠ [] ∧ ∀ c ∈ digits, c.isDigit = true)
    (hrest : ∀ c, rest.head? = some c → c.isDigit = false ∧ c ≠ '.') :
    readFraction (fraction ++ rest) = (fraction, rest) := by
  rcases h with rfl | ⟨digits, rfl, hne, hdigits⟩
  · rw [nil_append]
    unfold readFraction
    split
    · exact absurd rfl (hrest '.' rfl).2
    · rfl
  · obtain ⟨d, ds, rfl⟩ := exists_cons_of_ne_nil hne
    have hread : readDigits (d :: (ds ++ rest)) = (d :: ds, rest) :=
      readDigits_append hdigits fun c hc => (hrest c hc).1
    show readFraction ('.' :: d :: (ds ++ rest)) = _
    rw [readFraction, if_pos (hdigits d mem_cons_self), hread]

theorem readExponent_append {exponent rest : List Char}
    (h : exponent = [] ∨ ∃ e sign digits, exponent = e :: (sign ++ digits) ∧ (e = 'e' ∨ e = 'E') ∧
      (sign = [] ∨ sign = ['+'] ∨ sign = ['-']) ∧ digits ≠ [] ∧ ∀ c ∈ digits, c.isDigit = true)
    (hrest : Delimits rest) : readExponent (exponent ++ rest) = (exponent, rest) := by
  rcases h with rfl | ⟨e, sign, digits, rfl, he, hsign, hne, hdigits⟩
  · exact readExponent_of_delimits hrest
  · have hread : readDigits (digits ++ rest) = (digits, rest) :=
      readDigits_append hdigits fun c hc => (hrest c hc).1
    have hsigned : readSign (sign ++ (digits ++ rest)) = (sign, digits ++ rest) := by
      rcases hsign with rfl | rfl | rfl
      · obtain ⟨d, ds, rfl⟩ := exists_cons_of_ne_nil hne
        have hd : d.isDigit = true := hdigits d mem_cons_self
        unfold readSign
        split
        · next heq =>
          rw [(List.cons.inj heq).1] at hd; exact absurd hd (by decide)
        · next heq =>
          rw [(List.cons.inj heq).1] at hd; exact absurd hd (by decide)
        · rfl
      · rfl
      · rfl
    rw [cons_append, append_assoc, readExponent, hsigned, hread, if_pos ⟨he, hne⟩]; rfl

theorem readNumber_numeral (readFloat : List Char → FloatVal) {s rest : List Char} (h : Numeral s)
    (hrest : Delimits rest) : readNumber readFloat (s ++ rest) = some (.float (readFloat s), rest) := by
  obtain ⟨negative, m, fraction, exponent, rfl, hfraction, hexponent, hne⟩ := h
  have hstart : ∀ c, (exponent ++ rest).head? = some c → c.isDigit = false ∧ c ≠ '.' := by
    intro c hc
    rcases hexponent with rfl | ⟨e, sign, digits, rfl, he, -⟩
    · exact ⟨(hrest c hc).1, (hrest c hc).2.1⟩
    · obtain rfl := Option.some.inj hc
      rcases he with rfl | rfl <;> decide
  have hrf := readFraction_append hfraction hstart
  have hre := readExponent_append hexponent hrest
  have hempty : ¬ (fraction = [] ∧ exponent = []) := fun h => hne.elim (fun hf => hf h.1) fun he => he h.2
  have hdigit : ∀ c, (fraction ++ (exponent ++ rest)).head? = some c → c.isDigit = false := by
    intro c hc
    rcases hfraction with rfl | ⟨digits, rfl, -⟩
    · exact (hstart c hc).1
    · obtain rfl := Option.some.inj hc; decide
  obtain ⟨d, more, hsplit, hd, hread⟩ := readNumeral m hdigit
  have hsign : d ≠ '-' := by
    rintro rfl; exact absurd hd (by decide)
  have happend : (if negative then ['-'] else []) ++ (Nat.toDigits 10 m ++ (fraction ++ exponent)) ++ rest =
      (if negative then ['-'] else []) ++ d :: more := by
    rw [← hsplit]; simp
  rw [happend]
  cases negative with
  | true =>
    show readNumber readFloat ('-' :: d :: more) = _
    unfold readNumber; simp only [hd, not_true_eq_false, if_false, hread, hrf, hre, hempty]; simp
  | false =>
    show readNumber readFloat (d :: more) = _
    unfold readNumber
    have hnot : (match d :: more with
        | '-' :: rest => (true, rest)
        | _ => (false, d :: more)) = (false, d :: more) := by
      split
      · next heq => exact absurd (List.cons.inj heq).1 hsign
      · rfl
    rw [hnot]; simp only [hd, not_true_eq_false, if_false, hread, hrf, hre, hempty]; simp

end Numbers

/-! ## The round trip of values -/

mutual

def Plain : Json → Prop
  | .null => True
  | .bool _ => True
  | .int _ => True
  | .float _ => False
  | .str _ => True
  | .arr items => PlainItems items
  | .obj fields => PlainFields fields ∧ (fields.map Prod.fst).Nodup

def PlainItems : List Json → Prop
  | [] => True
  | item :: rest => Plain item ∧ PlainItems rest

def PlainFields : List (String × Json) → Prop
  | [] => True
  | (_, value) :: rest => Plain value ∧ PlainFields rest

end

section Written

variable (floatText : FloatVal → List Char) (readFloat : List Char → FloatVal)

mutual

/-- A value whose floats have numerals that read back and whose objects have distinct keys. -/
def Written : Json → Prop
  | .null => True
  | .bool _ => True
  | .int _ => True
  | .float x => Numeral (floatText x) ∧ readFloat (floatText x) = x
  | .str _ => True
  | .arr items => WrittenItems items
  | .obj fields => WrittenFields fields ∧ (fields.map Prod.fst).Nodup

def WrittenItems : List Json → Prop
  | [] => True
  | item :: rest => Written item ∧ WrittenItems rest

def WrittenFields : List (String × Json) → Prop
  | [] => True
  | (_, value) :: rest => Written value ∧ WrittenFields rest

end

mutual

theorem Plain.written : ∀ {v : Json}, Plain v → Written floatText readFloat v
  | .null, _ | .bool _, _ | .int _, _ | .str _, _ => trivial
  | .float _, h => h.elim
  | .arr _, h => PlainItems.written h
  | .obj _, h => ⟨PlainFields.written h.1, h.2⟩

theorem PlainItems.written : ∀ {items : List Json}, PlainItems items → WrittenItems floatText readFloat items
  | [], _ => trivial
  | _ :: _, h => ⟨Plain.written h.1, PlainItems.written h.2⟩

theorem PlainFields.written : ∀ {fields : List (String × Json)}, PlainFields fields →
    WrittenFields floatText readFloat fields
  | [], _ => trivial
  | (_, _) :: _, h => ⟨Plain.written h.1, PlainFields.written h.2⟩

end

end Written

section Values

variable {floatText : FloatVal → List Char} {readFloat : List Char → FloatVal}

variable (s : String) (n : ℤ)

theorem length_intDigits_pos : 1 ≤ (intDigits n).length := by
  cases n with
  | ofNat m => exact length_pos_iff.mpr Nat.toDigits_ne_nil
  | negSucc m => simp [intDigits]

variable {c : Char}

theorem isDigit_not_ws (h : c.isDigit = true) : isWs c = false := by
  simp only [Char.isDigit, Bool.and_eq_true, decide_eq_true_eq] at h
  have hge : 48 ≤ c.toNat := by simpa [UInt32.le_iff_toNat_le] using h.1
  simp only [isWs, Bool.or_eq_false_iff, decide_eq_false_iff_not]; omega

theorem dumps_head : ∀ v : Json, Written floatText readFloat v →
    ∃ c t, dumps floatText v = c :: t ∧ isWs c = false ∧ c ≠ rbracket
  | .null, _ => ⟨'n', _, rfl, by decide⟩
  | .bool true, _ => ⟨'t', _, rfl, by decide⟩
  | .bool false, _ => ⟨'f', _, rfl, by decide⟩
  | .int (.ofNat m), _ => by
    obtain ⟨d, more, hsplit, hd, -⟩ := @readNumeral [] m nofun
    refine ⟨d, more, by simpa [dumps, intDigits] using hsplit, isDigit_not_ws hd, ?_⟩
    rintro rfl
    revert hd
    decide
  | .int (.negSucc m), _ => ⟨'-', _, rfl, by decide⟩
  | .float _, h => by
    obtain ⟨d, t, hd, heq | heq⟩ := h.1.head
    · refine ⟨d, t, heq, isDigit_not_ws hd, ?_⟩
      rintro rfl; exact absurd hd (by decide)
    · exact ⟨'-', d :: t, heq, by decide⟩
  | .str s, _ => ⟨quote, _, rfl, by decide⟩
  | .arr [], _ | .arr (_ :: _), _ => ⟨lbracket, _, rfl, by decide⟩
  | .obj [], _ | .obj ((_, _) :: _), _ => ⟨lbrace, _, rfl, by decide⟩

theorem skipWs_cons (h : isWs c = false) (t : List Char) : skipWs (c :: t) = c :: t := by
  simp [skipWs, h]

theorem skipWs_space (t : List Char) : skipWs (space :: t) = skipWs t := by
  have h : isWs space = true := by decide
  simp [skipWs, h]

variable {v : Json}

theorem skipWs_dumps (h : Written floatText readFloat v) (t : List Char) :
    skipWs (dumps floatText v ++ t) = dumps floatText v ++ t := by
  obtain ⟨c, u, hv, hc, -⟩ : ∃ c t, dumps floatText v = c :: t ∧ isWs c = false ∧ c ≠ rbracket := dumps_head v h
  rw [hv, cons_append, skipWs_cons hc]

theorem stripLiteral_of_ne {w c : Char} (h : w ≠ c) (ws t : List Char) : stripLiteral (w :: ws)
    (c :: t) = none := by
  simp [stripLiteral, isPrefixOf, h]

theorem readLiteral_digit {d : Char} (hd : d.isDigit = true) (t : List Char) :
    readLiteral readFloat (d :: t) = none := by
  have hne : ∀ w : Char, w.isDigit = false → w ≠ d := by
    rintro w hw rfl
    rw [hd] at hw; cases hw
  simp [readLiteral, literal, stripLiteral_of_ne (hne _ _)]

theorem readLiteral_sign {d : Char} (hd : d.isDigit = true) (t : List Char) :
    readLiteral readFloat ('-' :: d :: t) = none := by
  have hne : 'I' ≠ d := by
    rintro rfl; exact absurd hd (by decide)
  simp [readLiteral, literal, stripLiteral, isPrefixOf, hne]

theorem readLiteral_intDigits (t : List Char) : readLiteral readFloat (intDigits n ++ t) = none := by
  cases n with
  | ofNat m =>
    cases hdigits : Nat.toDigits 10 m with
    | nil => exact absurd hdigits Nat.toDigits_ne_nil
    | cons d ds =>
      show readLiteral readFloat (Nat.toDigits 10 m ++ t) = none
      rw [hdigits]; exact readLiteral_digit (isDigit_of_mem_numeral (hdigits ▸ mem_cons_self)) _
  | negSucc m =>
    cases hdigits : Nat.toDigits 10 (m + 1) with
    | nil => exact absurd hdigits Nat.toDigits_ne_nil
    | cons d ds =>
      show readLiteral readFloat ('-' :: (Nat.toDigits 10 (m + 1) ++ t)) = none
      rw [hdigits]; exact readLiteral_sign (isDigit_of_mem_numeral (hdigits ▸ mem_cons_self)) _

theorem foldl_insertField {fields acc : List (String × Json)} (h : ((acc ++ fields).map Prod.fst).Nodup) :
    fields.foldl insertField acc = acc ++ fields := by
  induction fields generalizing acc with
  | nil => simp
  | cons e rest ih =>
    have hnew : (acc.any fun f => f.1 = e.1) = false := by
      rw [any_eq_false]
      intro f hf heq
      rw [map_append, nodup_append] at h
      exact h.2.2 f.1 (mem_map_of_mem hf) e.1 mem_cons_self (of_decide_eq_true heq)
    rw [foldl_cons, insertField, if_neg (by rw [hnew]; exact Bool.false_ne_true), ih (by simpa using h)]
    simp

theorem readString_quoted (rest : List Char) (fuel : ℕ)
    (hfuel : (escaped s.toList ++ quote :: rest).length < fuel) :
    readString fuel (escaped s.toList ++ quote :: rest) = some (s.toList, rest) := by
  refine readString_escaped _ _ _ ?_
  have hlen := escaped_length s.toList
  rw [length_append] at hfuel; omega

theorem readValue_str (rest : List Char) (fuel : ℕ) :
    readValue readFloat (fuel + 1) (quoted s ++ rest) = some (.str s, rest) := by
  have hsplit : quoted s ++ rest = quote :: (escaped s.toList ++ quote :: rest) := by simp [quoted]
  rw [hsplit, readValue, readString_quoted s rest _ (Nat.lt_succ_self _)]; simp

theorem readValue_other {t : List Char} (fuel : ℕ) (h : c ≠ quote ∧ c ≠ lbrace ∧ c ≠ lbracket) :
    readValue readFloat (fuel + 1) (c :: t) =
      (readLiteral readFloat (c :: t)).orElse fun _ => readNumber readFloat (c :: t) := by
  rw [readValue, if_neg h.1, if_neg h.2.1, if_neg h.2.2]

theorem readValue_int {rest : List Char} (hrest : Delimits rest) (fuel : ℕ) :
    readValue readFloat (fuel + 1) (intDigits n ++ rest) = some (.int n, rest) := by
  have hhead : ∃ c t, intDigits n ++ rest = c :: t ∧ c ≠ quote ∧ c ≠ lbrace ∧ c ≠ lbracket := by
    cases hdigits : intDigits n with
    | nil => exact absurd (length_intDigits_pos n) (by simp [hdigits])
    | cons c t =>
      have hmem : c ∈ intDigits n := hdigits ▸ mem_cons_self
      have hne : ∀ x : Char, x.isDigit = false → x ≠ '-' → c ≠ x := by
        rintro x hx hx' rfl; exact notMem_intDigits hx hx' n hmem
      exact ⟨c, t ++ rest, rfl, hne _ (by decide) (by decide), hne _ (by decide) (by decide),
        hne _ (by decide) (by decide)⟩
  obtain ⟨c, t, hsplit, hc⟩ := hhead
  have hlit : readLiteral readFloat (intDigits n ++ rest) = none := readLiteral_intDigits n rest
  have hnum := readNumber_intDigits readFloat n hrest
  rw [hsplit] at hlit hnum ⊢
  rw [readValue_other fuel hc, hlit, hnum]; rfl

theorem readValue_numeral {s rest : List Char} (h : Numeral s) (hrest : Delimits rest) (fuel : ℕ) :
    readValue readFloat (fuel + 1) (s ++ rest) = some (.float (readFloat s), rest) := by
  have hnum := readNumber_numeral readFloat h hrest
  have hdigit : ∀ {d : Char}, d.isDigit = true → d ≠ quote ∧ d ≠ lbrace ∧ d ≠ lbracket := by
    intro d hd
    refine ⟨?_, ?_, ?_⟩ <;> (rintro rfl; exact absurd hd (by decide))
  obtain ⟨d, t, hd, rfl | rfl⟩ := h.head
  · rw [cons_append] at hnum ⊢
    rw [readValue_other fuel (hdigit hd), readLiteral_digit hd, hnum]; rfl
  · rw [cons_append, cons_append] at hnum ⊢
    rw [readValue_other fuel (by decide), readLiteral_sign hd, hnum]; rfl

theorem readValue_literal {rest : List Char} (fuel : ℕ) (h : v = .null ∨ ∃ b, v = .bool b) :
    readValue readFloat (fuel + 1) (dumps floatText v ++ rest) = some (v, rest) := by
  rcases h with rfl | ⟨b, rfl⟩
  · show readValue readFloat (fuel + 1) ('n' :: (['u', 'l', 'l'] ++ rest)) = _
    rw [readValue_other fuel (by decide)]; simp [readLiteral, stripLiteral, isPrefixOf]
  · cases b with
    | true =>
      show readValue readFloat (fuel + 1) ('t' :: (['r', 'u', 'e'] ++ rest)) = _
      rw [readValue_other fuel (by decide)]; simp [readLiteral, literal, stripLiteral, isPrefixOf]
    | false =>
      show readValue readFloat (fuel + 1) ('f' :: (['a', 'l', 's', 'e'] ++ rest)) = _
      rw [readValue_other fuel (by decide)]; simp [readLiteral, literal, stripLiteral, isPrefixOf]

/-! ### Written values are printable ASCII -/

theorem forall_of_all {P : Char → Prop} [DecidablePred P] {s : List Char}
    (h : s.all (fun c => decide (P c)) = true) :
    ∀ c ∈ s, P c :=
  fun c hc => of_decide_eq_true (all_eq_true.mp h c hc)

def Printable (c : Char) : Prop := 32 ≤ c.toNat ∧ c.toNat ≤ 126

instance (c : Char) : Decidable (Printable c) := inferInstanceAs (Decidable (32 ≤ c.toNat ∧ c.toNat ≤ 126))

theorem printable_unicodeEscape (n : ℕ) : ∀ c ∈ unicodeEscape n, Printable c := by
  have hdigit : ∀ d < 16, Printable (hexDigit d) := by decide
  have hhex : ∀ m, Printable (hexDigit (m % 16)) := fun m => hdigit _ (Nat.mod_lt m (by decide))
  intro c hc
  simp only [unicodeEscape, hex4, mem_cons, not_mem_nil, or_false] at hc
  rcases hc with rfl | rfl | rfl | rfl | rfl | rfl
  · decide
  · decide
  all_goals exact hhex _

theorem printable_escapeChar (c : Char) : ∀ x ∈ escapeChar c, Printable x := by
  intro x hx
  unfold escapeChar at hx
  split at hx
  · next letter hshort =>
    have hletter : Printable letter := by
      unfold shortEscape at hshort
      split at hshort
      · next h =>
        obtain rfl := Option.some.inj hshort
        rcases h with rfl | rfl <;> decide
      · split at hshort
        · obtain rfl := Option.some.inj hshort; decide
        · split at hshort
          · obtain rfl := Option.some.inj hshort; decide
          · split at hshort
            · obtain rfl := Option.some.inj hshort; decide
            · split at hshort
              · obtain rfl := Option.some.inj hshort; decide
              · split at hshort
                · obtain rfl := Option.some.inj hshort; decide
                · cases hshort
    simp only [mem_cons, not_mem_nil, or_false] at hx
    rcases hx with rfl | rfl
    · decide
    · exact hletter
  · split at hx
    · next h =>
      obtain rfl := mem_singleton.mp hx; exact h
    · split at hx
      · exact printable_unicodeEscape _ x hx
      · exact (mem_append.mp hx).elim (printable_unicodeEscape _ x) (printable_unicodeEscape _ x)

theorem printable_quoted : ∀ c ∈ quoted s, Printable c := by
  intro c hc
  simp only [quoted, escaped, mem_cons, mem_append, mem_flatMap, not_mem_nil, or_false] at hc
  rcases hc with rfl | ⟨x, -, hx⟩ | rfl
  · decide
  · exact printable_escapeChar x c hx
  · decide

theorem printable_digit (h : c.isDigit = true) : Printable c := by
  simp only [Char.isDigit, Bool.and_eq_true, decide_eq_true_eq] at h
  have hlow : 48 ≤ c.toNat := by simpa [UInt32.le_iff_toNat_le] using h.1
  have hhigh : c.toNat ≤ 57 := by simpa [UInt32.le_iff_toNat_le] using h.2
  exact ⟨by omega, by omega⟩

theorem printable_intDigits : ∀ c ∈ intDigits n, Printable c := by
  have hdigit : ∀ {m : ℕ}, ∀ c ∈ Nat.toDigits 10 m, Printable c :=
    fun c hc => printable_digit (isDigit_of_mem_numeral hc)
  cases n with
  | ofNat m => exact hdigit
  | negSucc m =>
    intro c hc
    rcases mem_cons.mp hc with rfl | hc
    · decide
    · exact hdigit c hc

theorem printable_cons {s : List Char} (hc : Printable c) (h : ∀ x ∈ s, Printable x) :
    ∀ x ∈ c :: s, Printable x := by
  intro x hx
  rcases mem_cons.mp hx with rfl | hx
  · exact hc
  · exact h x hx

theorem printable_append {s t : List Char} (hs : ∀ x ∈ s, Printable x) (ht : ∀ x ∈ t, Printable x) :
    ∀ x ∈ s ++ t, Printable x := fun x hx => (mem_append.mp hx).elim (hs x) (ht x)

mutual

theorem printable_dumps : ∀ v : Json, Written floatText readFloat v → ∀ c ∈ dumps floatText v, Printable c
  | .null, _ => by simp only [dumps]; exact forall_of_all (by decide)
  | .bool b, _ => by
    have h : ∀ b, ∀ c ∈ literal b, Printable c := fun b => forall_of_all (by cases b <;> decide)
    exact h b
  | .int n, _ => printable_intDigits n
  | .float _, h => fun c hc => by
    rcases h.1.mem hc with hc | rfl | rfl | rfl | rfl | rfl
    · exact printable_digit hc
    all_goals decide
  | .str s, _ => printable_quoted s
  | .arr [], _ => by simp only [dumps]; exact forall_of_all (by decide)
  | .arr (item :: items), h => by
    rw [dumps]
    exact printable_cons (by decide) (printable_append (printable_dumps item h.1)
      (printable_append (printable_itemsText items h.2) (forall_of_all (by decide))))
  | .obj [], _ => by simp only [dumps]; exact forall_of_all (by decide)
  | .obj ((key, value) :: fields), h => by
    rw [dumps]
    exact printable_cons (by decide) (printable_append
      (printable_append (printable_quoted key)
        (printable_cons (by decide) (printable_cons (by decide) (printable_dumps value h.1.1))))
      (printable_append (printable_fieldsText fields h.1.2) (forall_of_all (by decide))))

theorem printable_itemsText : ∀ items : List Json, WrittenItems floatText readFloat items →
    ∀ c ∈ itemsText floatText items, Printable c
  | [], _ => nofun
  | item :: items, h => by
    rw [itemsText]
    exact printable_cons (by decide) (printable_cons (by decide)
      (printable_append (printable_dumps item h.1) (printable_itemsText items h.2)))

theorem printable_fieldsText : ∀ fields : List (String × Json), WrittenFields floatText readFloat fields →
    ∀ c ∈ fieldsText floatText fields, Printable c
  | [], _ => nofun
  | (key, value) :: fields, h => by
    rw [fieldsText]
    exact printable_cons (by decide) (printable_cons (by decide) (printable_append
      (printable_append (printable_quoted key)
        (printable_cons (by decide) (printable_cons (by decide) (printable_dumps value h.1))))
      (printable_fieldsText fields h.2)))

end

/-! ### Reading back -/

theorem exists_fuel {n fuel : ℕ} (h : n < fuel) : ∃ f, fuel = f + 1 ∧ n ≤ f :=
  ⟨fuel - 1, by omega, by omega⟩

mutual

/-- **A written value reads back**, before anything that does not continue a number. -/
theorem readValue_dumps : ∀ (v : Json), Written floatText readFloat v → ∀ (fuel : ℕ) (rest : List Char),
    (dumps floatText v).length < fuel → Delimits rest →
      readValue readFloat fuel (dumps floatText v ++ rest) = some (v, rest)
  | .null, _, fuel, rest, hfuel, _ => by
    obtain ⟨fuel, rfl, -⟩ := exists_fuel hfuel
    exact readValue_literal fuel (Or.inl rfl)
  | .bool b, _, fuel, rest, hfuel, _ => by
    obtain ⟨fuel, rfl, -⟩ := exists_fuel hfuel
    exact readValue_literal fuel (Or.inr ⟨b, rfl⟩)
  | .int n, _, fuel, rest, hfuel, hrest => by
    obtain ⟨fuel, rfl, -⟩ := exists_fuel hfuel
    exact readValue_int n hrest fuel
  | .float x, h, fuel, rest, hfuel, hrest => by
    obtain ⟨fuel, rfl, -⟩ := exists_fuel hfuel
    show readValue readFloat (fuel + 1) (floatText x ++ rest) = _
    rw [readValue_numeral h.1 hrest, h.2]
  | .str s, _, fuel, rest, hfuel, _ => by
    obtain ⟨fuel, rfl, -⟩ := exists_fuel hfuel
    exact readValue_str s rest fuel
  | .arr [], _, fuel, rest, hfuel, _ => by
    obtain ⟨fuel, rfl, -⟩ := exists_fuel hfuel; rfl
  | .arr (item :: items), h, fuel, rest, hfuel, _ => by
    obtain ⟨fuel, rfl, hless⟩ := exists_fuel hfuel
    have hread := readItems_dumps item items h fuel rest (by simp [dumps] at hless; omega)
    have hsplit : dumps floatText (.arr (item :: items)) ++ rest =
        lbracket :: (dumps floatText item ++ (itemsText floatText items ++ rbracket :: rest)) := by
      simp [dumps]
    rw [hsplit, readValue, if_neg (by decide), if_neg (by decide), if_pos rfl, skipWs_dumps h.1]
    obtain ⟨c, t, hitem, -, hc⟩ : ∃ c t, dumps floatText item = c :: t ∧ isWs c = false ∧ c ≠ rbracket :=
      dumps_head item h.1
    rw [if_neg ?_, hread]
    · rfl
    · rw [hitem, cons_append, head?_cons]; exact fun h => hc (Option.some.inj h)
  | .obj [], _, fuel, rest, hfuel, _ => by
    obtain ⟨fuel, rfl, -⟩ := exists_fuel hfuel; rfl
  | .obj ((key, value) :: fields), h, fuel, rest, hfuel, _ => by
    obtain ⟨fuel, rfl, hless⟩ := exists_fuel hfuel
    have hread := readFields_dumps key value fields h.1 fuel rest (by simp [dumps] at hless; omega)
    have hsplit : dumps floatText (.obj ((key, value) :: fields)) ++ rest =
        lbrace :: (quoted key ++ (colon :: space :: dumps floatText value) ++
          (fieldsText floatText fields ++ rbrace :: rest)) := by
      simp [dumps]
    have hskip : skipWs (quoted key ++ (colon :: space :: dumps floatText value) ++
          (fieldsText floatText fields ++ rbrace :: rest)) =
        quoted key ++ (colon :: space :: dumps floatText value) ++
          (fieldsText floatText fields ++ rbrace :: rest) := by
      rw [quoted, cons_append, cons_append]; exact skipWs_cons (by decide) _
    rw [hsplit, readValue, if_neg (by decide), if_pos rfl, hskip, if_neg ?_, hread]
    · have hkept : ((key, value) :: fields).foldl insertField [] = (key, value) :: fields :=
        foldl_insertField (by simpa using h.2)
      simp only [Option.bind_eq_bind, Option.bind_some, hkept]
    · have hne : quote ≠ rbrace := by decide
      rw [quoted, cons_append, cons_append, head?_cons]; exact fun h => hne (Option.some.inj h)
termination_by v => sizeOf v

theorem readItems_dumps : ∀ (item : Json) (items : List Json), WrittenItems floatText readFloat (item :: items) →
    ∀ (fuel : ℕ) (rest : List Char), 
    (dumps floatText item).length + (itemsText floatText items).length + 1 < fuel →
    readItems readFloat fuel (dumps floatText item ++ (itemsText floatText items ++ rbracket :: rest)) =
      some (item :: items, rest)
  | item, [], h, fuel, rest, hfuel => by
    obtain ⟨fuel, rfl, hless⟩ := exists_fuel hfuel
    have hvalue := readValue_dumps item h.1 fuel (rbracket :: rest)
      (by omega) (delimits_cons (by decide) _)
    have hws : skipWs (rbracket :: rest) = rbracket :: rest := skipWs_cons (by decide) _
    rw [readItems]
    show (readValue readFloat fuel (dumps floatText item ++ (rbracket :: rest))).bind _ = _
    rw [hvalue]; simp [hws]
  | item, next :: items, h, fuel, rest, hfuel => by
    obtain ⟨fuel, rfl, hless⟩ := exists_fuel hfuel
    have hvalue := readValue_dumps item h.1 fuel
      (comma :: space :: (dumps floatText next ++ (itemsText floatText items ++ rbracket :: rest)))
      (by omega) (delimits_cons (by decide) _)
    have hrest := readItems_dumps next items h.2 fuel rest (by simp [itemsText] at hless; omega)
    have hws : ∀ t, skipWs (comma :: t) = comma :: t := skipWs_cons (by decide)
    have hne : comma ≠ rbracket := by decide
    rw [readItems]
    have hsplit : dumps floatText item ++ (itemsText floatText (next :: items) ++ rbracket :: rest) =
        dumps floatText item ++ (comma :: space ::
          (dumps floatText next ++ (itemsText floatText items ++ rbracket :: rest))) := by
      simp [itemsText]
    rw [hsplit, hvalue]; simp [hws, hne, skipWs_space, skipWs_dumps h.2.1, hrest]
termination_by item items => sizeOf (item :: items)

theorem readFields_dumps : ∀ (key : String) (value : Json) (fields : List (String × Json)),
    WrittenFields floatText readFloat ((key, value) :: fields) → ∀ (fuel : ℕ) (rest : List Char),
    (dumps floatText value).length + (fieldsText floatText fields).length + 1 < fuel →
    readFields readFloat fuel (quoted key ++ (colon :: space :: dumps floatText value) ++
      (fieldsText floatText fields ++ rbrace :: rest)) = some ((key, value) :: fields, rest)
  | key, value, [], h, fuel, rest, hfuel => by
    obtain ⟨fuel, rfl, hless⟩ := exists_fuel hfuel
    have hvalue := readValue_dumps value h.1 fuel (rbrace :: rest)
      (by omega) (delimits_cons (by decide) _)
    have hws : ∀ t, skipWs (rbrace :: t) = rbrace :: t := skipWs_cons (by decide)
    have hcolon : ∀ t, skipWs (colon :: t) = colon :: t := skipWs_cons (by decide)
    have hsplit : quoted key ++ (colon :: space :: dumps floatText value) ++
        (fieldsText floatText [] ++ rbrace :: rest) =
        quote :: (escaped key.toList ++ quote ::
          (colon :: space :: (dumps floatText value ++ rbrace :: rest))) := by
      simp [quoted, fieldsText]
    rw [hsplit, readFields, if_neg (by simp), readString_quoted key _ _ (Nat.lt_succ_self _)]
    simp [hws, hcolon, skipWs_space, skipWs_dumps h.1, hvalue]
  | key, value, (next, nextValue) :: fields, h, fuel, rest, hfuel => by
    obtain ⟨fuel, rfl, hless⟩ := exists_fuel hfuel
    have hvalue := readValue_dumps value h.1 fuel
      (comma :: space :: (quoted next ++ (colon :: space :: dumps floatText nextValue) ++
        (fieldsText floatText fields ++ rbrace :: rest))) (by omega) (delimits_cons (by decide) _)
    have hrest := readFields_dumps next nextValue fields h.2 fuel rest
      (by simp [fieldsText] at hless; omega)
    have hws : ∀ t, skipWs (comma :: t) = comma :: t := skipWs_cons (by decide)
    have hcolon : ∀ t, skipWs (colon :: t) = colon :: t := skipWs_cons (by decide)
    have hne : comma ≠ rbrace := by decide
    have hskip : ∀ t, skipWs (quoted next ++ t) = quoted next ++ t := by
      intro t
      rw [quoted, cons_append]; exact skipWs_cons (by decide) _
    have hsplit : quoted key ++ (colon :: space :: dumps floatText value) ++
        (fieldsText floatText ((next, nextValue) :: fields) ++ rbrace :: rest) =
        quote :: (escaped key.toList ++ quote :: (colon :: space :: (dumps floatText value ++
          (comma :: space :: (quoted next ++ (colon :: space :: dumps floatText nextValue) ++
            (fieldsText floatText fields ++ rbrace :: rest)))))) := by
      simp [quoted, fieldsText]
    rw [hsplit, readFields, if_neg (by simp), readString_quoted key _ _ (Nat.lt_succ_self _)]
    simp only [Option.bind_eq_bind, Option.bind_some, hcolon, ne_eq, not_true_eq_false, if_false, skipWs_space,
      skipWs_dumps h.1, hvalue, hws, if_neg hne, if_true]
    rw [append_assoc, hskip, ← append_assoc, hrest]; simp
termination_by key value fields => sizeOf ((key, value) :: fields)

end

/-- **The round trip**: decoding a written value returns it. -/
theorem loads_dumps (h : Written floatText readFloat v) :
    loads readFloat (dumps floatText v) = some v := by
  have hskip : skipWs (dumps floatText v ++ []) = dumps floatText v ++ [] := skipWs_dumps h []
  have hread : readValue readFloat ((dumps floatText v).length + 1) (dumps floatText v ++ []) = some (v, []) :=
    readValue_dumps v h _ [] (Nat.lt_succ_self _) delimits_nil
  rw [append_nil] at hskip hread
  rw [loads, hskip, hread]; rfl

end Values

end JsonText

end CryptoPilot.Lib
