/- # Json — decoded JSON values.

The values `json.loads` returns, with objects as the lists of their entries.  Equality of values is
decidable. -/
import CryptoPilot.Lib.Float

namespace CryptoPilot.Lib

/-- A JSON value over a representation of floats: an object is the list of its fields in their
order. -/
inductive JsonTree (φ : Type) where
  | null
  | bool (b : Bool)
  | int (n : ℤ)
  | float (x : φ)
  | str (s : String)
  | arr (items : List (JsonTree φ))
  | obj (fields : List (String × JsonTree φ))

namespace JsonTree

variable {φ : Type} [DecidableEq φ]

mutual

def decEq : (a b : JsonTree φ) → Decidable (a = b)
  | .null, .null => isTrue rfl
  | .bool a, .bool b => decidable_of_iff (a = b) (by simp)
  | .int a, .int b => decidable_of_iff (a = b) (by simp)
  | .float a, .float b => decidable_of_iff (a = b) (by simp)
  | .str a, .str b => decidable_of_iff (a = b) (by simp)
  | .arr as, .arr bs =>
    match decEqItems as bs with
    | isTrue h => isTrue (by rw [h])
    | isFalse h => isFalse (by simpa using h)
  | .obj as, .obj bs =>
    match decEqFields as bs with
    | isTrue h => isTrue (by rw [h])
    | isFalse h => isFalse (by simpa using h)
  | .null, .bool _ | .null, .int _ | .null, .float _ | .null, .str _ | .null, .arr _ | .null, .obj _
  | .bool _, .null | .bool _, .int _ | .bool _, .float _ | .bool _, .str _ | .bool _, .arr _ | .bool _, .obj _
  | .int _, .null | .int _, .bool _ | .int _, .float _ | .int _, .str _ | .int _, .arr _ | .int _, .obj _
  | .float _, .null | .float _, .bool _ | .float _, .int _ | .float _, .str _ | .float _, .arr _ | .float _, .obj _
  | .str _, .null | .str _, .bool _ | .str _, .int _ | .str _, .float _ | .str _, .arr _ | .str _, .obj _
  | .arr _, .null | .arr _, .bool _ | .arr _, .int _ | .arr _, .float _ | .arr _, .str _ | .arr _, .obj _
  | .obj _, .null | .obj _, .bool _ | .obj _, .int _ | .obj _, .float _ | .obj _, .str _ | .obj _, .arr _ =>
    isFalse nofun

def decEqItems : (as bs : List (JsonTree φ)) → Decidable (as = bs)
  | [], [] => isTrue rfl
  | [], _ :: _ => isFalse nofun
  | _ :: _, [] => isFalse nofun
  | a :: as, b :: bs =>
    match decEq a b, decEqItems as bs with
    | isTrue h, isTrue h' => isTrue (by rw [h, h'])
    | isFalse h, _ => isFalse (by simp [h])
    | _, isFalse h => isFalse (by simp [h])

def decEqFields : (as bs : List (String × JsonTree φ)) → Decidable (as = bs)
  | [], [] => isTrue rfl
  | [], _ :: _ => isFalse nofun
  | _ :: _, [] => isFalse nofun
  | (k, a) :: as, (l, b) :: bs =>
    match decEq a b, decEqFields as bs with
    | isTrue h, isTrue h' => decidable_of_iff (k = l) (by simp [h, h'])
    | isFalse h, _ => isFalse (by simp [h])
    | _, isFalse h => isFalse (by simp [h])

end

instance : DecidableEq (JsonTree φ) := decEq

end JsonTree

abbrev Json : Type := JsonTree FloatVal

abbrev Record : Type := List (String × Json)

namespace Json

/-- The text of a string, the empty one for other values. -/
def strOr : Json → String
  | .str s => s
  | _ => ""

theorem strOr_str (s : String) : strOr (.str s) = s := rfl

/-- A text between quotation marks, its quotation marks and backslashes escaped. -/
def quoted (s : String) : String :=
  "\"" ++ String.ofList (s.toList.flatMap (fun c => if c.toNat = 34 ∨ c.toNat = 92 then [Char.ofNat 92, c] else [c])) ++
    "\""

mutual

/-- `json.dumps` without blanks, for values without floats and with printable texts. -/
def text : Json → String
  | .null => "null"
  | .bool b => if b then "true" else "false"
  | .int n => toString n
  | .float _ => ""
  | .str s => quoted s
  | .arr items => "[" ++ String.intercalate "," (itemTexts items) ++ "]"
  | .obj fields => "\x7b" ++ String.intercalate "," (fieldTexts fields) ++ "\x7d"

def itemTexts : List Json → List String
  | [] => []
  | item :: rest => text item :: itemTexts rest

def fieldTexts : List (String × Json) → List String
  | [] => []
  | (key, value) :: rest => (quoted key ++ ":" ++ text value) :: fieldTexts rest

end

end Json

namespace Record

/-- `record.get(key)`, the missing key told apart from a null. -/
def get (r : Record) (key : String) : Option Json := (r.find? (fun e => e.1 = key)).map Prod.snd

end Record

end CryptoPilot.Lib
