/- # PyJson — Python values through `json.dumps` and `json.loads`.

`json.dumps(value, sort_keys=True)` writes a tuple as an array and the keys of a dictionary as
texts, in the order in which Python sorts the keys themselves; `json.loads` reads arrays as lists
and all keys as strings. -/
import Mathlib
import CryptoPilot.Lib.Json
import CryptoPilot.Lib.Text

namespace CryptoPilot.Lib

open List

/-- A Python float: its value, and its text from `json.dumps`, which starts with a digit, a sign,
`N` or `I`. -/
structure PyFloat where
  value : FloatVal
  text : String
  text_head : ∀ c ∈ text.toList.head?, c.isLower = false
  deriving DecidableEq

namespace PyJson

/-- A key of a dictionary that `json.dumps` accepts. -/
inductive Key where
  | none
  | bool (b : Bool)
  | int (n : ℤ)
  | float (x : PyFloat)
  | str (s : String)
  deriving DecidableEq

/-- A value that `json.dumps` accepts, of the built-in types; their subclasses (`np.float64`, an
enumeration) are left out. -/
inductive Value where
  | none
  | bool (b : Bool)
  | int (n : ℤ)
  | float (x : PyFloat)
  | str (s : String)
  | list (items : List Value)
  | tuple (items : List Value)
  | dict (entries : List (Key × Value))

abbrev Dict : Type := List (Key × Value)

/-- A JSON text, as the tree it spells. -/
abbrev Text : Type := JsonTree PyFloat

/-! ## §1 Keys: their texts and their order -/

namespace Key

def text : Key → String
  | .none => "null"
  | .bool b => if b then "true" else "false"
  | .int n => String.ofList (intDigits n)
  | .float x => x.text
  | .str s => s

def isStr : Key → Bool
  | .str _ => true
  | _ => false

def isNumber : Key → Bool
  | .bool _ | .int _ | .float _ => true
  | _ => false

def number : Key → Option (WithBot (WithTop ℚ))
  | .bool b => some (((if b then 1 else 0 : ℚ) : WithTop ℚ) : WithBot (WithTop ℚ))
  | .int n => some (((n : ℚ) : WithTop ℚ) : WithBot (WithTop ℚ))
  | .float x =>
    match x.value with
    | .nan => Option.none
    | .inf negative => some (if negative then ⊥ else ((⊤ : WithTop ℚ) : WithBot (WithTop ℚ)))
    | .fin q => some ((q : WithTop ℚ) : WithBot (WithTop ℚ))
  | .none | .str _ => Option.none

/-- Two keys that Python's `<` orders: two strings, or two numbers. -/
def Comparable (a b : Key) : Prop := (a.isStr ∧ b.isStr) ∨ (a.number.isSome ∧ b.number.isSome)

def rank : Key → WithBot (WithTop ℚ) ×ₗ String
  | .str s => toLex (⊥, s)
  | k => toLex (k.number.getD ⊥, "")

end Key

/-- `sorted` does not raise: nothing to compare, or all strings, or all numbers. -/
def sortable (keys : List Key) : Bool := keys.length ≤ 1 || keys.all Key.isStr || keys.all Key.isNumber

/-- Python's `sorted` on the items of a dictionary. -/
structure ItemSort where
  sorted : List (Key × Text) → List (Key × Text)
  perm : ∀ items, (sorted items).Perm items
  ordered : ∀ items, (∀ e ∈ items, ∀ f ∈ items, e.1.Comparable f.1) →
    (sorted items).Pairwise fun e f => e.1.rank ≤ f.1.rank

def insertionSort : ItemSort where
  sorted := List.insertionSort fun e f => e.1.rank ≤ f.1.rank
  perm := perm_insertionSort _
  ordered items _ := by
    have : Std.Total fun e f : Key × Text => e.1.rank ≤ f.1.rank := ⟨fun _ _ => le_total _ _⟩
    have : IsTrans (Key × Text) fun e f => e.1.rank ≤ f.1.rank := ⟨fun _ _ _ => le_trans⟩
    exact pairwise_insertionSort _ items

/-! ## §2 `json.dumps` and `json.loads` -/

mutual

/-- `json.dumps(value, sort_keys=True)`; none: a TypeError, of keys that do not compare. -/
def dumps (py : ItemSort) : Value → Option Text
  | .none => some .null
  | .bool b => some (.bool b)
  | .int n => some (.int n)
  | .float x => some (.float x)
  | .str s => some (.str s)
  | .list items => (dumpsItems py items).map .arr
  | .tuple items => (dumpsItems py items).map .arr
  | .dict entries =>
    (dumpsEntries py entries).bind fun items =>
      if sortable (items.map Prod.fst) then some (.obj ((py.sorted items).map fun e => (e.1.text, e.2))) else none

def dumpsItems (py : ItemSort) : List Value → Option (List Text)
  | [] => some []
  | item :: rest => (dumps py item).bind fun t => (dumpsItems py rest).map fun ts => t :: ts

def dumpsEntries (py : ItemSort) : List (Key × Value) → Option (List (Key × Text))
  | [] => some []
  | (key, value) :: rest => (dumps py value).bind fun t => (dumpsEntries py rest).map fun ts => (key, t) :: ts

end

/-- `d[key] = value`: the value of the key in its place, or a new entry at the end. -/
def setItem : Dict → Key → Value → Dict
  | [], key, value => [(key, value)]
  | e :: rest, key, value => if e.1 = key then (key, value) :: rest else e :: setItem rest key value

/-- `dict(pairs)`: of the values of one key the last one. -/
def dictOf (pairs : List (Key × Value)) : Dict := pairs.foldl (fun d e => setItem d e.1 e.2) []

/-- `d.get(key)`. -/
def get (d : Dict) (key : Key) : Option Value := (d.find? fun e => e.1 = key).map Prod.snd

mutual

def loads : Text → Value
  | .null => .none
  | .bool b => .bool b
  | .int n => .int n
  | .float x => .float x
  | .str s => .str s
  | .arr items => .list (loadsItems items)
  | .obj fields => .dict (dictOf (loadsFields fields))

def loadsItems : List Text → List Value
  | [] => []
  | item :: rest => loads item :: loadsItems rest

def loadsFields : List (String × Text) → List (Key × Value)
  | [] => []
  | (key, value) :: rest => (.str key, loads value) :: loadsFields rest

end

theorem loadsItems_eq_map (items : List Text) : loadsItems items = items.map loads := by
  induction items with
  | nil => rfl
  | cons item rest ih => rw [loadsItems, ih, map_cons]

theorem loadsFields_eq_map (fields : List (String × Text)) :
    loadsFields fields = fields.map fun e => (Key.str e.1, loads e.2) := by
  induction fields with
  | nil => rfl
  | cons e rest ih => rw [loadsFields, ih, map_cons]

/-! ## §3 Lookups -/

variable {d : Dict} {k : Key} {v : Value} {pairs : List (Key × Value)} {p : Key × Value → Prop} {t : Text}
  {items : List Value} {fields : List (String × Text)} {name : String}

theorem get_eq_some (hmem : (k, v) ∈ d) (honly : ∀ e ∈ d, e.1 = k → e.2 = v) : get d k = some v := by
  unfold get
  cases hfound : d.find? fun e => e.1 = k with
  | none =>
    have hne : ¬ k = k := by simpa using find?_eq_none.mp hfound _ hmem
    exact absurd rfl hne
  | some e =>
    have hkey : e.1 = k := by simpa using find?_some hfound
    rw [Option.map_some, honly e (mem_of_find?_eq_some hfound) hkey]

theorem get_eq_none (h : ∀ e ∈ d, e.1 ≠ k) : get d k = none := by
  rw [get, find?_eq_none.mpr fun e he => by simpa using h e he, Option.map_none]

theorem mem_of_get (h : get d k = some v) : (k, v) ∈ d := by
  obtain ⟨e, hfound, rfl⟩ := Option.map_eq_some_iff.mp h
  have hkey : e.1 = k := by simpa using find?_some hfound
  exact hkey ▸ mem_of_find?_eq_some hfound

theorem forall_of_get_none (h : get d k = none) : ∀ e ∈ d, e.1 ≠ k := by
  intro e he; simpa using find?_eq_none.mp (Option.map_eq_none_iff.mp h) e he

@[simp] theorem get_setItem (d : Dict) (k k' : Key) (v : Value) :
    get (setItem d k' v) k = if k' = k then some v else get d k := by
  induction d with
  | nil => by_cases h : k' = k <;> simp [setItem, get, h]
  | cons e rest ih =>
    unfold setItem
    unfold get at ih ⊢
    by_cases hkey : e.1 = k'
    · by_cases h : k' = k <;> simp_all
    · by_cases h : e.1 = k
      · have hne : ¬ k' = k := fun h' => hkey (h.trans h'.symm)
        rw [if_neg hkey, if_neg hne, find?_cons, find?_cons, decide_eq_true h]
      · simp only [if_neg hkey, find?_cons, decide_eq_false h]; exact ih

theorem setItem_of_notMem (h : k ∉ d.map Prod.fst) (v : Value) : setItem d k v = d ++ [(k, v)] := by
  induction d with
  | nil => rfl
  | cons e rest ih =>
    rw [map_cons, mem_cons, not_or] at h
    rw [setItem, if_neg (Ne.symm h.1), ih h.2, cons_append]

theorem dictOf_concat (pairs : List (Key × Value)) (e : Key × Value) :
    dictOf (pairs ++ [e]) = setItem (dictOf pairs) e.1 e.2 := by
  rw [dictOf, foldl_append]; rfl

theorem dictOf_of_nodup (h : (pairs.map Prod.fst).Nodup) : dictOf pairs = pairs := by
  induction pairs using reverseRecOn with
  | nil => rfl
  | append_singleton pairs e ih =>
    rw [map_append, nodup_append] at h
    rw [dictOf_concat, ih h.1, setItem_of_notMem fun hmem => h.2.2 _ hmem _ (by simp) rfl]

theorem get_dictOf (k : Key) : get (dictOf pairs) k = get pairs.reverse k := by
  induction pairs using reverseRecOn with
  | nil => rfl
  | append_singleton pairs e ih =>
    rw [dictOf_concat, get_setItem, ih, get, get]
    by_cases h : e.1 = k <;> simp [h]

theorem nodup_keys_setItem (h : (d.map Prod.fst).Nodup) (k : Key) (v : Value) :
    ((setItem d k v).map Prod.fst).Nodup := by
  by_cases hmem : k ∈ d.map Prod.fst
  · suffices hkeys : (setItem d k v).map Prod.fst = d.map Prod.fst from hkeys ▸ h
    clear h
    induction d with
    | nil => exact absurd hmem not_mem_nil
    | cons e rest ih =>
      unfold setItem
      split
      next heq => rw [map_cons, map_cons, heq]
      next hne =>
        rw [map_cons, mem_cons] at hmem
        rw [map_cons, map_cons, ih (hmem.resolve_left (Ne.symm hne))]
  · rw [setItem_of_notMem hmem, map_append, nodup_append]
    exact ⟨h, nodup_singleton _, fun a ha b hb hab => hmem (by simp_all)⟩

theorem nodup_keys_dictOf (pairs : List (Key × Value)) : ((dictOf pairs).map Prod.fst).Nodup := by
  induction pairs using reverseRecOn with
  | nil => exact nodup_nil
  | append_singleton pairs e ih => rw [dictOf_concat]; exact nodup_keys_setItem ih _ _

theorem mem_iff_get (h : (d.map Prod.fst).Nodup) : (k, v) ∈ d ↔ get d k = some v := by
  refine ⟨fun hmem => get_eq_some hmem fun e he hkey => ?_, mem_of_get⟩
  induction d with
  | nil => exact absurd hmem not_mem_nil
  | cons x rest ih =>
    obtain ⟨hnot, hrest⟩ := nodup_cons.mp h
    rcases mem_cons.mp hmem with rfl | hmem'
    · rcases mem_cons.mp he with rfl | he'
      · rfl
      · exact absurd (mem_map.mpr ⟨e, he', hkey⟩) hnot
    · rcases mem_cons.mp he with rfl | he'
      · exact absurd (mem_map.mpr ⟨_, hmem', hkey.symm⟩) hnot
      · exact ih hrest hmem' he'

theorem mem_keys_dictOf {e : Key × Value} (he : e ∈ pairs) : ∃ v, (e.1, v) ∈ dictOf pairs := by
  cases hget : get (dictOf pairs) e.1 with
  | none =>
    rw [get_dictOf] at hget; exact absurd rfl (forall_of_get_none hget e (mem_reverse.mpr he))
  | some v => exact ⟨v, mem_of_get hget⟩

theorem forall_setItem (h : ∀ e ∈ d, p e) (hkv : p (k, v)) : ∀ e ∈ setItem d k v, p e := by
  induction d with
  | nil => simpa [setItem] using hkv
  | cons e rest ih =>
    obtain ⟨he, hrest⟩ := forall_mem_cons.mp h
    unfold setItem
    split
    · exact forall_mem_cons.mpr ⟨hkv, hrest⟩
    · exact forall_mem_cons.mpr ⟨he, ih hrest⟩

theorem forall_dictOf (h : ∀ e ∈ pairs, p e) : ∀ e ∈ dictOf pairs, p e := by
  induction pairs using reverseRecOn with
  | nil => simp [dictOf]
  | append_singleton pairs e ih =>
    rw [dictOf_concat]; exact forall_setItem (ih fun f hf => h f (by simp [hf])) (h e (by simp))

/-! ## §4 The texts of values -/

variable {py : ItemSort}

def dumped (py : ItemSort) (v : Value) : Text := (dumps py v).getD .null

def reread (py : ItemSort) (v : Value) : Value := loads (dumped py v)

theorem dumped_of_eq (h : dumps py v = some t) : dumped py v = t := by rw [dumped, h]; rfl

theorem dumps_of_isSome (h : (dumps py v).isSome) : dumps py v = some (dumped py v) := by
  obtain ⟨t, ht⟩ := Option.isSome_iff_exists.mp h
  rw [dumped_of_eq ht, ht]

theorem dumpsItems_eq_some : ∀ {ts : List Text}, dumpsItems py items = some ts ↔
    (∀ v ∈ items, (dumps py v).isSome) ∧ ts = items.map (dumped py) := by
  induction items with
  | nil => exact ⟨fun h => ⟨by simp, (Option.some.inj h).symm⟩, fun h => congrArg some h.2.symm⟩
  | cons v rest ih =>
    intro ts
    rw [dumpsItems, Option.bind_eq_some_iff]
    simp only [Option.map_eq_some_iff, ih, forall_mem_cons, map_cons]
    constructor
    · rintro ⟨t, ht, _, ⟨hrest, rfl⟩, rfl⟩
      exact ⟨⟨by rw [ht]; rfl, hrest⟩, by rw [dumped_of_eq ht]⟩
    · rintro ⟨⟨hv, hrest⟩, rfl⟩; exact ⟨_, dumps_of_isSome hv, _, ⟨hrest, rfl⟩, rfl⟩

abbrev dumpedItems (py : ItemSort) (d : Dict) : List (Key × Text) := d.map fun e => (e.1, dumped py e.2)

theorem dumpsEntries_eq_some : ∀ {items : List (Key × Text)}, dumpsEntries py d = some items ↔
    (∀ e ∈ d, (dumps py e.2).isSome) ∧ items = dumpedItems py d := by
  induction d with
  | nil => exact ⟨fun h => ⟨by simp, (Option.some.inj h).symm⟩, fun h => congrArg some h.2.symm⟩
  | cons e rest ih =>
    intro items
    rw [dumpsEntries, Option.bind_eq_some_iff]
    simp only [Option.map_eq_some_iff, ih, forall_mem_cons, map_cons]
    constructor
    · rintro ⟨t, ht, _, ⟨hrest, rfl⟩, rfl⟩
      exact ⟨⟨by rw [ht]; rfl, hrest⟩, by rw [dumped_of_eq ht]⟩
    · rintro ⟨⟨hv, hrest⟩, rfl⟩; exact ⟨_, dumps_of_isSome hv, _, ⟨hrest, rfl⟩, rfl⟩

def fieldsOf (py : ItemSort) (d : Dict) : List (String × Text) :=
  (py.sorted (dumpedItems py d)).map fun e => (e.1.text, e.2)

theorem dumps_dict : dumps py (.dict d) = some t ↔
    (∀ e ∈ d, (dumps py e.2).isSome) ∧ sortable (d.map Prod.fst) ∧ t = .obj (fieldsOf py d) := by
  rw [dumps, Option.bind_eq_some_iff]
  simp only [dumpsEntries_eq_some]
  constructor
  · rintro ⟨_, ⟨hall, rfl⟩, h⟩
    rw [map_map] at h
    split at h
    next hsort => exact ⟨hall, hsort, (Option.some.inj h).symm⟩
    next => cases h
  · rintro ⟨hall, hsort, rfl⟩
    refine ⟨_, ⟨hall, rfl⟩, ?_⟩
    rw [map_map]; exact if_pos hsort

theorem dumps_list : dumps py (.list items) = some t ↔
    (∀ v ∈ items, (dumps py v).isSome) ∧ t = .arr (items.map (dumped py)) := by
  rw [dumps, Option.map_eq_some_iff]
  simp only [dumpsItems_eq_some]
  constructor
  · rintro ⟨_, ⟨hall, rfl⟩, rfl⟩; exact ⟨hall, rfl⟩
  · rintro ⟨hall, rfl⟩; exact ⟨_, ⟨hall, rfl⟩, rfl⟩

theorem fieldsOf_perm (d : Dict) : (fieldsOf py d).Perm (d.map fun e => (e.1.text, dumped py e.2)) := by
  have h := (py.perm (dumpedItems py d)).map fun e => (e.1.text, e.2)
  rwa [map_map] at h

theorem fieldsOf_increasing (hstr : ∀ e ∈ d, e.1.isStr) (hnodup : (d.map Prod.fst).Nodup) :
    (fieldsOf py d).Pairwise fun e f => e.1 < f.1 := by
  have hperm := py.perm (dumpedItems py d)
  have hstr' : ∀ e ∈ py.sorted (dumpedItems py d), e.1.isStr := by
    intro e he
    obtain ⟨f, hf, rfl⟩ := mem_map.mp (hperm.mem_iff.mp he); exact hstr f hf
  have hnodup' : ((py.sorted (dumpedItems py d)).map Prod.fst).Nodup := by
    refine (hperm.map Prod.fst).nodup_iff.mpr ?_; rwa [map_map]
  have hord := py.ordered (dumpedItems py d) fun e he f hf =>
    .inl ⟨hstr' e (hperm.mem_iff.mpr he), hstr' f (hperm.mem_iff.mpr hf)⟩
  rw [fieldsOf, pairwise_map]
  refine (hord.and (pairwise_map.mp hnodup')).imp_of_mem fun he hf h => ?_
  obtain ⟨hle, hne⟩ := h
  rename_i e f
  have hestr := hstr' e he
  have hfstr := hstr' f hf
  obtain ⟨ke, te⟩ := e
  obtain ⟨kf, tf⟩ := f
  cases ke <;> cases kf <;> simp only [Key.isStr, Bool.false_eq_true] at hestr hfstr
  simp only [Key.rank, Prod.Lex.toLex_le_toLex, lt_irrefl, false_or, true_and] at hle
  exact lt_of_le_of_ne hle fun h => hne (congrArg Key.str h)

theorem fields_eq_of_perm {F G : List (String × Text)} (hF : F.Pairwise fun e f => e.1 < f.1)
    (hG : G.Pairwise fun e f => e.1 < f.1) (h : F.Perm G) : F = G :=
  h.eq_of_pairwise (fun _ _ _ _ hab hba => absurd hba (lt_asymm hab)) hF hG

theorem sortable_of_str {keys : List Key} (h : ∀ k ∈ keys, k.isStr) : sortable keys := by
  simp [sortable, all_eq_true.mpr h]

theorem dumps_strings (hstr : ∀ e ∈ d, e.1.isStr) (hall : ∀ e ∈ d, (dumps py e.2).isSome) :
    dumps py (.dict d) = some (.obj (fieldsOf py d)) := by
  refine dumps_dict.mpr ⟨hall, sortable_of_str fun k hk => ?_, rfl⟩
  obtain ⟨e, he, rfl⟩ := mem_map.mp hk; exact hstr e he

/-! ## §5 Reading a text and writing it again -/

abbrev pairsOf (fields : List (String × Text)) : List (Key × Value) := fields.map fun e => (Key.str e.1, loads e.2)

theorem loads_obj (fields : List (String × Text)) : loads (.obj fields) = .dict (dictOf (pairsOf fields)) := by
  rw [loads, loadsFields_eq_map]

theorem loads_arr (items : List Text) : loads (.arr items) = .list (items.map loads) := by
  rw [loads, loadsItems_eq_map]

theorem isStr_dictOf_pairsOf (fields : List (String × Text)) : ∀ e ∈ dictOf (pairsOf fields), e.1.isStr :=
  forall_dictOf fun e he => by
    obtain ⟨f, _, rfl⟩ := mem_map.mp he; rfl

theorem dictOf_pairsOf (h : fields.Pairwise fun e f => e.1 < f.1) : dictOf (pairsOf fields) = pairsOf fields := by
  refine dictOf_of_nodup (pairwise_map.mpr (pairwise_map.mpr (h.imp fun hlt heq => ?_)))
  exact hlt.ne (Key.str.inj heq)

mutual

theorem isSome_dumps_loads : ∀ t : Text, (dumps py (loads t)).isSome
  | .null | .bool _ | .int _ | .float _ | .str _ => rfl
  | .arr items => by
    rw [loads_arr, dumps_list.mpr ⟨fun v hv => ?_, rfl⟩]
    · rfl
    · obtain ⟨t, ht, rfl⟩ := mem_map.mp hv; exact isSome_dumps_loads_items items t ht
  | .obj fields => by
    rw [loads_obj, dumps_strings (isStr_dictOf_pairsOf fields) (forall_dictOf fun e he => ?_)]
    · rfl
    · obtain ⟨f, hf, rfl⟩ := mem_map.mp he; exact isSome_dumps_loads_fields fields f hf

theorem isSome_dumps_loads_items : ∀ items : List Text, ∀ t ∈ items, (dumps py (loads t)).isSome
  | [] => fun _ h => absurd h not_mem_nil
  | t :: rest => forall_mem_cons.mpr ⟨isSome_dumps_loads t, isSome_dumps_loads_items rest⟩

theorem isSome_dumps_loads_fields : ∀ fields : List (String × Text), ∀ e ∈ fields, (dumps py (loads e.2)).isSome
  | [] => fun _ h => absurd h not_mem_nil
  | e :: rest => forall_mem_cons.mpr ⟨isSome_dumps_loads e.2, isSome_dumps_loads_fields rest⟩

end

def rewritten (py : ItemSort) (t : Text) : Text := dumped py (loads t)

theorem dumps_loads (t : Text) : dumps py (loads t) = some (rewritten py t) :=
    dumps_of_isSome (isSome_dumps_loads t)

theorem rewritten_arr (items : List Text) : rewritten py (.arr items) = .arr (items.map (rewritten py)) := by
  have h : dumps py (loads (.arr items)) = some (.arr ((items.map loads).map (dumped py))) := by
    rw [loads_arr]
    refine dumps_list.mpr ⟨fun v hv => ?_, rfl⟩
    obtain ⟨t, _, rfl⟩ := mem_map.mp hv; exact isSome_dumps_loads t
  rw [rewritten, dumped_of_eq h, map_map]; rfl

theorem rewritten_obj (fields : List (String × Text)) :
    rewritten py (.obj fields) = .obj (fieldsOf py (dictOf (pairsOf fields)))
      ∧ (fieldsOf py (dictOf (pairsOf fields))).Pairwise fun e f => e.1 < f.1 := by
  refine ⟨?_, fieldsOf_increasing (isStr_dictOf_pairsOf fields) (nodup_keys_dictOf _)⟩
  rw [rewritten, loads_obj]
  refine dumped_of_eq (dumps_strings (isStr_dictOf_pairsOf fields) (forall_dictOf fun e he => ?_))
  obtain ⟨f, _, rfl⟩ := mem_map.mp he; exact isSome_dumps_loads f.2

theorem rewritten_increasing (h : fields.Pairwise fun e f => e.1 < f.1) :
    rewritten py (.obj fields) = .obj (fields.map fun e => (e.1, rewritten py e.2)) := by
  obtain ⟨heq, hincreasing⟩ := @rewritten_obj py fields
  rw [heq]
  refine congrArg JsonTree.obj (fields_eq_of_perm hincreasing (pairwise_map.mpr h) ?_)
  refine (fieldsOf_perm _).trans (.of_eq ?_)
  rw [dictOf_pairsOf h, map_map]; rfl

mutual

def Canonical : Text → Prop
  | .null | .bool _ | .int _ | .float _ | .str _ => True
  | .arr items => CanonicalItems items
  | .obj fields => (fields.Pairwise fun e f => e.1 < f.1) ∧ CanonicalFields fields

def CanonicalItems : List Text → Prop
  | [] => True
  | t :: rest => Canonical t ∧ CanonicalItems rest

def CanonicalFields : List (String × Text) → Prop
  | [] => True
  | (_, t) :: rest => Canonical t ∧ CanonicalFields rest

end

mutual

theorem rewritten_eq_self_iff : ∀ t : Text, rewritten py t = t ↔ Canonical t
  | .null | .bool _ | .int _ | .float _ | .str _ => iff_of_true rfl trivial
  | .arr items => by
    rw [rewritten_arr, Canonical, ← rewritten_items_eq_self_iff items]
    exact ⟨fun h => JsonTree.arr.inj h, fun h => congrArg JsonTree.arr h⟩
  | .obj fields => by
    rw [Canonical, ← rewritten_fields_eq_self_iff fields]
    constructor
    · intro h
      obtain ⟨heq, hincreasing⟩ := @rewritten_obj py fields
      rw [JsonTree.obj.inj (heq.symm.trans h)] at hincreasing
      rw [rewritten_increasing hincreasing] at h; exact ⟨hincreasing, JsonTree.obj.inj h⟩
    · rintro ⟨hincreasing, h⟩
      rw [rewritten_increasing hincreasing, h]

theorem rewritten_items_eq_self_iff : ∀ items : List Text, items.map (rewritten py) = items ↔ CanonicalItems items
  | [] => iff_of_true rfl trivial
  | t :: rest => by
    rw [map_cons, cons_eq_cons, rewritten_eq_self_iff t, rewritten_items_eq_self_iff rest, CanonicalItems]

theorem rewritten_fields_eq_self_iff : ∀ fields : List (String × Text),
    (fields.map fun e => (e.1, rewritten py e.2)) = fields ↔ CanonicalFields fields
  | [] => iff_of_true rfl trivial
  | (k, t) :: rest => by
    rw [map_cons, cons_eq_cons, rewritten_fields_eq_self_iff rest, CanonicalFields, Prod.mk_right_inj,
      rewritten_eq_self_iff t]

end

/-! ## §6 The round trip of a value -/

theorem isSome_of_dumps (h : dumps py v = some t) : (dumps py v).isSome := by rw [h]; rfl

theorem reread_list (h : (dumps py (.list items)).isSome) :
    reread py (.list items) = .list (items.map (reread py)) := by
  obtain ⟨_, heq⟩ := dumps_list.mp (dumps_of_isSome h)
  rw [reread, heq, loads_arr, map_map]; rfl

theorem reread_tuple (items : List Value) : reread py (.tuple items) = reread py (.list items) := rfl

def rereadDict (py : ItemSort) (d : Dict) : Dict := dictOf (pairsOf (fieldsOf py d))

theorem reread_dict (h : (dumps py (.dict d)).isSome) : reread py (.dict d) = .dict (rereadDict py d) := by
  obtain ⟨_, _, heq⟩ := dumps_dict.mp (dumps_of_isSome h)
  rw [reread, heq, loads_obj]; rfl

/-- `a == b`. -/
def Key.Same : Key → Key → Prop
  | .none, .none => True
  | .str s, .str t => s = t
  | a, b => a.number.isSome ∧ a.number = b.number

def DistinctKeys (d : Dict) : Prop := d.Pairwise fun e f => ¬ e.1.Same f.1

mutual

def Value.Distinct : Value → Prop
  | .none | .bool _ | .int _ | .float _ | .str _ => True
  | .list items => DistinctItems items
  | .tuple items => DistinctItems items
  | .dict d => DistinctKeys d ∧ DistinctEntries d

def DistinctItems : List Value → Prop
  | [] => True
  | v :: rest => v.Distinct ∧ DistinctItems rest

def DistinctEntries : Dict → Prop
  | [] => True
  | (_, v) :: rest => v.Distinct ∧ DistinctEntries rest

end

theorem distinctEntries_iff : DistinctEntries d ↔ ∀ e ∈ d, e.2.Distinct := by
  induction d with
  | nil => simp [DistinctEntries]
  | cons e rest ih => rw [DistinctEntries, ih, forall_mem_cons]

theorem DistinctKeys.eq_of_str (h : DistinctKeys d) {e f : Key × Value} (he : e ∈ d) (hf : f ∈ d)
    {s : String} (hes : e.1 = .str s) (hfs : f.1 = .str s) : e = f := by
  have hsame : e.1.Same f.1 ∧ f.1.Same e.1 := by rw [hes, hfs]; exact ⟨rfl, rfl⟩
  induction d with
  | nil => exact absurd he not_mem_nil
  | cons x rest ih =>
    obtain ⟨hx, hrest⟩ := pairwise_cons.mp h
    rcases mem_cons.mp he with rfl | he'
    · rcases mem_cons.mp hf with rfl | hf'
      · rfl
      · exact absurd hsame.1 (hx f hf')
    · rcases mem_cons.mp hf with rfl | hf'
      · exact absurd hsame.2 (hx e he')
      · exact ih hrest he' hf'

def isWord (name : String) : Bool :=
  name.toList.head?.any Char.isLower && !(["null", "true", "false"] : List String).contains name

theorem Key.eq_of_text (hword : isWord name) (h : k.text = name) : k = .str name := by
  obtain ⟨hlower, hliteral⟩ := (Bool.and_eq_true _ _).mp hword
  obtain ⟨c, hc, hclower⟩ : ∃ c ∈ name.toList.head?, c.isLower = true := by
    cases hhead : name.toList.head? with
    | none => simp [hhead] at hlower
    | some c => exact ⟨c, rfl, by simpa [hhead] using hlower⟩
  subst h
  cases k with
  | none => simp [Key.text] at hliteral
  | bool b => cases b <;> simp [Key.text] at hliteral
  | int n =>
    have hmem : c ∈ intDigits n := mem_of_mem_head? (by simpa [Key.text] using hc)
    refine absurd hmem (notMem_intDigits ?_ ?_ n)
    · simp only [Char.isLower, Char.isDigit, Bool.and_eq_true, decide_eq_true_eq, Bool.and_eq_false_imp,
        decide_eq_false_iff_not] at hclower ⊢
      intro _ h; exact absurd (UInt32.le_trans hclower.1 h) (by decide)
    · rintro rfl; exact absurd hclower (by decide)
  | float x =>
    rw [x.text_head c hc] at hclower; cases hclower
  | str s => rfl

theorem get_rereadDict (hd : DistinctKeys d) (honly : ∀ e ∈ d, e.1.text = name → e.1 = .str name) :
    get (rereadDict py d) (.str name) = (get d (.str name)).map (reread py) := by
  have horigin : ∀ p ∈ (pairsOf (fieldsOf py d)).reverse, p.1 = .str name →
      ∃ e ∈ d, e.1 = .str name ∧ p.2 = reread py e.2 := by
    intro p hp hname
    obtain ⟨f, hf, rfl⟩ := mem_map.mp (mem_reverse.mp hp)
    obtain ⟨e, he, rfl⟩ := mem_map.mp ((fieldsOf_perm d).mem_iff.mp hf)
    exact ⟨e, he, honly e he (Key.str.inj hname), rfl⟩
  rw [rereadDict, get_dictOf]
  cases hget : get d (.str name) with
  | none =>
    refine get_eq_none fun p hp hname => ?_
    obtain ⟨e, he, hkey, -⟩ := horigin p hp hname; exact forall_of_get_none hget e he hkey
  | some v =>
    have hmem := mem_of_get hget
    refine get_eq_some ?_ fun p hp hname => ?_
    · refine mem_reverse.mpr (mem_map.mpr ⟨(name, dumped py v), ?_, rfl⟩)
      exact (fieldsOf_perm d).mem_iff.mpr (mem_map.mpr ⟨_, hmem, rfl⟩)
    · obtain ⟨e, he, hkey, hvalue⟩ := horigin p hp hname
      rw [hvalue, hd.eq_of_str he hmem hkey rfl]

theorem get_rereadDict_word (hd : DistinctKeys d) (hword : isWord name) :
    get (rereadDict py d) (.str name) = (get d (.str name)).map (reread py) :=
  get_rereadDict hd fun _ _ => Key.eq_of_text hword

theorem get_rereadDict_strings (hd : DistinctKeys d) (hstr : ∀ e ∈ d, e.1.isStr) (name : String) :
    get (rereadDict py d) (.str name) = (get d (.str name)).map (reread py) := by
  refine get_rereadDict hd fun e he htext => ?_
  have hestr := hstr e he
  cases hkey : e.1 <;> rw [hkey] at hestr htext <;> simp only [Key.isStr, Bool.false_eq_true] at hestr
  exact congrArg Key.str htext

theorem isStr_rereadDict (d : Dict) : ∀ e ∈ rereadDict py d, e.1.isStr := isStr_dictOf_pairsOf _

theorem distinctKeys_rereadDict (d : Dict) : DistinctKeys (rereadDict py d) := by
  have hnodup : ((rereadDict py d).map Prod.fst).Nodup := nodup_keys_dictOf _
  refine (pairwise_map.mp hnodup).imp_of_mem fun he hf hne hsame => hne ?_
  rename_i e f
  have hestr := isStr_rereadDict d e he
  have hfstr := isStr_rereadDict d f hf
  cases hke : e.1 <;> rw [hke] at hestr hsame <;> simp only [Key.isStr, Bool.false_eq_true] at hestr
  cases hkf : f.1 <;> rw [hkf] at hfstr hsame <;> simp only [Key.isStr, Bool.false_eq_true] at hfstr
  exact congrArg Key.str hsame

mutual

/-- In every dictionary of the value the keys, as Python sorts them, increase as texts too. -/
def InTextOrder (py : ItemSort) : Value → Prop
  | .none | .bool _ | .int _ | .float _ | .str _ => True
  | .list items => ItemsInTextOrder py items
  | .tuple items => ItemsInTextOrder py items
  | .dict d => ((fieldsOf py d).Pairwise fun e f => e.1 < f.1) ∧ EntriesInTextOrder py d

def ItemsInTextOrder (py : ItemSort) : List Value → Prop
  | [] => True
  | v :: rest => InTextOrder py v ∧ ItemsInTextOrder py rest

def EntriesInTextOrder (py : ItemSort) : Dict → Prop
  | [] => True
  | (_, v) :: rest => InTextOrder py v ∧ EntriesInTextOrder py rest

end

theorem canonicalFields_iff : CanonicalFields fields ↔ ∀ e ∈ fields, Canonical e.2 := by
  induction fields with
  | nil => simp [CanonicalFields]
  | cons e rest ih => rw [CanonicalFields, ih, forall_mem_cons]

theorem entriesInTextOrder_iff : EntriesInTextOrder py d ↔ ∀ e ∈ d, InTextOrder py e.2 := by
  induction d with
  | nil => simp [EntriesInTextOrder]
  | cons e rest ih => rw [EntriesInTextOrder, ih, forall_mem_cons]

theorem canonicalFields_fieldsOf : CanonicalFields (fieldsOf py d) ↔ ∀ e ∈ d, Canonical (dumped py e.2) := by
  rw [canonicalFields_iff]
  constructor
  · intro h e he; exact h _ ((fieldsOf_perm d).mem_iff.mpr (mem_map.mpr ⟨e, he, rfl⟩))
  · intro h f hf
    obtain ⟨e, he, rfl⟩ := mem_map.mp ((fieldsOf_perm d).mem_iff.mp hf); exact h e he

mutual

theorem canonical_dumped_iff : ∀ v : Value, (dumps py v).isSome → (Canonical (dumped py v) ↔ InTextOrder py v)
  | .none, _ | .bool _, _ | .int _, _ | .float _, _ | .str _, _ => Iff.rfl
  | .list items, h => by
    obtain ⟨hall, heq⟩ := dumps_list.mp (dumps_of_isSome h)
    rw [heq, Canonical, InTextOrder]; exact canonicalItems_dumped_iff items hall
  | .tuple items, h => by
    obtain ⟨hall, heq⟩ := dumps_list.mp (dumps_of_isSome h)
    rw [show dumped py (.tuple items) = dumped py (.list items) from rfl, heq, Canonical, InTextOrder]
    exact canonicalItems_dumped_iff items hall
  | .dict d, h => by
    obtain ⟨hall, _, heq⟩ := dumps_dict.mp (dumps_of_isSome h)
    rw [heq, Canonical, InTextOrder, canonicalFields_fieldsOf, entriesInTextOrder_iff]
    exact and_congr_right fun _ => canonicalEntries_dumped_iff d hall

theorem canonicalItems_dumped_iff : ∀ items : List Value, (∀ v ∈ items, (dumps py v).isSome) →
    (CanonicalItems (items.map (dumped py)) ↔ ItemsInTextOrder py items)
  | [], _ => Iff.rfl
  | v :: rest, h => by
    obtain ⟨hv, hrest⟩ := forall_mem_cons.mp h
    rw [map_cons, CanonicalItems, ItemsInTextOrder, canonical_dumped_iff v hv, canonicalItems_dumped_iff rest hrest]

theorem canonicalEntries_dumped_iff : ∀ d : Dict, (∀ e ∈ d, (dumps py e.2).isSome) →
    ((∀ e ∈ d, Canonical (dumped py e.2)) ↔ ∀ e ∈ d, InTextOrder py e.2)
  | [], _ => by simp
  | e :: rest, h => by
    obtain ⟨he, hrest⟩ := forall_mem_cons.mp h
    rw [forall_mem_cons, forall_mem_cons, canonical_dumped_iff e.2 he, canonicalEntries_dumped_iff rest hrest]

end

end PyJson

end CryptoPilot.Lib
