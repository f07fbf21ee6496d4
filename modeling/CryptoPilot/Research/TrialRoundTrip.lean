/- # TrialRoundTrip — a history record and the record read back from its stored JSON.

The admission of a record comes back as it was unless a tuple stands among its reason codes
(`isTrialRecord_reread`), and its identity key is the rewritten one, which is the key itself iff the
record has a `StableIdentity` (`trialIdentityKey_reread_iff`). -/
import CryptoPilot.Research.TrialIdentity

namespace CryptoPilot.Research

open Lib Lib.PyJson List

variable {py : ItemSort}

/-! ## §1 Values -/

theorem rereadDict_nil : rereadDict py [] = [] := by
  have h := @fieldsOf_perm py []
  rw [map_nil, perm_nil] at h
  rw [rereadDict, h]; rfl

variable {v : Value} {name : String}

theorem isSome_of_get {d : Dict} (h : (dumps py (.dict d)).isSome) {key : Key} (hget : get d key = some v) :
    (dumps py v).isSome :=
  (dumps_dict.mp (dumps_of_isSome h)).1 _ (mem_of_get hget)

theorem distinct_of_get {d : Dict} (h : (Value.dict d).Distinct) {key : Key} (hget : get d key = some v) :
    v.Distinct :=
  distinctEntries_iff.mp h.2 _ (mem_of_get hget)

/-! ## §2 Admission -/

section Admission

variable {record : Dict} (hd : (Value.dict record).Distinct) (hdump : (dumps py (.dict record)).isSome)

include hd hdump

theorem isComplete_reread : isComplete (rereadDict py record) = isComplete record := by
  unfold isComplete
  rw [get_rereadDict_word hd.1 (by decide)]
  cases hget : get record (.str "status") with
  | none => rfl
  | some v =>
    have hv := isSome_of_get hdump hget
    cases v with
    | list items => rw [Option.map_some, reread_list hv]
    | tuple items => rw [Option.map_some, reread_tuple, reread_list hv]
    | dict d => rw [Option.map_some, reread_dict hv]
    | _ => rfl

theorem blendSharpe_reread : blendSharpe (rereadDict py record) = (blendSharpe record).map (reread py) := by
  unfold blendSharpe
  rw [get_rereadDict_word hd.1 (by decide)]
  cases hget : get record (.str "blend") with
  | none => rfl
  | some v =>
    have hv := isSome_of_get hdump hget
    have hvd := distinct_of_get hd hget
    cases v with
    | list items => rw [Option.map_some, reread_list hv]; rfl
    | tuple items => rw [Option.map_some, reread_tuple, reread_list hv]; rfl
    | dict blend =>
      rw [Option.map_some, reread_dict hv]; exact get_rereadDict_word hvd.1 (by decide)
    | _ => rfl

omit hd in
theorem isSome_blendSharpe {v : Value} (h : blendSharpe record = some v) : (dumps py v).isSome := by
  unfold blendSharpe at h
  split at h
  next blend hget => exact isSome_of_get (isSome_of_get hdump hget) h
  next => cases h

theorem hasFiniteBlendSharpe_reread : hasFiniteBlendSharpe (rereadDict py record) =
    hasFiniteBlendSharpe record := by
  unfold hasFiniteBlendSharpe
  rw [blendSharpe_reread hd hdump]
  cases hsharpe : blendSharpe record with
  | none => rfl
  | some v =>
    have hv := isSome_blendSharpe hdump hsharpe
    cases v with
    | list items => rw [Option.map_some, reread_list hv]
    | tuple items => rw [Option.map_some, reread_tuple, reread_list hv]
    | dict d => rw [Option.map_some, reread_dict hv]
    | _ => rfl

theorem declaredCodes_reread {field : String} (hword : isWord field) :
    declaredCodes (rereadDict py record) field = (declaredCodes record field).map (reread py) := by
  unfold declaredCodes
  rw [get_rereadDict_word hd.1 hword]
  cases hget : get record (.str field) with
  | none => rfl
  | some v =>
    have hv := isSome_of_get hdump hget
    cases v with
    | list items => rw [Option.map_some, reread_list hv]
    | tuple items => rw [Option.map_some, reread_tuple, reread_list hv]
    | dict d => rw [Option.map_some, reread_dict hv]; rfl
    | _ => rfl

theorem reasonCodes_reread : reasonCodes (rereadDict py record) = (reasonCodes record).map (reread py) := by
  unfold reasonCodes
  rw [get_rereadDict_word hd.1 (by decide)]
  cases hget : get record (.str "research_go") with
  | none => rfl
  | some v =>
    have hv := isSome_of_get hdump hget
    have hvd := distinct_of_get hd hget
    cases v with
    | list items => rw [Option.map_some, reread_list hv]; rfl
    | tuple items => rw [Option.map_some, reread_tuple, reread_list hv]; rfl
    | dict researchGo =>
      rw [Option.map_some, reread_dict hv, map_append, ← declaredCodes_reread hvd hv (by decide),
        ← declaredCodes_reread hvd hv (by decide)]
    | _ => rfl

omit hd in
theorem isSome_declaredCodes (field : String) : ∀ v ∈ declaredCodes record field, (dumps py v).isSome := by
  unfold declaredCodes
  split
  next declared hget => exact (dumps_list.mp (dumps_of_isSome (isSome_of_get hdump hget))).1
  next declared hget =>
    have hv : (dumps py (.tuple declared)).isSome := isSome_of_get hdump hget
    exact (dumps_list.mp (dumps_of_isSome hv)).1
  next => exact fun v hv => absurd hv not_mem_nil

omit hd in
theorem isSome_reasonCodes : ∀ v ∈ reasonCodes record, (dumps py v).isSome := by
  unfold reasonCodes
  split
  next researchGo hget =>
    have hv := isSome_of_get hdump hget
    intro v hmem
    rcases mem_append.mp hmem with h | h
    all_goals exact isSome_declaredCodes hv _ v h
  next => exact fun v hv => absurd hv not_mem_nil

end Admission

def reachesTuple : List Value → Bool
  | [] => false
  | .tuple _ :: _ => true
  | code :: rest => !isIntegrityCode code && reachesTuple rest

theorem isIntegrityCode_reread (h : (dumps py v).isSome) : isIntegrityCode (reread py v) = isIntegrityCode v := by
  cases v with
  | list items => rw [reread_list h]; rfl
  | tuple items => rw [reread_tuple, reread_list h]; rfl
  | dict d => rw [reread_dict h]; rfl
  | _ => rfl

theorem hashable_reread (h : (dumps py v).isSome) (htuple : ∀ items, v ≠ .tuple items) :
    hashable (reread py v) = hashable v := by
  cases v with
  | list items => rw [reread_list h]; rfl
  | tuple items => exact absurd rfl (htuple items)
  | dict d => rw [reread_dict h]; rfl
  | _ => rfl

theorem isDisjoint_reread : ∀ {codes : List Value} {disjoint : Bool}, (∀ v ∈ codes, (dumps py v).isSome) →
    isDisjoint codes = .ok disjoint →
    isDisjoint (codes.map (reread py)) = if reachesTuple codes then .error .typeError else .ok disjoint
  | [], _, _, h => h
  | code :: rest, disjoint, hall, h => by
    obtain ⟨hcode, hrest⟩ := forall_mem_cons.mp hall
    by_cases htuple : ∃ items, code = .tuple items
    · obtain ⟨items, rfl⟩ := htuple
      have hunhashable : hashable (reread py (.tuple items)) = false := by rw [reread_tuple, reread_list hcode]; rfl
      rw [map_cons, isDisjoint, hunhashable]; rfl
    · have hne : ∀ items, code ≠ .tuple items := fun items heq => htuple ⟨items, heq⟩
      have hreaches : reachesTuple (code :: rest) = (!isIntegrityCode code && reachesTuple rest) := by
        cases code <;> first | rfl | exact absurd rfl (hne _)
      rw [isDisjoint] at h
      rw [map_cons, isDisjoint, hashable_reread hcode hne, isIntegrityCode_reread hcode, hreaches]
      split at h
      next hhash =>
        rw [if_pos hhash]
        split at h
        next hintegrity => rw [hintegrity, h]; rfl
        next hintegrity =>
          rw [isDisjoint_reread hrest h, Bool.eq_false_iff.mpr hintegrity]; rfl
      next => cases h

variable {record : Dict}

theorem isTrialRecord_reread (hd : (Value.dict record).Distinct)
    (hdump : (dumps py (.dict record)).isSome) {admitted : Bool} (h : isTrialRecord record = .ok admitted) :
    isTrialRecord (rereadDict py record)
      = if isComplete record ∧ reachesTuple (reasonCodes record) then .error .typeError else .ok admitted := by
  unfold isTrialRecord at h ⊢
  rw [isComplete_reread hd hdump, hasFiniteBlendSharpe_reread hd hdump]
  cases hcomplete : isComplete record with
  | false => rw [hcomplete] at h; exact h
  | true =>
    rw [hcomplete] at h
    rw [if_pos rfl]
    unfold carriesDataIntegrityCode at h ⊢
    rw [reasonCodes_reread hd hdump, isEmpty_map]
    split
    next hempty =>
      rw [if_pos hempty] at h
      rw [isEmpty_iff.mp hempty]; exact h
    next hempty =>
      rw [if_neg hempty] at h
      cases hdisjoint : isDisjoint (reasonCodes record) with
      | error e => rw [hdisjoint] at h; cases h
      | ok disjoint =>
        rw [hdisjoint] at h
        rw [isDisjoint_reread (isSome_reasonCodes hdump) hdisjoint]
        cases hreaches : reachesTuple (reasonCodes record) with
        | false => simpa using h
        | true => rfl

/-! ## §3 The fields of an identity key -/

theorem nodup_trialIdentityBaseline : (trialIdentityBaseline.map Prod.fst).Nodup := by decide +kernel

def isScalar : Value → Bool
  | .none | .bool _ | .int _ | .float _ | .str _ => true
  | .list _ | .tuple _ | .dict _ => false

theorem isScalar_baseline : ∀ e ∈ trialIdentityBaseline, isScalar e.2 := by decide

theorem isSome_of_isScalar (h : isScalar v) : (dumps py v).isSome := by
  cases v <;> first | rfl | cases h

theorem reread_of_isScalar (h : isScalar v) : reread py v = v := by
  cases v <;> first | rfl | cases h

section

variable {v b : Value} (hv : (dumps py v).isSome) (hb : isScalar b)

include hv hb

theorem reread_eq_iff : reread py v = b ↔ v = b := by
  constructor
  · intro h
    cases v with
    | list items => rw [← h, reread_list hv] at hb; cases hb
    | tuple items => rw [← h, reread_tuple, reread_list hv] at hb; cases hb
    | dict d => rw [← h, reread_dict hv] at hb; cases hb
    | _ => exact h
  · rintro rfl; exact reread_of_isScalar hb

theorem eq_of_dumped_eq (h : dumped py v = dumped py b) :
    v = b := by
  rw [← reread_eq_iff hv hb, reread, h, ← reread, reread_of_isScalar hb]

end

theorem isSome_reread (v : Value) : (dumps py (reread py v)).isSome := isSome_dumps_loads _

theorem lookup_of_mem {baseline : Value} (h : (name, baseline) ∈ trialIdentityBaseline) :
    trialIdentityBaseline.lookup name = some baseline := by
  have hnodup := nodup_trialIdentityBaseline
  generalize trialIdentityBaseline = table at h hnodup
  induction table with
  | nil => exact absurd h not_mem_nil
  | cons e rest ih =>
    obtain ⟨hnot, hrest⟩ := nodup_cons.mp hnodup
    rcases mem_cons.mp h with rfl | hmem
    · exact lookup_cons_self
    · have hne : (name == e.1) = false := by
        refine beq_eq_false_iff_ne.mpr fun heq => hnot ?_
        exact heq ▸ mem_map.mpr ⟨_, hmem, rfl⟩
      rw [lookup_cons, hne]; exact ih hmem hrest

theorem mem_of_lookup {baseline : Value} (h : trialIdentityBaseline.lookup name = some baseline) :
    (name, baseline) ∈ trialIdentityBaseline := by
  generalize trialIdentityBaseline = table at h
  induction table with
  | nil => cases h
  | cons e rest ih =>
    rw [lookup_cons] at h
    split at h
    next heq =>
      cases h
      rw [eq_of_beq heq]; exact mem_cons_self
    next => exact mem_cons_of_mem _ (ih h)

theorem equalsBaseline_iff {baseline v : Value} (hlookup : trialIdentityBaseline.lookup name = some baseline)
    (hv : (dumps py v).isSome) : equalsBaseline py name v ↔ v = baseline := by
  have hscalar := isScalar_baseline _ (mem_of_lookup hlookup)
  have hb : (dumps py baseline).isSome := isSome_of_isScalar hscalar
  rw [equalsBaseline, hlookup]
  simp only [beq_iff_eq]
  constructor
  · intro h
    rw [dumps_of_isSome hv, dumps_of_isSome hb, Option.some_inj] at h
    exact eq_of_dumped_eq hv hscalar h
  · rintro rfl; rfl

theorem get_append (d d' : Dict) (key : Key) : get (d ++ d') key = (get d key).or (get d' key) := by
  unfold PyJson.get
  rw [find?_append]
  cases d.find? fun e => e.1 = key <;> rfl

def identityValue (py : ItemSort) (record : Dict) (name : String) : Option Value :=
  if name = "params_snapshot" then some (snapshotValue record)
  else
    match trialIdentityBaseline.lookup name with
    | some baseline =>
      let value := registeredValue (flagsOf record) name baseline
      if name ∉ researchNeutralFlags ∧ ¬ equalsBaseline py name value then some value else none
    | none => if name ∈ researchNeutralFlags then none else get (flagsOf record) (.str name)

theorem get_registeredFields (flags : Dict) (name : String) :
    get (registeredFields py flags).reverse (.str name) =
      match trialIdentityBaseline.lookup name with
      | some baseline =>
        let value := registeredValue flags name baseline
        if name ∉ researchNeutralFlags ∧ ¬ equalsBaseline py name value then some value else none
      | none => none := by
  have hmem : ∀ {v : Value}, (Key.str name, v) ∈ (registeredFields py flags).reverse ↔
      ∃ baseline, trialIdentityBaseline.lookup name = some baseline ∧ v = registeredValue flags name baseline
        ∧ name ∉ researchNeutralFlags ∧ ¬ equalsBaseline py name v := by
    intro v
    rw [mem_reverse, registeredFields, mem_filterMap]
    constructor
    · rintro ⟨⟨name', baseline⟩, hb, h⟩
      dsimp only at h
      split at h
      next hkept =>
        cases h; exact ⟨baseline, lookup_of_mem hb, rfl, hkept⟩
      next => cases h
    · rintro ⟨baseline, hb, rfl, hkept⟩; exact ⟨_, mem_of_lookup hb, if_pos hkept⟩
  cases hlookup : trialIdentityBaseline.lookup name with
  | none =>
    refine get_eq_none fun e he hkey => ?_
    obtain ⟨baseline, hb, -⟩ := hmem.mp (show (Key.str name, e.2) ∈ _ from hkey ▸ he)
    rw [hlookup] at hb; cases hb
  | some baseline =>
    show _ = ite _ _ _
    split
    next hkept =>
      refine get_eq_some (hmem.mpr ⟨baseline, hlookup, rfl, hkept⟩) fun e he hkey => ?_
      obtain ⟨b, hb, heq, -⟩ := hmem.mp (show (Key.str name, e.2) ∈ _ from hkey ▸ he)
      rw [hlookup] at hb; cases hb; exact heq
    next hdropped =>
      refine get_eq_none fun e he hkey => ?_
      obtain ⟨b, hb, heq, hkept⟩ := hmem.mp (show (Key.str name, e.2) ∈ _ from hkey ▸ he)
      rw [hlookup] at hb; cases hb; exact hdropped (heq ▸ hkept)

theorem get_unregisteredFields {flags : Dict} (hflags : DistinctKeys flags) (name : String) :
    get (unregisteredFields flags).reverse (.str name) =
      if (trialIdentityBaseline.lookup name).isSome ∨ name ∈ researchNeutralFlags then none
      else get flags (.str name) := by
  have hmem : ∀ {v : Value}, (Key.str name, v) ∈ (unregisteredFields flags).reverse ↔
      (Key.str name, v) ∈ flags ∧ ¬ ((trialIdentityBaseline.lookup name).isSome ∨ name ∈ researchNeutralFlags) := by
    intro v
    rw [mem_reverse, unregisteredFields, mem_filter]
    refine and_congr_right fun _ => ?_
    simp only [Bool.and_eq_true, Bool.not_eq_true', Bool.eq_false_iff, ne_eq, contains_iff_mem, not_or]
  split
  next hdropped =>
    refine get_eq_none fun e he hkey => ?_
    exact (hmem.mp (show (Key.str name, e.2) ∈ _ from hkey ▸ he)).2 hdropped
  next hkept =>
    cases hget : get flags (.str name) with
    | none =>
      refine get_eq_none fun e he hkey => ?_
      have hin := (hmem.mp (show (Key.str name, e.2) ∈ _ from hkey ▸ he)).1
      exact forall_of_get_none hget _ hin rfl
    | some v =>
      have hv := mem_of_get hget
      refine get_eq_some (hmem.mpr ⟨hv, hkept⟩) fun e he hkey => ?_
      have hin := (hmem.mp (show (Key.str name, e.2) ∈ _ from hkey ▸ he)).1
      exact congrArg Prod.snd (hflags.eq_of_str hin hv rfl rfl)

theorem get_normalized (hflags : DistinctKeys (flagsOf record)) (name : String) :
    get (normalized py record) (.str name) = identityValue py record name := by
  rw [normalized, get_dictOf, reverse_append, reverse_append, reverse_singleton, singleton_append,
    ← singleton_append, get_append, get_append, get_registeredFields, get_unregisteredFields hflags, identityValue]
  by_cases hname : name = "params_snapshot"
  · subst hname; rfl
  · have hsnapshot : get [(Key.str "params_snapshot", snapshotValue record)] (.str name) = none :=
      get_eq_none fun e he hkey => by
        rw [mem_singleton.mp he] at hkey; exact hname (Key.str.inj hkey).symm
    rw [hsnapshot, if_neg hname]
    cases trialIdentityBaseline.lookup name with
    | none =>
      by_cases hneutral : name ∈ researchNeutralFlags
      · simp [hneutral]
      · simp [hneutral]
    | some baseline => rfl

/-! ## §4 The identity key of the record that comes back -/

theorem fieldsOf_singleton (e : Key × Value) : fieldsOf py [e] = [(e.1.text, dumped py e.2)] :=
  perm_singleton.mp (fieldsOf_perm [e])

theorem reread_note (name note : String) : reread py
    (.dict [(.str name, .str note)]) = .dict [(.str name, .str note)] := by
  have hdump : (dumps py (.dict [(.str name, .str note)])).isSome := by
    rfl
  rw [reread_dict hdump, rereadDict, fieldsOf_singleton]; rfl

section Identity

variable {record : Dict} (hd : (Value.dict record).Distinct) (hdump : (dumps py (.dict record)).isSome)

include hd in
theorem distinctKeys_flagsOf : DistinctKeys (flagsOf record) := by
  unfold flagsOf
  split
  next flags hget => exact (distinct_of_get hd hget).1
  next => exact List.Pairwise.nil

include hdump in
theorem isSome_flag {key : Key} {v : Value} (hget : get (flagsOf record) key = some v) : (dumps py v).isSome := by
  unfold flagsOf at hget
  split at hget
  next flags hflags => exact isSome_of_get (isSome_of_get hdump hflags) hget
  next => cases hget

include hd hdump

theorem flagsOf_reread : flagsOf (rereadDict py record) = rereadDict py (flagsOf record) := by
  unfold flagsOf
  rw [get_rereadDict_word hd.1 (by decide)]
  cases hget : get record (.str "flags") with
  | none => exact rereadDict_nil.symm
  | some v =>
    have hv := isSome_of_get hdump hget
    cases v with
    | list items => rw [Option.map_some, reread_list hv]; exact rereadDict_nil.symm
    | tuple items => rw [Option.map_some, reread_tuple, reread_list hv]; exact rereadDict_nil.symm
    | dict d => rw [Option.map_some, reread_dict hv]
    | _ => exact rereadDict_nil.symm

theorem snapshotValue_reread (htuple : ∀ items, get record (.str "params_snapshot") ≠ some (.tuple items)) :
    snapshotValue (rereadDict py record) = reread py (snapshotValue record) := by
  unfold snapshotValue
  rw [get_rereadDict_word hd.1 (by decide)]
  cases hget : get record (.str "params_snapshot") with
  | none => exact (reread_note _ _).symm
  | some v =>
    have hv := isSome_of_get hdump hget
    cases v with
    | list items => rw [Option.map_some, reread_list hv]; exact (reread_note _ _).symm
    | tuple items => exact absurd hget (htuple items)
    | dict d => rw [Option.map_some, reread_dict hv]
    | _ => exact (reread_note _ _).symm

variable (hstr : ∀ e ∈ flagsOf record, e.1.isStr)

include hstr

variable {name : String}

theorem registeredValue_reread {baseline : Value} (hscalar : isScalar baseline) :
    registeredValue (flagsOf (rereadDict py record)) name baseline
      = reread py (registeredValue (flagsOf record) name baseline) := by
  unfold registeredValue
  rw [flagsOf_reread hd hdump, get_rereadDict_strings (distinctKeys_flagsOf hd) hstr]
  cases hget : get (flagsOf record) (.str name) with
  | none =>
    show ite _ _ _ = reread py (ite _ _ _)
    split
    · rfl
    · exact (reread_of_isScalar hscalar).symm
  | some v =>
    have hv := isSome_flag hdump hget
    cases v with
    | none => exact (reread_of_isScalar hscalar).symm
    | list items => rw [Option.map_some, reread_list hv]
    | tuple items => rw [Option.map_some, reread_tuple, reread_list hv]
    | dict d => rw [Option.map_some, reread_dict hv]
    | _ => rfl

omit hd hstr in
theorem isSome_registeredValue {baseline : Value} (hscalar : isScalar baseline) :
    (dumps py (registeredValue (flagsOf record) name baseline)).isSome := by
  unfold registeredValue
  split
  next => exact isSome_of_isScalar hscalar
  next v hget => exact isSome_flag hdump hget
  next =>
    split
    · rfl
    · exact isSome_of_isScalar hscalar

theorem identityValue_reread (hname : name ≠ "params_snapshot") :
    identityValue py (rereadDict py record) name = (identityValue py record name).map (reread py) := by
  unfold identityValue
  rw [if_neg hname]
  cases hlookup : trialIdentityBaseline.lookup name with
  | none =>
    show ite _ _ _ = Option.map _ (ite _ _ _)
    split
    · rfl
    · rw [flagsOf_reread hd hdump]; exact get_rereadDict_strings (distinctKeys_flagsOf hd) hstr name
  | some baseline =>
    have hscalar := isScalar_baseline _ (mem_of_lookup hlookup)
    have hv : (dumps py (registeredValue (flagsOf record) name baseline)).isSome :=
      isSome_registeredValue hdump hscalar
    have hequals : equalsBaseline py name (reread py (registeredValue (flagsOf record) name baseline))
        = equalsBaseline py name (registeredValue (flagsOf record) name baseline) := by
      rw [Bool.eq_iff_iff, equalsBaseline_iff hlookup hv, equalsBaseline_iff hlookup (isSome_reread _),
        reread_eq_iff hv hscalar]
    simp only [registeredValue_reread hd hdump hstr hscalar, hequals]
    split <;> rfl

end Identity

/-! ## §5 Keys as objects -/

theorem nodup_normalized (record : Dict) : ((normalized py record).map Prod.fst).Nodup := nodup_keys_dictOf _

theorem isStr_normalized (h : ∀ e ∈ flagsOf record, e.1.isStr) : ∀ e ∈ normalized py record, e.1.isStr := by
  refine forall_dictOf fun e he => ?_
  rcases mem_append.mp he with he | he
  · rcases mem_append.mp he with he | he
    · obtain ⟨row, _, hrow⟩ := mem_filterMap.mp he
      dsimp only at hrow
      split at hrow
      next => cases hrow; rfl
      next => cases hrow
    · exact h e (mem_filter.mp he).1
  · rw [mem_singleton.mp he]; rfl

theorem snapshot_mem_normalized (record : Dict) : ∃ v, (Key.str "params_snapshot", v) ∈ normalized py record :=
  mem_keys_dictOf (e := (.str "params_snapshot", snapshotValue record)) (by simp)

theorem trialIdentityKey_ok {key : Text} (h : trialIdentityKey py record = .ok key) :
    (∀ e ∈ flagsOf record, e.1.isStr) ∧ (∀ e ∈ normalized py record, (dumps py e.2).isSome)
      ∧ key = .obj (fieldsOf py (normalized py record)) := by
  rw [trialIdentityKey, identityDump] at h
  cases hdumps : dumps py (.dict (normalized py record)) with
  | none => rw [hdumps] at h; cases h
  | some t =>
    rw [hdumps] at h
    cases h
    obtain ⟨hall, hsort, rfl⟩ := dumps_dict.mp hdumps
    refine ⟨fun e he => ?_, hall, rfl⟩
    by_contra hnot
    obtain ⟨s, hs⟩ := @snapshot_mem_normalized py record
    obtain ⟨v, hv⟩ : ∃ v, (e.1, v) ∈ normalized py record := by
      refine mem_keys_dictOf (e := e) ?_
      refine mem_append_left _ (mem_append_right _ (mem_filter.mpr ⟨he, ?_⟩))
      cases hkey : e.1 <;> first | rfl | (rw [hkey] at hnot; exact absurd rfl hnot)
    have hs' : Key.str "params_snapshot" ∈ (normalized py record).map Prod.fst := mem_map.mpr ⟨_, hs, rfl⟩
    have hv' : e.1 ∈ (normalized py record).map Prod.fst := mem_map.mpr ⟨_, hv, rfl⟩
    rw [sortable, Bool.or_eq_true, Bool.or_eq_true, decide_eq_true_eq, all_eq_true, all_eq_true] at hsort
    rcases hsort with (hone | hstr) | hnumber
    · have heq : e.1 = .str "params_snapshot" := mem_singleton.mp <| by
        obtain ⟨k, hk⟩ := length_eq_one_iff.mp (le_antisymm hone (length_pos_of_mem hs'))
        rw [hk] at hs' hv'; rwa [mem_singleton.mp hs']
      rw [heq] at hnot; exact hnot rfl
    · exact hnot (hstr _ hv')
    · exact absurd (hnumber _ hs') (by decide)

theorem trialIdentityKey_eq_ok (hstr : ∀ e ∈ flagsOf record, e.1.isStr)
    (hall : ∀ e ∈ normalized py record, (dumps py e.2).isSome) :
    trialIdentityKey py record = .ok (.obj (fieldsOf py (normalized py record))) := by
  rw [trialIdentityKey, identityDump, dumps_strings (isStr_normalized hstr) hall]; rfl

theorem mem_fields_iff (hflags : DistinctKeys (flagsOf record))
    (hstr : ∀ e ∈ flagsOf record, e.1.isStr) {t : Text} :
    (name, t) ∈ fieldsOf py (normalized py record)
      ↔ ∃ v, identityValue py record name = some v ∧ t = dumped py v := by
  rw [(fieldsOf_perm _).mem_iff, mem_map]
  constructor
  · rintro ⟨e, he, heq⟩
    have hestr := isStr_normalized hstr e he
    obtain ⟨key, v⟩ := e
    cases key <;> simp only [Key.isStr, Bool.false_eq_true] at hestr
    cases heq
    exact ⟨v, by rw [← get_normalized hflags]; exact (mem_iff_get (nodup_normalized record)).mp he, rfl⟩
  · rintro ⟨v, hv, rfl⟩
    rw [← get_normalized hflags] at hv
    exact ⟨_, (mem_iff_get (nodup_normalized record)).mpr hv, rfl⟩

theorem fields_increasing (hstr : ∀ e ∈ flagsOf record, e.1.isStr) :
    (fieldsOf py (normalized py record)).Pairwise fun e f => e.1 < f.1 :=
  fieldsOf_increasing (isStr_normalized hstr) (nodup_normalized record)

/-! ## §6 Which identities are stable -/

section Stable

variable {record : Dict} (hd : (Value.dict record).Distinct) (hdump : (dumps py (.dict record)).isSome) {key : Text}
  (hkey : trialIdentityKey py record = .ok key)

include hd hdump hkey

theorem exists_trialIdentityKey_reread : ∃ fields, trialIdentityKey py (rereadDict py record) = .ok (.obj fields)
    ∧ (fields.Pairwise fun e f => e.1 < f.1) ∧ ∀ name t, (name, t) ∈ fields ↔
      ∃ v, identityValue py (rereadDict py record) name = some v ∧ t = dumped py v := by
  obtain ⟨hstr, -, -⟩ := trialIdentityKey_ok hkey
  have hstr' : ∀ e ∈ flagsOf (rereadDict py record), e.1.isStr := by
    rw [flagsOf_reread hd hdump]; exact isStr_rereadDict _
  have hflags' : DistinctKeys (flagsOf (rereadDict py record)) := by
    rw [flagsOf_reread hd hdump]; exact distinctKeys_rereadDict _
  refine ⟨_, trialIdentityKey_eq_ok hstr' fun e he => ?_, fields_increasing hstr', fun name t =>
    mem_fields_iff hflags' hstr'⟩
  have hestr := isStr_normalized hstr' e he
  obtain ⟨key, v⟩ := e
  cases key <;> simp only [Key.isStr, Bool.false_eq_true] at hestr
  rename_i name
  have hget := (mem_iff_get (nodup_normalized _)).mp he
  rw [get_normalized hflags'] at hget
  by_cases hname : name = "params_snapshot"
  · subst hname
    rw [identityValue, if_pos rfl, Option.some_inj, snapshotValue] at hget
    subst hget
    split
    next snapshot hsnapshot =>
      rw [get_rereadDict_word hd.1 (by decide)] at hsnapshot
      obtain ⟨v, -, heq⟩ := Option.map_eq_some_iff.mp hsnapshot
      rw [← heq]; exact isSome_reread v
    next => rw [← reread_note]; exact isSome_reread _
    next => rw [← reread_note]; exact isSome_reread _
  · rw [identityValue_reread hd hdump hstr hname] at hget
    obtain ⟨v, -, rfl⟩ := Option.map_eq_some_iff.mp hget; exact isSome_reread v

theorem trialIdentityKey_reread (htuple : ∀ items, get record (.str "params_snapshot") ≠ some (.tuple items)) :
    trialIdentityKey py (rereadDict py record) = .ok (rewritten py key) := by
  obtain ⟨hstr, -, rfl⟩ := trialIdentityKey_ok hkey
  obtain ⟨fields, hfields, hincreasing, hmem⟩ := exists_trialIdentityKey_reread hd hdump hkey
  rw [hfields, rewritten_increasing (fields_increasing hstr)]
  have hmapped : ((fieldsOf py (normalized py record)).map fun e => (e.1, rewritten py e.2)).Pairwise
      fun e f => e.1 < f.1 := pairwise_map.mpr (fields_increasing hstr)
  have hvalues : ∀ name, identityValue py (rereadDict py record) name
      = (identityValue py record name).map (reread py) := by
    intro name
    by_cases hname : name = "params_snapshot"
    · subst hname
      show some _ = Option.map _ (some _)
      rw [snapshotValue_reread hd hdump htuple, Option.map_some]
    · exact identityValue_reread hd hdump hstr hname
  refine congrArg (fun f => Except.ok (JsonTree.obj f)) (fields_eq_of_perm hincreasing hmapped ?_)
  have hnodup : ∀ {F : List (String × Text)}, (F.Pairwise fun e f => e.1 < f.1) → F.Nodup :=
    fun h => h.imp fun hlt heq => hlt.ne (congrArg Prod.fst heq)
  refine (perm_ext_iff_of_nodup (hnodup hincreasing) (hnodup hmapped)).mpr fun ⟨name, t⟩ => ?_
  rw [hmem, hvalues, mem_map]
  constructor
  · rintro ⟨v', hv', rfl⟩
    obtain ⟨v, hv, rfl⟩ := Option.map_eq_some_iff.mp hv'
    exact ⟨(name, dumped py v), (mem_fields_iff (distinctKeys_flagsOf hd) hstr).mpr ⟨v, hv, rfl⟩, rfl⟩
  · rintro ⟨⟨name', t'⟩, hin, heq⟩
    obtain ⟨v, hv, rfl⟩ := (mem_fields_iff (distinctKeys_flagsOf hd) hstr).mp hin
    cases heq; exact ⟨_, Option.map_eq_some_iff.mpr ⟨v, hv, rfl⟩, rfl⟩

theorem trialIdentityKey_reread_of_tuple {items : List Value}
    (htuple : get record (.str "params_snapshot") = some (.tuple items)) :
    trialIdentityKey py (rereadDict py record) ≠ .ok key := by
  obtain ⟨hstr, -, rfl⟩ := trialIdentityKey_ok hkey
  obtain ⟨fields, hfields, -, hmem⟩ := exists_trialIdentityKey_reread hd hdump hkey
  intro hsame
  rw [hfields] at hsame
  cases hsame
  have hv : (dumps py (.tuple items)).isSome := isSome_of_get hdump htuple
  have hnote : ∀ note : String, dumped py (.dict [(.str "__legacy_params_snapshot__", .str note)])
      = .obj [("__legacy_params_snapshot__", .str note)] := by
    intro note
    rw [dumped_of_eq (dumps_strings (by simp [Key.isStr]) (by simp; rfl)), fieldsOf_singleton]; rfl
  have hvalue : identityValue py record "params_snapshot" = some (snapshotValue record) := rfl
  have hfield := (mem_fields_iff (distinctKeys_flagsOf hd) hstr).mpr ⟨_, hvalue, rfl⟩
  obtain ⟨v, hvalue', hdumped⟩ := (hmem _ _).mp hfield
  cases hvalue'
  rw [snapshotValue, snapshotValue, get_rereadDict_word hd.1 (by decide), htuple, Option.map_some, reread_tuple,
    reread_list (by assumption)] at hdumped
  simp only [hnote, typeName] at hdumped; simp at hdumped

end Stable

/-- What a record must be for its key to survive the round trip: its snapshot is no tuple, and each
dictionary of the snapshot and of the kept flags has its keys in the same order before and after
they are texts. -/
structure StableIdentity (py : ItemSort) (record : Dict) : Prop where
  flags : ∀ name value, (Key.str name, value) ∈ flagsOf record → name ∉ researchNeutralFlags →
    name ≠ "params_snapshot" → InTextOrder py value
  snapshot : ∀ entries, get record (.str "params_snapshot") = some (.dict entries) → InTextOrder py (.dict entries)
  noTuple : ∀ items, get record (.str "params_snapshot") ≠ some (.tuple items)

theorem inTextOrder_of_isScalar (h : isScalar v) : InTextOrder py v := by
  cases v <;> trivial

theorem inTextOrder_note (name note : String) : InTextOrder py (.dict [(.str name, .str note)]) := by
  rw [InTextOrder, fieldsOf_singleton]; exact ⟨pairwise_singleton _ _, trivial, trivial⟩

section Stable

variable {record : Dict} (hd : (Value.dict record).Distinct) {key : Text}
  (hkey : trialIdentityKey py record = .ok key)

include hd hkey

theorem canonical_key_iff : Canonical key ↔ ∀ name v, identityValue py record name = some v → InTextOrder py v := by
  obtain ⟨hstr, hall, rfl⟩ := trialIdentityKey_ok hkey
  have hflags := distinctKeys_flagsOf hd
  have hsome : ∀ {name v}, identityValue py record name = some v → (dumps py v).isSome := by
    intro name v hv
    rw [← get_normalized hflags] at hv; exact hall _ (mem_of_get hv)
  rw [Canonical, and_iff_right (fields_increasing hstr), canonicalFields_iff]
  constructor
  · intro h name v hv
    exact (canonical_dumped_iff v (hsome hv)).mp (h _ ((mem_fields_iff hflags hstr).mpr ⟨v, hv, rfl⟩))
  · rintro h ⟨name, t⟩ ht
    obtain ⟨v, hv, rfl⟩ := (mem_fields_iff hflags hstr).mp ht
    exact (canonical_dumped_iff v (hsome hv)).mpr (h name v hv)

omit hkey in
theorem identityValues_inTextOrder_iff (hdump : (dumps py (.dict record)).isSome) :
    (∀ name v, identityValue py record name = some v → InTextOrder py v)
      ↔ (∀ name value, (Key.str name, value) ∈ flagsOf record → name ∉ researchNeutralFlags →
          name ≠ "params_snapshot" → InTextOrder py value)
        ∧ ∀ entries, get record (.str "params_snapshot") = some (.dict entries) →
          InTextOrder py (.dict entries) := by
  constructor
  · refine fun h => ⟨fun name value hmem hneutral hname => ?_, fun entries hentries => ?_⟩
    · have hget : get (flagsOf record) (.str name) = some value :=
        get_eq_some hmem fun e he heq => congrArg Prod.snd ((distinctKeys_flagsOf hd).eq_of_str he hmem heq rfl)
      cases hlookup : trialIdentityBaseline.lookup name with
      | none =>
        refine h name value ?_
        rw [identityValue, if_neg hname, hlookup]; exact (if_neg hneutral).trans hget
      | some baseline =>
        by_cases hscalar : isScalar value
        · exact inTextOrder_of_isScalar hscalar
        · have hvalue : registeredValue (flagsOf record) name baseline = value := by
            rw [registeredValue, hget]
            cases value <;> first | rfl | exact absurd rfl hscalar
          have hdiffers : ¬ equalsBaseline py name value := by
            rw [equalsBaseline_iff hlookup (isSome_flag hdump hget)]
            rintro rfl; exact hscalar (isScalar_baseline _ (mem_of_lookup hlookup))
          refine h name value ?_
          rw [identityValue, if_neg hname, hlookup]
          simp only [hvalue]; exact if_pos ⟨hneutral, hdiffers⟩
    · refine h "params_snapshot" (.dict entries) ?_
      rw [identityValue, if_pos rfl, snapshotValue, hentries]
  · rintro ⟨hflags, hsnapshot⟩ name v hv
    unfold identityValue at hv
    split at hv
    next hname =>
      cases hv
      unfold snapshotValue
      split
      next entries hentries => exact hsnapshot entries hentries
      next => exact inTextOrder_note _ _
      next => exact inTextOrder_note _ _
    next hname =>
      split at hv
      next baseline hlookup =>
        have hscalar := isScalar_baseline _ (mem_of_lookup hlookup)
        dsimp only at hv
        split at hv
        next hkept =>
          cases hv
          unfold registeredValue
          split
          next => exact inTextOrder_of_isScalar hscalar
          next value _ hget => exact hflags name value (mem_of_get hget) hkept.1 hname
          next =>
            split
            · exact inTextOrder_of_isScalar rfl
            · exact inTextOrder_of_isScalar hscalar
        next => cases hv
      next =>
        split at hv
        next => cases hv
        next hneutral => exact hflags name v (mem_of_get hv) hneutral hname

theorem trialIdentityKey_reread_iff (hdump : (dumps py (.dict record)).isSome) :
    trialIdentityKey py (rereadDict py record) = .ok key ↔ StableIdentity py record := by
  by_cases htuple : ∃ items, get record (.str "params_snapshot") = some (.tuple items)
  · obtain ⟨items, hitems⟩ := htuple
    exact iff_of_false (trialIdentityKey_reread_of_tuple hd hdump hkey hitems) fun h => h.noTuple items hitems
  · have hno : ∀ items, get record (.str "params_snapshot") ≠ some (.tuple items) :=
      fun items h => htuple ⟨items, h⟩
    rw [trialIdentityKey_reread hd hdump hkey hno, Except.ok.injEq, rewritten_eq_self_iff,
      canonical_key_iff hd hkey,
      identityValues_inTextOrder_iff hd hdump]
    exact ⟨fun h => ⟨h.1, h.2, hno⟩, fun h => ⟨h.flags, h.snapshot⟩⟩

theorem sparseIdentityKey_key : sparseIdentityKey py key = .ok (rewritten py key) := by
  obtain ⟨hstr, hall, rfl⟩ := trialIdentityKey_ok hkey
  have hflags := distinctKeys_flagsOf hd
  have hincreasing := @fields_increasing py _ hstr
  have hkept : ∀ e ∈ pairsOf (fieldsOf py (normalized py record)), staysInKey py e = true := by
    intro e he
    obtain ⟨⟨name, t⟩, hin, rfl⟩ := mem_map.mp he
    obtain ⟨v, hv, rfl⟩ := (mem_fields_iff hflags hstr).mp hin
    cases hequals : equalsBaseline py name (loads (dumped py v)) with
    | false =>
      show (!equalsBaseline py name (loads (dumped py v))) = true
      rw [hequals]; rfl
    | true =>
      exfalso
      cases hlookup : trialIdentityBaseline.lookup name with
      | none => rw [equalsBaseline, hlookup] at hequals; cases hequals
      | some baseline =>
        have hscalar := isScalar_baseline _ (mem_of_lookup hlookup)
        have hsome : (dumps py v).isSome := by
          rw [← get_normalized hflags] at hv; exact hall _ (mem_of_get hv)
        have heq : v = baseline :=
          (reread_eq_iff hsome hscalar).mp ((equalsBaseline_iff hlookup (isSome_reread v)).mp hequals)
        have hname : name ≠ "params_snapshot" := by
          rintro rfl; cases hlookup
        rw [identityValue, if_neg hname, hlookup] at hv
        dsimp only at hv
        split at hv
        next hdiffers =>
          cases hv; exact hdiffers.2 ((equalsBaseline_iff hlookup hsome).mpr heq)
        next => cases hv
  rw [sparseIdentityKey, loads_obj, dictOf_pairsOf hincreasing]
  show identityDump py (.dict (List.filter _ _)) = _
  rw [filter_eq_self.mpr hkept, identityDump, ← dictOf_pairsOf hincreasing, ← loads_obj, dumps_loads]
  rfl

end Stable

end CryptoPilot.Research
