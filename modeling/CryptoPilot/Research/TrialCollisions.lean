/- # TrialCollisions — when two records share an identity key.

The key holds the snapshot under a name of the flags' own space, and codes one that is no mapping as
a mapping.  Two records collide where a flag has that name, or where a mapping is the code of the
other's snapshot. -/
import CryptoPilot.Research.TrialRoundTrip

namespace CryptoPilot.Research

open Lib Lib.PyJson List

variable {py : ItemSort} {record other : Dict} {key key' : Text} {name : String}

/-! ## §1 The decision path -/

section Path

variable (py) (record other : Dict)

/-- Every registered field that is not neutral has the same effective value; values are compared by
their texts. -/
def RegisteredAgree : Prop :=
  ∀ name baseline, trialIdentityBaseline.lookup name = some baseline → name ∉ researchNeutralFlags →
    dumps py (registeredValue (flagsOf record) name baseline) =
      dumps py (registeredValue (flagsOf other) name baseline)

def FlagAgrees (name : String) : Prop :=
  (get (flagsOf record) (.str name)).map (dumps py) = (get (flagsOf other) (.str name)).map (dumps py)

/-- The flags whose names are not registered, not neutral and meet `kept`. -/
def UnregisteredAgree (kept : String → Prop) : Prop :=
  ∀ name, trialIdentityBaseline.lookup name = none → name ∉ researchNeutralFlags → kept name →
    FlagAgrees py record other name

/-- The snapshots are equal mappings, missing in both, or in both no mappings and of one type. -/
def SnapshotsAgree : Prop :=
  match get record (.str "params_snapshot"), get other (.str "params_snapshot") with
  | some (.dict entries), some (.dict entries') => dumps py (.dict entries) = dumps py (.dict entries')
  | some (.dict _), _ => False
  | _, some (.dict _) => False
  | v, w => v.map typeName = w.map typeName

/-- The snapshot of `record` is a mapping, and that of `other`, which is none, is coded as it. -/
def MistakenSnapshot : Prop :=
  ∃ entries, get record (.str "params_snapshot") = some (.dict entries) ∧
    (∀ entries', get other (.str "params_snapshot") ≠ some (.dict entries')) ∧
    dumps py (.dict entries) = dumps py (snapshotValue other)

end Path

/-! ## §2 Equal keys -/

section Keys

variable (hd : (Value.dict record).Distinct) (hkey : trialIdentityKey py record = .ok key)

include hd hkey

theorem mem_key_iff : ∃ fields, key = .obj fields ∧ (fields.Pairwise fun e f => e.1 < f.1) ∧
    ∀ name t, (name, t) ∈ fields ↔ (identityValue py record name).map (dumps py) = some (some t) := by
  obtain ⟨hstr, hall, rfl⟩ := trialIdentityKey_ok hkey
  have hflags := distinctKeys_flagsOf hd
  refine ⟨_, rfl, fields_increasing hstr, fun name t => ?_⟩
  rw [mem_fields_iff hflags hstr, Option.map_eq_some_iff]
  refine exists_congr fun v => and_congr_right fun hv => ?_
  rw [← get_normalized hflags] at hv
  rw [dumps_of_isSome (hall _ (mem_of_get hv)), Option.some_inj, eq_comm]

theorem dumps_identityValue {v : Value} (hv : identityValue py record name = some v) :
    dumps py v = some (dumped py v) := by
  rw [← get_normalized (distinctKeys_flagsOf hd)] at hv
  exact dumps_of_isSome ((trialIdentityKey_ok hkey).2.1 _ (mem_of_get hv))

variable (hd' : (Value.dict other).Distinct) (hkey' : trialIdentityKey py other = .ok key')

include hd' hkey'

theorem key_eq_iff : key = key' ↔
    ∀ name, (identityValue py record name).map (dumps py) = (identityValue py other name).map (dumps py) := by
  obtain ⟨fields, rfl, hincreasing, hmem⟩ := mem_key_iff hd hkey
  obtain ⟨fields', rfl, hincreasing', hmem'⟩ := mem_key_iff hd' hkey'
  rw [JsonTree.obj.injEq]
  constructor
  · rintro rfl name
    have htext := fun t => (hmem name t).symm.trans (hmem' name t)
    cases hv : identityValue py record name with
    | some v =>
      rw [hv, Option.map_some, dumps_identityValue hd hkey hv] at htext
      rw [Option.map_some, dumps_identityValue hd hkey hv]; exact ((htext _).mp rfl).symm
    | none =>
      cases hw : identityValue py other name with
      | none => rfl
      | some w =>
        rw [hv, hw, Option.map_some, dumps_identityValue hd' hkey' hw] at htext
        cases (htext _).mpr rfl
  · intro h
    refine fields_eq_of_perm hincreasing hincreasing' ?_
    have hnodup : ∀ {l : List (String × Text)}, (l.Pairwise fun e f => e.1 < f.1) → l.Nodup :=
      fun hl => hl.imp fun hlt heq => by
        subst heq; exact lt_irrefl _ hlt
    refine (perm_ext_iff_of_nodup (hnodup hincreasing) (hnodup hincreasing')).mpr fun e => ?_
    rw [hmem e.1 e.2, hmem' e.1 e.2, h e.1]

end Keys

theorem registered_text_iff {baseline : Value} (hlookup : trialIdentityBaseline.lookup name = some baseline) :
    (identityValue py record name).map (dumps py) = (identityValue py other name).map (dumps py) ↔
      (name ∉ researchNeutralFlags → dumps py (registeredValue (flagsOf record) name baseline) =
        dumps py (registeredValue (flagsOf other) name baseline)) := by
  have hname : name ≠ "params_snapshot" := by
    rintro rfl; cases hlookup
  rw [identityValue, identityValue, if_neg hname, if_neg hname]
  by_cases hneutral : name ∈ researchNeutralFlags
  · simp [hneutral]
  · simp only [hneutral, not_false_eq_true, true_and, forall_const, equalsBaseline, hlookup, beq_iff_eq]
    split_ifs with h h' h' <;> simp <;> grind

theorem unregistered_text_iff (hlookup : trialIdentityBaseline.lookup name = none)
    (hname : name ≠ "params_snapshot") :
    (identityValue py record name).map (dumps py) = (identityValue py other name).map (dumps py) ↔
      (name ∉ researchNeutralFlags → FlagAgrees py record other name) := by
  rw [identityValue, identityValue, if_neg hname, if_neg hname, hlookup, FlagAgrees]
  by_cases hneutral : name ∈ researchNeutralFlags <;> simp [hneutral]

def snapshotNote : Option Value → String
  | none => "missing"
  | some v => "non-mapping:" ++ typeName v

theorem snapshotNote_inj {v w : Option Value} : snapshotNote v = snapshotNote w ↔ v.map typeName =
    w.map typeName := by
  have hmissing : ∀ t : String, "missing" ≠ "non-mapping:" ++ t := fun t h => by
    have hhead := congrArg (fun s : String => s.toList.head?) h
    simp [String.toList_append] at hhead
  cases v <;> cases w <;> simp [snapshotNote, hmissing, (hmissing _).symm]

theorem dumps_snapshotValue (h : ∀ entries, get record (.str "params_snapshot") ≠ some (.dict entries)) :
    dumps py (snapshotValue record) = some (.obj [("__legacy_params_snapshot__",
      .str (snapshotNote (get record (.str "params_snapshot"))))]) := by
  have hvalue : snapshotValue record = .dict [(.str "__legacy_params_snapshot__",
      .str (snapshotNote (get record (.str "params_snapshot"))))] := by
    rw [snapshotValue]
    split
    next entries heq => exact absurd heq (h entries)
    next heq => rw [heq, snapshotNote]
    next v _ heq => rw [heq, snapshotNote]
  rw [hvalue, dumps_strings (by simp [Key.isStr]) (by simp [dumps]), fieldsOf_singleton]; rfl

theorem snapshot_text_iff : dumps py (snapshotValue record) = dumps py (snapshotValue other) ↔
    SnapshotsAgree py record other ∨ MistakenSnapshot py record other ∨ MistakenSnapshot py other record := by
  by_cases hr : ∃ entries, get record (.str "params_snapshot") = some (.dict entries)
  · obtain ⟨entries, hr⟩ := hr
    by_cases ho : ∃ entries, get other (.str "params_snapshot") = some (.dict entries)
    · obtain ⟨entries', ho⟩ := ho; simp [snapshotValue, SnapshotsAgree, MistakenSnapshot, hr, ho]
    · rw [not_exists] at ho
      have hagree : ¬ SnapshotsAgree py record other := by
        rw [SnapshotsAgree]
        split <;> grind
      have hvalue : snapshotValue record = .dict entries := by rw [snapshotValue, hr]
      simp [hagree, MistakenSnapshot, hr, ho, hvalue]
  · rw [not_exists] at hr
    by_cases ho : ∃ entries, get other (.str "params_snapshot") = some (.dict entries)
    · obtain ⟨entries', ho⟩ := ho
      have hagree : ¬ SnapshotsAgree py record other := by
        rw [SnapshotsAgree]
        split <;> grind
      have hvalue : snapshotValue other = .dict entries' := by rw [snapshotValue, ho]
      simp [hagree, MistakenSnapshot, hr, ho, hvalue, eq_comm]
    · rw [not_exists] at ho
      have hagree : SnapshotsAgree py record other ↔ (get record (.str "params_snapshot")).map typeName =
          (get other (.str "params_snapshot")).map typeName := by
        rw [SnapshotsAgree]
        split <;> grind
      rw [dumps_snapshotValue hr, dumps_snapshotValue ho, hagree, ← snapshotNote_inj]
      simp [MistakenSnapshot, hr, ho]

theorem not_snapshotsAgree_of_mistaken (h : MistakenSnapshot py record other ∨ MistakenSnapshot py other record) :
    ¬ SnapshotsAgree py record other := by
  rcases h with ⟨entries, h, hother, -⟩ | ⟨entries, h, hother, -⟩
  all_goals
    rw [SnapshotsAgree]
    split <;> grind

/-! ## §3 The key and the decision path -/

/-- The mappings among the fields of the key have their keys in the order of their texts. -/
def FieldsInTextOrder (py : ItemSort) (record : Dict) : Prop :=
  ∀ name v, identityValue py record name = some v → InTextOrder py v

/-- **When the identity of two records is their decision path**, and when a key is its own sparse
form. -/
theorem identity_is_path_iff (hd : (Value.dict record).Distinct) (hkey : trialIdentityKey py record = .ok key)
    (hd' : (Value.dict other).Distinct) (hkey' : trialIdentityKey py other = .ok key') :
    (key = key' ↔ RegisteredAgree py record other ∧ UnregisteredAgree py record other (fun _ => True) ∧
        SnapshotsAgree py record other) ∧ sparseIdentityKey py key = .ok key ↔
      (RegisteredAgree py record other → UnregisteredAgree py record other (· ≠ "params_snapshot") →
        ¬ MistakenSnapshot py record other ∧ ¬ MistakenSnapshot py other record ∧
          (SnapshotsAgree py record other → FlagAgrees py record other "params_snapshot")) ∧
        FieldsInTextOrder py record := by
  have hnone : trialIdentityBaseline.lookup "params_snapshot" = none := by decide
  have hneutral : "params_snapshot" ∉ researchNeutralFlags := by decide
  have hequal : key = key' ↔ RegisteredAgree py record other ∧
      UnregisteredAgree py record other (· ≠ "params_snapshot") ∧
      dumps py (snapshotValue record) = dumps py (snapshotValue other) := by
    rw [key_eq_iff hd hkey hd' hkey']
    constructor
    · refine fun h => ⟨fun name baseline hlookup => (registered_text_iff hlookup).mp (h name),
        fun name hlookup hn hname => (unregistered_text_iff hlookup hname).mp (h name) hn, ?_⟩
      simpa [identityValue] using h "params_snapshot"
    · rintro ⟨hregistered, hflags, hsnapshot⟩ name
      by_cases hname : name = "params_snapshot"
      · subst hname; simpa [identityValue] using hsnapshot
      cases hlookup : trialIdentityBaseline.lookup name with
      | some baseline => exact (registered_text_iff hlookup).mpr (hregistered name baseline hlookup)
      | none => exact (unregistered_text_iff hlookup hname).mpr fun hn => hflags name hlookup hn hname
  have hall : UnregisteredAgree py record other (fun _ => True) ↔
      UnregisteredAgree py record other (· ≠ "params_snapshot") ∧ FlagAgrees py record other "params_snapshot" := by
    refine ⟨fun h => ⟨fun name hl hn _ => h name hl hn trivial, h _ hnone hneutral trivial⟩, ?_⟩
    rintro ⟨h, hflag⟩ name hl hn -
    by_cases hname : name = "params_snapshot"
    · exact hname ▸ hflag
    · exact h name hl hn hname
  have hsparse : sparseIdentityKey py key = .ok key ↔ FieldsInTextOrder py record := by
    rw [sparseIdentityKey_key hd hkey, Except.ok.injEq, rewritten_eq_self_iff, canonical_key_iff hd hkey]
    rfl
  rw [hequal, hsparse, hall, snapshot_text_iff]
  have hlogic : ∀ {R U F S M M' : Prop}, (M ∨ M' → ¬ S) →
      ((R ∧ U ∧ (S ∨ M ∨ M') ↔ R ∧ (U ∧ F) ∧ S) ↔ (R → U → ¬ M ∧ ¬ M' ∧ (S → F))) := by
    grind
  exact and_congr_left' (hlogic not_snapshotsAgree_of_mistaken)

/-- A record with an unregistered flag that has the name of the snapshot. -/
def flaggedRecord : Dict := [(.str "flags", .dict [(.str "params_snapshot", .int 1)])]

theorem snapshot_flag_collides :
    trialIdentityKey insertionSort flaggedRecord = trialIdentityKey insertionSort [] ∧
      ¬ UnregisteredAgree insertionSort flaggedRecord [] fun _ => True := by
  have hsame : dumps insertionSort (.dict (normalized insertionSort flaggedRecord)) =
      dumps insertionSort (.dict (normalized insertionSort [])) := by decide +kernel
  refine ⟨by rw [trialIdentityKey, identityDump, hsame]; rfl, fun h => ?_⟩
  have hflag := h "params_snapshot" (by decide) (by decide) trivial
  simp [FlagAgrees, flagsOf, flaggedRecord, PyJson.get] at hflag

/-- The record of a run with a registered flag off its baseline, an unregistered one, and a mapping
snapshot. -/
def horizonRecord (hours : ℤ) : Dict :=
  [ (.str "flags", .dict [(.str "execution_universe_size", .int 40), (.str "horizon_hours", .int hours)]),
    (.str "params_snapshot", .dict [(.str "alpha", .int 1), (.str "window", .int 30)]) ]

theorem distinct_horizonRecord (hours : ℤ) : (Value.dict (horizonRecord hours)).Distinct := by
  simp [horizonRecord, Value.Distinct, DistinctKeys, DistinctEntries, Key.Same]

theorem horizonRecord_not_mistaken (hours hours' : ℤ) :
    ¬ MistakenSnapshot insertionSort (horizonRecord hours) (horizonRecord hours') := by
  rintro ⟨-, -, hnone, -⟩; exact hnone _ rfl

theorem horizonRecord_inTextOrder : FieldsInTextOrder insertionSort (horizonRecord 24) := by
  refine (identityValues_inTextOrder_iff (distinct_horizonRecord 24) (by decide +kernel)).mpr
    ⟨fun name value hmem _ _ => ?_, fun entries hentries => ?_⟩
  · have hscalar : ∀ e ∈ flagsOf (horizonRecord 24), isScalar e.2 := by decide +kernel
    exact inTextOrder_of_isScalar (hscalar _ hmem)
  · obtain rfl := Value.dict.inj (Option.some.inj hentries)
    exact ⟨by decide +kernel, trivial, trivial, trivial⟩

/-- **Two horizons are two trials**, and the key of the first is its own sparse form. -/
theorem horizons_are_two_trials : ∃ key key', trialIdentityKey insertionSort (horizonRecord 24) = .ok key ∧
    trialIdentityKey insertionSort (horizonRecord 48) = .ok key' ∧ key ≠ key' ∧
      sparseIdentityKey insertionSort key = .ok key := by
  have hkey : trialIdentityKey insertionSort (horizonRecord 24) = .ok _ :=
    trialIdentityKey_eq_ok (by decide +kernel) (by decide +kernel)
  have hkey' : trialIdentityKey insertionSort (horizonRecord 48) = .ok _ :=
    trialIdentityKey_eq_ok (by decide +kernel) (by decide +kernel)
  obtain ⟨hpath, hsparse⟩ :=
    (identity_is_path_iff (distinct_horizonRecord 24) hkey (distinct_horizonRecord 48) hkey').mpr
      ⟨fun _ _ => ⟨horizonRecord_not_mistaken 24 48, horizonRecord_not_mistaken 48 24, fun _ => rfl⟩,
        horizonRecord_inTextOrder⟩
  refine ⟨_, _, hkey, hkey', fun heq => ?_, hsparse⟩
  have hflag : FlagAgrees insertionSort (horizonRecord 24) (horizonRecord 48) "horizon_hours" :=
    (hpath.mp heq).2.1 "horizon_hours" (by decide) (by decide) trivial
  unfold FlagAgrees at hflag
  revert hflag
  decide +kernel

end CryptoPilot.Research
