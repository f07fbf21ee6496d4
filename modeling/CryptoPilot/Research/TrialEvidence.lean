/- # TrialEvidence — the run history of one registry, and the number of trials it shows.

`append_run_history_record`, `_load_registry_state` and `derive_trials_attempted`, on the rows of
the namespace `mhs_legacy_horizon`.  A stored record must come back with the identity and the
admission it was stored with (`RereadsAlike`).  Where every appended record does, the registry shows
one trial for each identity among the admitted records; where one does not, no reader of the
registry returns again (`trial_evidence_iff`). -/
import CryptoPilot.Lib.Effect
import CryptoPilot.Research.TrialRoundTrip
import Mathlib.Data.List.Dedup

namespace CryptoPilot.Research

open Lib Lib.PyJson List Except

/-! ## §1 The registry -/

/-- A row of `history_records`. -/
structure HistoryRow where
  sourceId : String
  ordinal : ℕ
  recordJson : Text
  admitted : Bool
  identityKey : Option Text

/-- A row of `trials`. -/
structure TrialRow where
  identityKey : Text
  firstSeen : String
  provenanceJson : Text

/-- The tables of `registry.sqlite3`, the rows of a source in the order of their ordinals. -/
structure HistoryRegistry where
  records : List HistoryRow
  trials : List TrialRow

def liveSourceId : String := "live"

def searchTrialsAttempted : ℕ := 70

/-- `COALESCE(MAX(ordinal), -1) + 1` over the rows of the live source. -/
def nextHistoryOrdinal (rows : List HistoryRow) : ℕ :=
  rows.foldr (fun row next => if row.sourceId = liveSourceId then max (row.ordinal + 1) next else next) 0

/-- `INSERT OR IGNORE INTO trials`. -/
def insertTrial (trials : List TrialRow) (row : TrialRow) : List TrialRow :=
  if trials.any fun t => t.identityKey = row.identityKey then trials else trials ++ [row]

section Functions

variable (py : ItemSort)

/-- What is written of a record: its JSON, and its identity key if it is admitted. -/
def prepared (record : Dict) : Except HistoryExc (Text × Option Text) :=
  (identityDump py (.dict record)).bind fun payload =>
    (isTrialRecord record).bind fun admitted =>
      if admitted then (trialIdentityKey py record).map fun key => (payload, some key) else .ok (payload, none)

/-- `first_seen`. -/
def firstSeenOf (record : Dict) (now : String) : String :=
  match get record (.str "run_at") with
  | some (.str runAt) => runAt
  | _ => now

/-- The transaction of `append_run_history_record`. -/
def writeRecord (registry : HistoryRegistry) (payload : Text) (identity : Option Text) (firstSeen : String) :
    HistoryRegistry where
  records := registry.records ++ [⟨liveSourceId, nextHistoryOrdinal registry.records, payload,
    identity.isSome, identity⟩]
  trials :=
    match identity with
    | some key => insertTrial registry.trials ⟨key, firstSeen, payload⟩
    | none => registry.trials

/-- `append_run_history_record`, at the time `now`. -/
def appendRunHistoryRecord (registry : HistoryRegistry) (now : String) (record : Dict) :
    Except HistoryExc HistoryRegistry :=
  (prepared py record).map fun written => writeRecord registry written.1 written.2 (firstSeenOf record now)

structure HistoryRegistryState where
  records : List Dict
  storedIdentityKeys : List (Option Text)
  ledger : List (Text × String)

/-- `json.loads` of one row. -/
def parseRow (row : HistoryRow) : Except HistoryExc Dict :=
  match loads row.recordJson with
  | .dict parsed => .ok parsed
  | _ => .error (.notAnObject row.sourceId row.ordinal)

def verifyRow (row : HistoryRow) (record : Dict) : Except HistoryExc Unit :=
  match row.identityKey with
  | none => .ok ()
  | some stored =>
    (trialIdentityKey py record).bind fun key =>
      if key ≠ stored then .error (.identityDrift row.sourceId row.ordinal) else .ok ()

def verifyTrial (row : TrialRow) : Except HistoryExc Unit :=
  (sparseIdentityKey py row.identityKey).bind fun key =>
    if key ≠ row.identityKey then .error (.notInBaselineForm row.identityKey) else .ok ()

def parseRows : List HistoryRow → Except HistoryExc (List Dict)
  | [] => .ok []
  | row :: rest => (parseRow row).bind fun record => (parseRows rest).map fun records => record :: records

def verifyRows : List (HistoryRow × Dict) → Except HistoryExc Unit
  | [] => .ok ()
  | (row, record) :: rest => (verifyRow py row record).bind fun _ => verifyRows rest

def verifyTrials : List TrialRow → Except HistoryExc Unit
  | [] => .ok ()
  | row :: rest => (verifyTrial py row).bind fun _ => verifyTrials rest

def loadRegistryState (registry : HistoryRegistry) : Except HistoryExc (Option HistoryRegistryState) :=
  if registry.records.isEmpty ∧ registry.trials.isEmpty then .ok none
  else
    (parseRows registry.records).bind fun records =>
      (verifyRows py (registry.records.zip records)).bind fun _ =>
        (verifyTrials py registry.trials).map fun _ =>
          some
            { records := records
              storedIdentityKeys := registry.records.map HistoryRow.identityKey
              ledger := registry.trials.map fun t => (t.identityKey, t.firstSeen) }

/-- The second value of `derive_trials_attempted`. -/
inductive TrialSource where
  | constantFallback
  | constantPlusLedger
  | constantPlusHistory
  deriving DecidableEq

/-- `seen`. -/
def seenKeys : List Dict → Except HistoryExc (List Text)
  | [] => .ok []
  | record :: rest =>
    (isTrialRecord record).bind fun admitted =>
      if admitted then (trialIdentityKey py record).bind fun key => (seenKeys rest).map fun seen => key :: seen
      else seenKeys rest

def deriveTrialsAttempted (registry : HistoryRegistry) : Except HistoryExc (ℕ × TrialSource) :=
  (loadRegistryState py registry).bind fun state =>
    match state with
    | none => .ok (searchTrialsAttempted, .constantFallback)
    | some state =>
      (seenKeys py state.records).map fun seen =>
        let union := (seen ++ state.ledger.map Prod.fst).dedup
        (searchTrialsAttempted + union.length,
          if state.ledger.isEmpty then .constantPlusHistory else .constantPlusLedger)

/-! ## §2 Runs -/

/-- A record a caller can pass: no dictionary in it has two equal keys. -/
structure HistoryRecord where
  entries : Dict
  distinct : (Value.dict entries).Distinct

/-- A call of `append_run_history_record`, and the time it reads. -/
structure AppendCall where
  now : String
  record : HistoryRecord

def afterCall (registry : HistoryRegistry) (call : AppendCall) : HistoryRegistry :=
  match appendRunHistoryRecord py registry call.now call.record.entries with
  | .ok registry' => registry'
  | .error _ => registry

def appendAll (calls : List AppendCall) : HistoryRegistry := calls.foldl (afterCall py) ⟨[], []⟩

def AppendCall.admittedKey (call : AppendCall) : Option Text :=
  match prepared py call.record.entries with
  | .ok (_, identity) => identity
  | .error _ => none

def admittedKeys (calls : List AppendCall) : List Text := calls.filterMap (AppendCall.admittedKey py)

def AppendCall.Appends (call : AppendCall) : Prop := ∃ written, prepared py call.record.entries = .ok written

/-- What is asked of the evidence that some calls leave, at every moment between them. -/
structure TrialEvidence (calls : List AppendCall) : Prop where
  loads : ∀ earlier, earlier <+: calls → ∃ state, loadRegistryState py (appendAll py earlier) = .ok state
  counts : ∀ earlier, earlier <+: calls → ∃ source, deriveTrialsAttempted py (appendAll py earlier)
    = .ok (searchTrialsAttempted + (admittedKeys py earlier).dedup.length, source)
  grows : ∀ earlier later, earlier <+: later → later <+: calls → ∀ m n,
    (deriveTrialsAttempted py (appendAll py earlier)).map Prod.fst = .ok m →
    (deriveTrialsAttempted py (appendAll py later)).map Prod.fst = .ok n → m ≤ n
  ordered : ∀ calls', calls'.Perm calls →
    deriveTrialsAttempted py (appendAll py calls') = deriveTrialsAttempted py (appendAll py calls)

/-- A record comes back from its JSON with its identity, if it is a trial, and with no tuple among
the reason codes of admission. -/
structure RereadsAlike (record : Dict) : Prop where
  identity : isTrialRecord record = .ok true → StableIdentity py record
  codes : isComplete record → reachesTuple (reasonCodes record) = false

end Functions

variable {py : ItemSort}

/-! ## §3 One record, stored and read -/

theorem except_bind {ε α β : Type} {x : Except ε α} {f : α → Except ε β} {b : β} :
    x.bind f = .ok b ↔ ∃ a, x = .ok a ∧ f a = .ok b := bind_eq_ok

theorem except_map {ε α β : Type} {x : Except ε α} {f : α → β} {b : β} :
    x.map f = .ok b ↔ ∃ a, x = .ok a ∧ f a = b := by
  cases x with
  | error e => exact ⟨fun h => (by cases h), fun ⟨a, h, _⟩ => (by cases h)⟩
  | ok a => exact ⟨fun h => ⟨a, rfl, ok.inj h⟩, fun ⟨_, h, h'⟩ => (by cases h; exact congrArg _ h')⟩

theorem identityDump_ok {v : Value} {t : Text} : identityDump py v = .ok t ↔ dumps py v = some t := by
  unfold identityDump
  cases dumps py v with
  | none => exact ⟨fun h => (by cases h), fun h => (by cases h)⟩
  | some t' => exact ⟨fun h => congrArg some (ok.inj h), fun h => congrArg ok (Option.some.inj h)⟩

theorem prepared_ok {record : Dict} {payload : Text} {identity : Option Text}
    (h : prepared py record = .ok (payload, identity)) :
    dumps py (.dict record) = some payload ∧ isTrialRecord record = .ok identity.isSome
      ∧ ∀ key, identity = some key → trialIdentityKey py record = .ok key := by
  obtain ⟨payload', hdump, h⟩ := except_bind.mp h
  obtain ⟨admitted, hadmitted, h⟩ := except_bind.mp h
  split at h
  next htrue =>
    obtain ⟨key, hkey, heq⟩ := except_map.mp h
    cases heq
    refine ⟨identityDump_ok.mp hdump, hadmitted.trans (congrArg _ htrue), ?_⟩
    rintro _ ⟨⟩; exact hkey
  next hfalse =>
    cases h
    refine ⟨identityDump_ok.mp hdump, hadmitted.trans (congrArg _ (Bool.eq_false_iff.mpr hfalse)), ?_⟩
    rintro _ ⟨⟩

structure Stores (py : ItemSort) (row : HistoryRow) (record : HistoryRecord) : Prop where
  prepared : prepared py record.entries = .ok (row.recordJson, row.identityKey)

namespace Stores

variable {row : HistoryRow} {record : HistoryRecord} (h : Stores py row record)

include h

theorem isSome_dumps : (dumps py (.dict record.entries)).isSome := isSome_of_dumps (prepared_ok h.prepared).1

theorem parseRow : parseRow row = .ok (rereadDict py record.entries) := by
  have hpayload := dumped_of_eq (prepared_ok h.prepared).1
  have hreread := reread_dict h.isSome_dumps
  rw [reread, hpayload] at hreread
  rw [Research.parseRow, hreread]

theorem verifyRow_iff : verifyRow py row (rereadDict py record.entries) = .ok ()
    ↔ (isTrialRecord record.entries = .ok true → StableIdentity py record.entries) := by
  obtain ⟨-, hadmitted, hkeys⟩ := prepared_ok h.prepared
  rw [hadmitted, verifyRow]
  cases hidentity : row.identityKey with
  | none => exact iff_of_true rfl fun hfalse => (by cases hfalse)
  | some key =>
    have hkey := hkeys key hidentity
    rw [Option.isSome_some, ← trialIdentityKey_reread_iff record.distinct hkey h.isSome_dumps]
    simp only [forall_const]
    cases hreread : trialIdentityKey py (rereadDict py record.entries) with
    | error e => exact ⟨fun hfalse => (by cases hfalse), fun hfalse => (by cases hfalse)⟩
    | ok key' =>
      show (if key' ≠ key then _ else _) = _ ↔ _
      rw [ok.injEq]
      by_cases heq : key' = key
      · rw [if_neg (not_not.mpr heq)]; exact iff_of_true rfl heq
      · rw [if_pos heq]; exact iff_of_false (fun hfalse => by cases hfalse) heq

theorem isTrialRecord_reread : isTrialRecord (rereadDict py record.entries)
    = if isComplete record.entries ∧ reachesTuple (reasonCodes record.entries) then .error .typeError
      else .ok row.identityKey.isSome :=
  Research.isTrialRecord_reread record.distinct h.isSome_dumps (prepared_ok h.prepared).2.1

theorem key_of_stable (hstable : isTrialRecord record.entries = .ok true → StableIdentity py record.entries)
    {key : Text} (hidentity : row.identityKey = some key) :
    trialIdentityKey py (rereadDict py record.entries) = .ok key ∧ sparseIdentityKey py key = .ok key := by
  obtain ⟨-, hadmitted, hkeys⟩ := prepared_ok h.prepared
  have hkey := hkeys key hidentity
  rw [hidentity] at hadmitted
  have hreread := (trialIdentityKey_reread_iff record.distinct hkey h.isSome_dumps).mpr (hstable hadmitted)
  refine ⟨hreread, ?_⟩
  rw [trialIdentityKey_reread record.distinct h.isSome_dumps hkey (hstable hadmitted).noTuple] at hreread
  rw [sparseIdentityKey_key record.distinct hkey, hreread]

end Stores

/-! ## §4 What the readers do with a whole registry -/

variable {rows : List HistoryRow} {records : List Dict} {trials : List TrialRow}

theorem parseRows_ok : ∀ {records : List Dict},
    parseRows rows = .ok records ↔ List.Forall₂ (fun row record => parseRow row = .ok record) rows records := by
  induction rows with
  | nil =>
    intro records
    rw [forall₂_nil_left_iff]; exact ⟨fun h => (ok.inj h).symm, fun h => congrArg ok h.symm⟩
  | cons row rest ih =>
    intro records
    rw [parseRows, except_bind, forall₂_cons_left_iff]
    simp only [except_map, ih]
    constructor
    · rintro ⟨record, hrow, records', hrest, rfl⟩; exact ⟨record, records', hrow, hrest, rfl⟩
    · rintro ⟨record, records', hrow, hrest, rfl⟩; exact ⟨record, hrow, records', hrest, rfl⟩

theorem mem_zip_iff (h : parseRows rows = .ok records) {row : HistoryRow} {record : Dict} :
    (row, record) ∈ rows.zip records ↔ row ∈ rows ∧ parseRow row = .ok record := by
  induction rows generalizing records with
  | nil => simp
  | cons first rest ih =>
    obtain ⟨parsed, hfirst, h⟩ := except_bind.mp h
    obtain ⟨parsedRest, hrest, rfl⟩ := except_map.mp h
    rw [zip_cons_cons, mem_cons, mem_cons, ih hrest]
    constructor
    · rintro (heq | ⟨hrow, hrecord⟩)
      · cases heq; exact ⟨.inl rfl, hfirst⟩
      · exact ⟨.inr hrow, hrecord⟩
    · rintro ⟨rfl | hrow, hrecord⟩
      · rw [hfirst, ok.injEq] at hrecord; exact .inl (hrecord ▸ rfl)
      · exact .inr ⟨hrow, hrecord⟩

theorem exists_parseRows (h : ∀ row ∈ rows, ∃ record, parseRow row = .ok record) :
    ∃ records, parseRows rows = .ok records := by
  induction rows with
  | nil => exact ⟨[], rfl⟩
  | cons row rest ih =>
    obtain ⟨⟨record, hrecord⟩, hrest⟩ := forall_mem_cons.mp h
    obtain ⟨records, hrecords⟩ := ih hrest
    exact ⟨record :: records, by rw [parseRows, hrecord, hrecords]; rfl⟩

theorem verifyRows_ok {pairs : List (HistoryRow × Dict)} :
    verifyRows py pairs = .ok () ↔ ∀ e ∈ pairs, verifyRow py e.1 e.2 = .ok () := by
  induction pairs with
  | nil => exact iff_of_true rfl (by simp)
  | cons e rest ih =>
    rw [verifyRows, except_bind, forall_mem_cons, ← ih]
    exact ⟨fun ⟨_, h, h'⟩ => ⟨h, h'⟩, fun h => ⟨(), h⟩⟩

theorem verifyTrials_ok {rows : List TrialRow} :
    verifyTrials py rows = .ok () ↔ ∀ row ∈ rows, verifyTrial py row = .ok () := by
  induction rows with
  | nil => exact iff_of_true rfl (by simp)
  | cons row rest ih =>
    rw [verifyTrials, except_bind, forall_mem_cons, ← ih]
    exact ⟨fun ⟨_, h, h'⟩ => ⟨h, h'⟩, fun h => ⟨(), h⟩⟩

theorem seenKeys_ok : ∀ {seen : List Text}, seenKeys py records = .ok seen →
    (∀ record ∈ records, ∃ admitted, isTrialRecord record = .ok admitted)
      ∧ ∀ key, key ∈ seen ↔ ∃ record ∈ records, isTrialRecord record = .ok true ∧
        trialIdentityKey py record = .ok key := by
  induction records with
  | nil =>
    rintro _ ⟨⟩; exact ⟨by simp, by simp⟩
  | cons record rest ih =>
    intro seen h
    obtain ⟨admitted, hadmitted, h⟩ := except_bind.mp h
    cases admitted with
    | false =>
      obtain ⟨hall, hmem⟩ := ih h
      refine ⟨forall_mem_cons.mpr ⟨⟨_, hadmitted⟩, hall⟩, fun key => ?_⟩
      rw [hmem, exists_mem_cons_iff, hadmitted]; simp
    | true =>
      obtain ⟨key, hkey, h⟩ := except_bind.mp h
      obtain ⟨seen', hseen, rfl⟩ := except_map.mp h
      obtain ⟨hall, hmem⟩ := ih hseen
      refine ⟨forall_mem_cons.mpr ⟨⟨_, hadmitted⟩, hall⟩, fun key' => ?_⟩
      rw [mem_cons, hmem, exists_mem_cons_iff, hadmitted, hkey]; simp [eq_comm]

theorem exists_seenKeys (h : ∀ record ∈ records, ∃ admitted,
    isTrialRecord record = .ok admitted ∧ (admitted → ∃ key, trialIdentityKey py record = .ok key)) :
    ∃ seen, seenKeys py records = .ok seen := by
  induction records with
  | nil => exact ⟨[], rfl⟩
  | cons record rest ih =>
    obtain ⟨⟨admitted, hadmitted, hkey⟩, hrest⟩ := forall_mem_cons.mp h
    obtain ⟨seen, hseen⟩ := ih hrest
    rw [seenKeys, hadmitted]
    cases admitted with
    | false => exact ⟨seen, hseen⟩
    | true =>
      obtain ⟨key, hkey⟩ := hkey rfl
      refine ⟨key :: seen, ?_⟩
      show (trialIdentityKey py record).bind _ = _
      rw [hkey, hseen]; rfl

theorem verifyTrial_ok {row : TrialRow} :
    verifyTrial py row = .ok () ↔ sparseIdentityKey py row.identityKey = .ok row.identityKey := by
  rw [verifyTrial, except_bind]
  constructor
  · rintro ⟨key, hkey, h⟩
    split at h
    next => cases h
    next heq => rw [hkey, not_not.mp heq]
  · intro h; exact ⟨_, h, if_neg (not_not.mpr rfl)⟩

/-! ## §5 The registry that the calls leave -/

/-- The rows store the records of the appending calls, and the ledger has the admitted keys, each
once. -/
structure Holds (py : ItemSort) (calls : List AppendCall) (registry : HistoryRegistry) : Prop where
  rows : ∀ row ∈ registry.records, ∃ call ∈ calls, Stores py row call.record
  stored : ∀ call ∈ calls, call.Appends py → ∃ row ∈ registry.records, Stores py row call.record
  keys : ∀ key, key ∈ registry.trials.map TrialRow.identityKey ↔ key ∈ admittedKeys py calls
  nodup : (registry.trials.map TrialRow.identityKey).Nodup

theorem admittedKeys_concat (calls : List AppendCall) (call : AppendCall) :
    admittedKeys py (calls ++ [call]) = admittedKeys py calls ++ (call.admittedKey py).toList := by
  cases hkey : call.admittedKey py <;> simp [admittedKeys, hkey]

theorem appendAll_concat (calls : List AppendCall) (call : AppendCall) :
    appendAll py (calls ++ [call]) = afterCall py (appendAll py calls) call := by
  rw [appendAll, foldl_append]; rfl

theorem mem_insertTrial {row : TrialRow} {key : Text} :
    key ∈ (insertTrial trials row).map TrialRow.identityKey
      ↔ key ∈ trials.map TrialRow.identityKey ∨ key = row.identityKey := by
  unfold insertTrial
  split
  next hany =>
    obtain ⟨t, ht, heq⟩ := any_eq_true.mp hany
    refine ⟨.inl, fun h => h.elim id ?_⟩
    rintro rfl; exact mem_map.mpr ⟨t, ht, of_decide_eq_true heq⟩
  next => simp

theorem nodup_insertTrial (h : (trials.map TrialRow.identityKey).Nodup) (row : TrialRow) :
    ((insertTrial trials row).map TrialRow.identityKey).Nodup := by
  unfold insertTrial
  split
  next => exact h
  next hany =>
    rw [map_append, nodup_append]
    refine ⟨h, nodup_singleton _, fun a ha b hb hab => hany (any_eq_true.mpr ?_)⟩
    obtain ⟨t, ht, rfl⟩ := mem_map.mp ha
    rw [map_singleton, mem_singleton] at hb; exact ⟨t, ht, decide_eq_true (hab.trans hb)⟩

variable {registry : HistoryRegistry} {calls : List AppendCall}

theorem Holds.afterCall (h : Holds py calls registry)
    (call : AppendCall) : Holds py (calls ++ [call]) (afterCall py registry call) := by
  unfold Research.afterCall appendRunHistoryRecord
  cases hprepared : prepared py call.record.entries with
  | error e =>
    have hkey : call.admittedKey py = none := by rw [AppendCall.admittedKey, hprepared]
    refine ⟨fun row hrow => ?_, fun call' hcall' happends => ?_, fun key => ?_, h.nodup⟩
    · obtain ⟨call', hcall', hstores⟩ := h.rows row hrow
      exact ⟨call', mem_append_left _ hcall', hstores⟩
    · rcases mem_append.mp hcall' with hcall' | hcall'
      · exact h.stored call' hcall' happends
      · rw [mem_singleton.mp hcall'] at happends
        obtain ⟨_, hwritten⟩ := happends
        rw [hprepared] at hwritten; cases hwritten
    · rw [admittedKeys_concat, hkey, Option.toList_none, append_nil]; exact h.keys key
  | ok written =>
    obtain ⟨payload, identity⟩ := written
    have hkey : call.admittedKey py = identity := by rw [AppendCall.admittedKey, hprepared]
    show Holds py (calls ++ [call]) (writeRecord registry payload identity _)
    have hnew : Stores py ⟨liveSourceId, nextHistoryOrdinal registry.records, payload, identity.isSome, identity⟩
        call.record := ⟨hprepared⟩
    refine ⟨fun row hrow => ?_, fun call' hcall' happends => ?_, fun key => ?_, ?_⟩
    · rcases mem_append.mp hrow with hrow | hrow
      · obtain ⟨call', hcall', hstores⟩ := h.rows row hrow
        exact ⟨call', mem_append_left _ hcall', hstores⟩
      · rw [mem_singleton.mp hrow]; exact ⟨call, by simp, hnew⟩
    · rcases mem_append.mp hcall' with hcall' | hcall'
      · obtain ⟨row, hrow, hstores⟩ := h.stored call' hcall' happends
        exact ⟨row, mem_append_left _ hrow, hstores⟩
      · rw [mem_singleton.mp hcall']; exact ⟨_, mem_append_right _ mem_cons_self, hnew⟩
    · rw [admittedKeys_concat, hkey, mem_append, ← h.keys key]
      cases identity with
      | none => simp [writeRecord]
      | some stored => simp only [writeRecord, mem_insertTrial, Option.toList_some, mem_singleton]
    · cases identity with
      | none => exact h.nodup
      | some stored => exact nodup_insertTrial h.nodup _

theorem appendAll_holds (calls : List AppendCall) : Holds py calls (appendAll py calls) := by
  induction calls using reverseRecOn with
  | nil => exact ⟨by simp [appendAll], by simp, by simp [appendAll, admittedKeys], nodup_nil⟩
  | append_singleton calls call ih =>
    rw [appendAll_concat]; exact ih.afterCall call

theorem Stores.admittedKey {row : HistoryRow} {call : AppendCall} (h : Stores py row call.record) :
    call.admittedKey py = row.identityKey := by
  rw [AppendCall.admittedKey, h.prepared]

theorem Holds.mem_admittedKeys (h : Holds py calls registry)
    {key : Text} : key ∈ admittedKeys py calls ↔ ∃ row ∈ registry.records, row.identityKey = some key := by
  rw [admittedKeys, mem_filterMap]
  constructor
  · rintro ⟨call, hcall, hkey⟩
    have happends : call.Appends py := by
      unfold AppendCall.admittedKey at hkey
      cases hprepared : prepared py call.record.entries with
      | error e => rw [hprepared] at hkey; cases hkey
      | ok written => exact ⟨written, hprepared⟩
    obtain ⟨row, hrow, hstores⟩ := h.stored call hcall happends
    exact ⟨row, hrow, hstores.admittedKey.symm.trans hkey⟩
  · rintro ⟨row, hrow, hidentity⟩
    obtain ⟨call, hcall, hstores⟩ := h.rows row hrow
    exact ⟨call, hcall, hstores.admittedKey.trans hidentity⟩

/-! ## §6 Evidence and the records it is made of -/

theorem verified_of_load {state : Option HistoryRegistryState} (h : loadRegistryState py registry = .ok state) :
    ∀ row ∈ registry.records, ∀ record, parseRow row = .ok record → verifyRow py row record = .ok () := by
  intro row hrow record hrecord
  unfold loadRegistryState at h
  split at h
  next hempty => rw [List.isEmpty_iff.mp hempty.1] at hrow; exact absurd hrow not_mem_nil
  next =>
    obtain ⟨records, hrecords, h⟩ := except_bind.mp h
    obtain ⟨_, hverified, -⟩ := except_bind.mp h
    exact verifyRows_ok.mp hverified _ ((mem_zip_iff hrecords).mpr ⟨hrow, hrecord⟩)

theorem admission_of_derive {result : ℕ × TrialSource} (h : deriveTrialsAttempted py registry = .ok result) :
    ∀ row ∈ registry.records, ∀ record, parseRow row = .ok record →
      ∃ admitted, isTrialRecord record = .ok admitted := by
  intro row hrow record hrecord
  obtain ⟨state, hstate, h⟩ := except_bind.mp h
  unfold loadRegistryState at hstate
  split at hstate
  next hempty => rw [List.isEmpty_iff.mp hempty.1] at hrow; exact absurd hrow not_mem_nil
  next =>
    obtain ⟨records, hrecords, hstate⟩ := except_bind.mp hstate
    obtain ⟨_, -, hstate⟩ := except_bind.mp hstate
    obtain ⟨_, -, rfl⟩ := except_map.mp hstate
    obtain ⟨seen, hseen, -⟩ := except_map.mp h
    exact (seenKeys_ok hseen).1 record (of_mem_zip ((mem_zip_iff hrecords).mpr ⟨hrow, hrecord⟩)).2

def sourceOf (py : ItemSort) (calls : List AppendCall) : TrialSource :=
  if calls.all fun call => (prepared py call.record.entries).toOption.isNone then .constantFallback
  else if (admittedKeys py calls).isEmpty then .constantPlusHistory
  else .constantPlusLedger

theorem sourceOf_nil_iff (h : Holds py calls registry) :
    (calls.all fun call => (prepared py call.record.entries).toOption.isNone) = true ↔ registry.records = [] := by
  rw [all_eq_true]
  constructor
  · intro hnone
    refine eq_nil_iff_forall_not_mem.mpr fun row hrow => ?_
    obtain ⟨call, hcall, hstores⟩ := h.rows row hrow
    have hcallnone := hnone call hcall
    rw [hstores.prepared] at hcallnone; cases hcallnone
  · intro hempty call hcall
    cases hprepared : prepared py call.record.entries with
    | error e => rfl
    | ok written =>
      obtain ⟨row, hrow, -⟩ := h.stored call hcall ⟨written, hprepared⟩
      rw [hempty] at hrow; exact absurd hrow not_mem_nil

theorem length_dedup_congr {xs ys : List Text} (h : ∀ key, key ∈ xs ↔ key ∈ ys) :
    xs.dedup.length = ys.dedup.length := by
  refine List.Perm.length_eq ((perm_ext_iff_of_nodup xs.nodup_dedup ys.nodup_dedup).mpr fun key => ?_)
  rw [mem_dedup, mem_dedup, h]

section Good

variable {calls : List AppendCall} {registry : HistoryRegistry} (h : Holds py calls registry)
  (hgood : ∀ call ∈ calls, call.Appends py → RereadsAlike py call.record.entries)

include h hgood

theorem Holds.verified :
    (∀ row ∈ registry.records, ∃ record, parseRow row = .ok record ∧ verifyRow py row record = .ok ())
      ∧ ∀ t ∈ registry.trials, verifyTrial py t = .ok () := by
  refine ⟨fun row hrow => ?_, fun t ht => verifyTrial_ok.mpr ?_⟩
  · obtain ⟨call, hcall, hstores⟩ := h.rows row hrow
    have hcallgood := hgood call hcall ⟨_, hstores.prepared⟩
    exact ⟨_, hstores.parseRow, hstores.verifyRow_iff.mpr hcallgood.identity⟩
  · have hmem := (h.keys _).mp (mem_map.mpr ⟨t, ht, rfl⟩)
    obtain ⟨row, hrow, hidentity⟩ := h.mem_admittedKeys.mp hmem
    obtain ⟨call, hcall, hstores⟩ := h.rows row hrow
    have hcallgood := hgood call hcall ⟨_, hstores.prepared⟩
    exact (hstores.key_of_stable hcallgood.identity hidentity).2

theorem Holds.derived {row : HistoryRow} (hrow : row ∈ registry.records) {record : Dict}
    (hrecord : parseRow row = .ok record) : isTrialRecord record = .ok row.identityKey.isSome
      ∧ ∀ key, row.identityKey = some key → trialIdentityKey py record = .ok key := by
  obtain ⟨call, hcall, hstores⟩ := h.rows row hrow
  have hcallgood := hgood call hcall ⟨_, hstores.prepared⟩
  rw [hstores.parseRow, ok.injEq] at hrecord
  subst hrecord
  refine ⟨?_, fun key hidentity => (hstores.key_of_stable hcallgood.identity hidentity).1⟩
  rw [hstores.isTrialRecord_reread, if_neg]
  rintro ⟨hcomplete, hreaches⟩
  rw [hcallgood.codes hcomplete] at hreaches; cases hreaches

theorem Holds.loadRegistryState : ∃ records, parseRows registry.records = .ok records
    ∧ loadRegistryState py registry =
      .ok (if registry.records.isEmpty ∧ registry.trials.isEmpty then none
        else some ⟨records, registry.records.map HistoryRow.identityKey,
          registry.trials.map fun t => (t.identityKey, t.firstSeen)⟩) := by
  obtain ⟨hrows, htrials⟩ := h.verified hgood
  obtain ⟨records, hrecords⟩ := exists_parseRows fun row hrow =>
    (hrows row hrow).imp fun _ hrecord => hrecord.1
  refine ⟨records, hrecords, ?_⟩
  unfold Research.loadRegistryState
  split
  next => rfl
  next =>
    have hverified : verifyRows py (registry.records.zip records) = .ok () := by
      refine verifyRows_ok.mpr fun e he => ?_
      obtain ⟨hrow, hrecord⟩ := (mem_zip_iff hrecords).mp he
      obtain ⟨record, hrecord', hverify⟩ := hrows e.1 hrow
      rw [hrecord, ok.injEq] at hrecord'; rwa [hrecord']
    rw [hrecords]
    show (verifyRows py (registry.records.zip records)).bind _ = _
    rw [hverified]
    show (verifyTrials py registry.trials).map _ = _
    rw [verifyTrials_ok.mpr htrials]; rfl

theorem Holds.deriveTrialsAttempted : deriveTrialsAttempted py registry
    = .ok (searchTrialsAttempted + (admittedKeys py calls).dedup.length, sourceOf py calls) := by
  obtain ⟨records, hrecords, hload⟩ := h.loadRegistryState hgood
  have hledger : registry.trials = [] ↔ admittedKeys py calls = [] := by
    rw [eq_nil_iff_forall_not_mem, eq_nil_iff_forall_not_mem]
    simp only [← h.keys, mem_map, not_exists, not_and]
    exact ⟨fun hnone key t ht _ => hnone t ht, fun hnone t ht => hnone _ t ht rfl⟩
  unfold Research.deriveTrialsAttempted
  rw [hload]
  by_cases hempty : registry.records = []
  · have hkeys : admittedKeys py calls = [] := by
      refine eq_nil_iff_forall_not_mem.mpr fun key hkey => ?_
      obtain ⟨row, hrow, -⟩ := h.mem_admittedKeys.mp hkey
      rw [hempty] at hrow; exact not_mem_nil hrow
    rw [if_pos ⟨List.isEmpty_iff.mpr hempty, List.isEmpty_iff.mpr (hledger.mpr hkeys)⟩, sourceOf,
      if_pos ((sourceOf_nil_iff h).mpr hempty), hkeys]
    rfl
  · rw [if_neg fun hboth => hempty (List.isEmpty_iff.mp hboth.1)]
    have hrow : ∀ {record}, record ∈ records → ∃ row ∈ registry.records, parseRow row = .ok record := by
      intro record hrecord
      obtain ⟨row, hzip⟩ : ∃ row, (row, record) ∈ registry.records.zip records := by
        obtain ⟨i, hi, rfl⟩ := mem_iff_getElem.mp hrecord
        have hlength := (parseRows_ok.mp hrecords).length_eq
        refine ⟨registry.records[i], mem_iff_getElem.mpr ⟨i, ?_, getElem_zip⟩⟩
        rw [length_zip]; omega
      exact ⟨row, (mem_zip_iff hrecords).mp hzip⟩
    obtain ⟨seen, hseen⟩ : ∃ seen, seenKeys py records = .ok seen := by
      refine exists_seenKeys fun record hrecord => ?_
      obtain ⟨row, hin, hparse⟩ := hrow hrecord
      obtain ⟨hadmitted, hkey⟩ := h.derived hgood hin hparse
      refine ⟨_, hadmitted, fun hsome => ?_⟩
      obtain ⟨key, hidentity⟩ := Option.isSome_iff_exists.mp hsome; exact ⟨key, hkey key hidentity⟩
    show (seenKeys py records).map _ = _
    rw [hseen]
    -- the keys of the records and those of the ledger are the admitted ones
    have hsame : ∀ key, key ∈ seen ++ (registry.trials.map fun t => (t.identityKey, t.firstSeen)).map Prod.fst
        ↔ key ∈ admittedKeys py calls := by
      intro key
      rw [mem_append, map_map]
      constructor
      · rintro (hkey | hkey)
        · obtain ⟨record, hrecord, hadmitted, hkey⟩ := ((seenKeys_ok hseen).2 key).mp hkey
          obtain ⟨row, hin, hparse⟩ := hrow hrecord
          obtain ⟨hadmitted', hstored⟩ := h.derived hgood hin hparse
          rw [hadmitted, ok.injEq] at hadmitted'
          obtain ⟨key', hidentity⟩ := Option.isSome_iff_exists.mp hadmitted'.symm
          have hsame := hstored key' hidentity
          rw [hkey, ok.injEq] at hsame; exact h.mem_admittedKeys.mpr ⟨row, hin, hsame ▸ hidentity⟩
        · exact (h.keys key).mp hkey
      · exact fun hkey => .inr ((h.keys key).mpr hkey)
    have hsource : sourceOf py calls = if (registry.trials.map fun t => (t.identityKey, t.firstSeen)).isEmpty
        then .constantPlusHistory else .constantPlusLedger := by
      rw [sourceOf, if_neg fun hnone => hempty ((sourceOf_nil_iff h).mp hnone), isEmpty_map]
      simp only [List.isEmpty_iff, hledger]
    rw [hsource, ← length_dedup_congr hsame]; rfl

end Good

section

variable {calls calls' : List AppendCall} (h : calls'.Perm calls)

include h

theorem admittedKeys_perm :
    (admittedKeys py calls').Perm (admittedKeys py calls) := h.filterMap _

theorem sourceOf_perm :
    sourceOf py calls' = sourceOf py calls := by
  unfold sourceOf
  rw [h.all_eq, (admittedKeys_perm h).isEmpty_eq]

end

/-- The evidence holds at every moment of a run iff every record that is appended comes back from
its JSON as it was stored. -/
theorem trial_evidence_iff (py : ItemSort) (calls : List AppendCall) :
    TrialEvidence py calls ↔ ∀ call ∈ calls, call.Appends py → RereadsAlike py call.record.entries := by
  constructor
  · intro h call hcall happends
    have hholds := @appendAll_holds py calls
    obtain ⟨row, hrow, hstores⟩ := hholds.stored call hcall happends
    obtain ⟨state, hstate⟩ := h.loads calls prefix_rfl
    obtain ⟨source, hderive⟩ := h.counts calls prefix_rfl
    refine ⟨hstores.verifyRow_iff.mp (verified_of_load hstate row hrow _ hstores.parseRow), fun hcomplete => ?_⟩
    obtain ⟨admitted, hadmitted⟩ := admission_of_derive hderive row hrow _ hstores.parseRow
    rw [hstores.isTrialRecord_reread] at hadmitted
    split at hadmitted
    next => cases hadmitted
    next hnot => exact Bool.eq_false_iff.mpr fun hreaches => hnot ⟨hcomplete, hreaches⟩
  · intro hgood
    have hprefix : ∀ {earlier}, earlier <+: calls →
        ∀ call ∈ earlier, call.Appends py → RereadsAlike py call.record.entries :=
      fun h call hcall => hgood call (h.subset hcall)
    have hderive : ∀ {earlier}, earlier <+: calls → deriveTrialsAttempted py (appendAll py earlier)
        = .ok (searchTrialsAttempted + (admittedKeys py earlier).dedup.length, sourceOf py earlier) :=
      fun h => (appendAll_holds _).deriveTrialsAttempted ( hprefix h)
    refine ⟨fun earlier h => ?_, fun earlier h => ⟨_, hderive h⟩, fun earlier later h h' m n hm hn => ?_,
      fun calls' hperm => ?_⟩
    · obtain ⟨records, -, hload⟩ := (appendAll_holds earlier).loadRegistryState ( hprefix h)
      exact ⟨_, hload⟩
    · rw [hderive (h.trans h')] at hm
      rw [hderive h'] at hn
      cases hm
      cases hn
      have hsubset : (admittedKeys py earlier).dedup ⊆ (admittedKeys py later).dedup := by
        intro key hkey
        rw [mem_dedup] at hkey ⊢; exact (h.filterMap (AppendCall.admittedKey py)).subset hkey
      exact Nat.add_le_add_left (subperm_of_subset (nodup_dedup _) hsubset).length_le _
    · rw [hderive prefix_rfl, (appendAll_holds calls').deriveTrialsAttempted fun call hcall =>
        hgood call (hperm.mem_iff.mp hcall), sourceOf_perm hperm,
        length_dedup_congr fun key => (admittedKeys_perm hperm).mem_iff]

/-- A completed run whose snapshot weighs holding periods, under `2` and `10`. -/
def holdingWeights : HistoryRecord where
  entries :=
    [ (.str "status", .str "COMPLETE"),
      (.str "blend", .dict [(.str "primary_naive_sharpe", .int 1)]),
      (.str "params_snapshot", .dict [(.str "weights", .dict [(.int 2, .int 1), (.int 10, .int 1)])]) ]
  distinct := by simp [Value.Distinct, DistinctEntries, DistinctKeys, Key.Same, Key.number]

/-- Its key is stored with `"2"` before `"10"` and computed again with `"10"` before `"2"`. -/
theorem holding_weights_drift : ¬ TrialEvidence insertionSort [⟨"2026-01-01T00:00:00+00:00", holdingWeights⟩] := by
  intro h
  obtain ⟨state, hstate⟩ := h.loads _ prefix_rfl
  have hdrift : (loadRegistryState insertionSort
      (appendAll insertionSort [⟨"2026-01-01T00:00:00+00:00", holdingWeights⟩])).isOk = false := by
    decide +kernel
  rw [hstate] at hdrift; cases hdrift

end CryptoPilot.Research
