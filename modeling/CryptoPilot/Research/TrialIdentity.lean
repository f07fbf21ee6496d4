/- # TrialIdentity — which history records are trials, and the identity of a trial.

`run_history.py` from `RESEARCH_NEUTRAL_FLAGS` to `is_trial_record`.  A record is the dictionary the
caller passes or the one `json.loads` returns, and an identity key is a JSON text. -/
import CryptoPilot.Lib.PyJson

namespace CryptoPilot.Research

open Lib Lib.PyJson

/-! ## §1 The identity key -/

def researchNeutralFlags : List String :=
  [ "log_run", "max_rss_bytes", "ram_guard", "data_root", "partition", "touch_diagnostic", "ladder_diagnostic",
    "peg_chase_diagnostic", "committee_growth_diagnostic", "committee_member_attribution",
    "discovery_gate_adjusted_net_t", "discovery_gate_regime_scaled_net_t", "placebo_diagnostic", "phase_diagnostic",
    "signal_48h_diagnostic", "bootstrap_ci_diagnostic", "reference_books_diagnostic",
      "patient_reference_diagnostic" ]

/-- The float `0.0`. -/
def zeroFloat : PyFloat := ⟨.fin 0, "0.0", by simp⟩

def trialIdentityBaseline : List (String × Value) :=
  [ ("start", .none), ("end", .none), ("partition", .str "dev"), ("data_root", .none),
    ("execution_timeframe", .str "3m"), ("execution_universe_size", .int 30), ("max_rss_bytes", .none),
    ("log_run", .bool true), ("touch_diagnostic", .bool false), ("ladder_diagnostic", .bool false),
    ("peg_chase_diagnostic", .bool false), ("liquidity_cost_model", .str "flat"),
    ("passive_timeout_minutes", .int 30),
    ("discovery_gate", .bool false), ("discovery_gate_adjusted_net_t", .bool false),
    ("discovery_gate_regime_scaled_net_t", .bool false), ("fold_safe_horizon_selection", .bool false),
    ("crash_regime_tilt_alpha", .none), ("slow_book_mode", .str "single_horizon"),
    ("fast_book_mode", .str "single_horizon"), ("rebalance_filter", .str "per_symbol_deadband"),
    ("beta_neutralize", .bool false), ("ensemble_signal", .str "raw"), ("trend_efficiency_overlay", .bool false),
    ("pnl_vol_target", .bool true), ("pnl_vol_target_mode", .str "median_relative"), ("trend_sleeve", .bool false),
    ("trend_sleeve_gross", .float zeroFloat), ("multi_feature_book", .bool false), ("committee_book", .bool false),
    ("committee_kelly_sizing", .bool false), ("committee_growth_diagnostic", .bool false),
    ("committee_capital", .bool false), ("committee_member_set", .str "risk_premia"),
    ("committee_tranche_smoothing", .bool false), ("committee_regime_adaptive_tranche", .bool false),
    ("committee_tranche_count", .int 3), ("committee_target_gross", .str "<builtins.object>"),
    ("committee_evidence_weighting", .bool false), ("funding_carry_sleeve", .bool false),
    ("funding_carry_weight", .float zeroFloat), ("execution_coverage_gate", .bool false),
    ("exposure_scale_two_sided", .bool false), ("exposure_drawdown_brake", .bool false),
    ("name_drift_trim", .bool false),
    ("ram_guard", .bool true), ("growth_envelope", .str "conservative"),
    ("committee_member_attribution", .bool false),
    ("final_oos_2026h1", .bool false), ("forward_registration_digest", .none),
    ("data_policy", .str "zombie_mask_v1"),
    ("input_manifest_path", .none), ("forward_execution_quality_dir", .none), ("forward_strategy_digest", .none),
    ("placebo_diagnostic", .bool true), ("phase_diagnostic", .bool true), ("signal_48h_diagnostic", .bool true),
    ("bootstrap_ci_diagnostic", .bool true), ("reference_books_diagnostic", .bool true),
    ("patient_reference_diagnostic", .bool true) ]

inductive HistoryExc where
  | typeError
  | overflowError
  | notAnObject (sourceId : String) (ordinal : ℕ)
  | identityDrift (sourceId : String) (ordinal : ℕ)
  | notInBaselineForm (key : Text)
  deriving DecidableEq

variable (py : ItemSort)

/-- `_identity_dump`: no JSON value reaches its `default`. -/
def identityDump (value : Value) : Except HistoryExc Text := (dumps py value).elim (.error .typeError) .ok

/-- `_equals_baseline`.  A value whose dump raises equals nothing here; the dump of the whole key
raises then. -/
def equalsBaseline (name : String) (value : Value) : Bool :=
  match trialIdentityBaseline.lookup name with
  | none => false
  | some baseline => dumps py value == dumps py baseline

def staysInKey (e : Key × Value) : Bool :=
  match e.1 with
  | .str name => !equalsBaseline py name e.2
  | _ => true

def sparseIdentityKey (key : Text) : Except HistoryExc Text :=
  match loads key with
  | .dict parsed => identityDump py (.dict (parsed.filter (staysInKey py)))
  | _ => .ok key

/-- `record.get("flags")`, if it is a mapping. -/
def flagsOf (record : Dict) : Dict :=
  match get record (.str "flags") with
  | some (.dict flags) => flags
  | _ => []

/-- The value of a registered field: the baseline for a missing or null one, but a record without
`data_policy` keeps the policy it ran under. -/
def registeredValue (flags : Dict) (name : String) (baseline : Value) : Value :=
  match get flags (.str name) with
  | some .none => baseline
  | some value => value
  | none => if name = "data_policy" then .str "legacy" else baseline

/-- `f"{type(o).__module__}.{type(o).__qualname__}"`. -/
def typeName : Value → String
  | .none => "builtins.NoneType"
  | .bool _ => "builtins.bool"
  | .int _ => "builtins.int"
  | .float _ => "builtins.float"
  | .str _ => "builtins.str"
  | .list _ => "builtins.list"
  | .tuple _ => "builtins.tuple"
  | .dict _ => "builtins.dict"

/-- `normalized["params_snapshot"]`. -/
def snapshotValue (record : Dict) : Value :=
  match get record (.str "params_snapshot") with
  | some (.dict snapshot) => .dict snapshot
  | none => .dict [(.str "__legacy_params_snapshot__", .str "missing")]
  | some snapshot => .dict [(.str "__legacy_params_snapshot__", .str ("non-mapping:" ++ typeName snapshot))]

def registeredFields (flags : Dict) : List (Key × Value) :=
  trialIdentityBaseline.filterMap fun e =>
    let value := registeredValue flags e.1 e.2
    if e.1 ∉ researchNeutralFlags ∧ ¬ equalsBaseline py e.1 value then some (.str e.1, value) else none

def unregisteredFields (flags : Dict) : List (Key × Value) :=
  flags.filter fun e =>
    match e.1 with
    | .str name => !(trialIdentityBaseline.lookup name).isSome && !researchNeutralFlags.contains name
    | _ => true

def normalized (record : Dict) : Dict :=
  dictOf (registeredFields py (flagsOf record) ++ unregisteredFields (flagsOf record)
    ++ [(.str "params_snapshot", snapshotValue record)])

def trialIdentityKey (record : Dict) : Except HistoryExc Text := identityDump py (.dict (normalized py record))

/-! ## §2 Admission -/

def goReasonDataIntegrityCodes : List String :=
  [ "INCOMPLETE_ANCHORED_FOLD", "INVALID_PRIMARY_LEDGER", "NONFINITE_EQUITY", "RELEVANT_EXECUTION_DATA_GAP",
    "CAPITAL_INVARIANT_BREACH", "RESOURCE_BUDGET_BREACH", "FOLD_BLEND_PATH_DIVERGENCE",
    "COMMITTEE_ADMISSION_NOT_POINT_IN_TIME" ]

mutual

/-- `hash(value)` does not raise. -/
def hashable : Value → Bool
  | .none | .bool _ | .int _ | .float _ | .str _ => true
  | .list _ | .dict _ => false
  | .tuple items => hashableItems items

def hashableItems : List Value → Bool
  | [] => true
  | item :: rest => hashable item && hashableItems rest

end

def isIntegrityCode : Value → Bool
  | .str code => goReasonDataIntegrityCodes.contains code
  | _ => false

/-- `GO_REASON_DATA_INTEGRITY_CODES.isdisjoint(codes)`: codes are hashed in turn, up to the first
found. -/
def isDisjoint : List Value → Except HistoryExc Bool
  | [] => .ok true
  | code :: rest =>
    if hashable code then if isIntegrityCode code then .ok false else isDisjoint rest else .error .typeError

/-- `declared`, of one of the two fields. -/
def declaredCodes (researchGo : Dict) (field : String) : List Value :=
  match get researchGo (.str field) with
  | some (.list declared) => declared
  | some (.tuple declared) => declared
  | _ => []

def reasonCodes (record : Dict) : List Value :=
  match get record (.str "research_go") with
  | some (.dict researchGo) =>
    declaredCodes researchGo "reason_codes" ++ declaredCodes researchGo "data_integrity_reason_codes"
  | _ => []

def carriesDataIntegrityCode (record : Dict) : Except HistoryExc Bool :=
  if (reasonCodes record).isEmpty then .ok false else (isDisjoint (reasonCodes record)).map fun
    disjoint => !disjoint

/-- `blend["primary_naive_sharpe"]`. -/
def blendSharpe (record : Dict) : Option Value :=
  match get record (.str "blend") with
  | some (.dict blend) => get blend (.str "primary_naive_sharpe")
  | _ => none

/-- `_has_finite_blend_sharpe`: an integer too large for a float raises. -/
def hasFiniteBlendSharpe (record : Dict) : Except HistoryExc Bool :=
  match blendSharpe record with
  | some (.int n) =>
    match binary64.round n with
    | .fin _ => .ok true
    | _ => .error .overflowError
  | some (.float x) =>
    match x.value with
    | .fin _ => .ok true
    | _ => .ok false
  | _ => .ok false

/-- `record.get("status") == "COMPLETE"`. -/
def isComplete (record : Dict) : Bool :=
  match get record (.str "status") with
  | some (.str status) => status == "COMPLETE"
  | _ => false

def isTrialRecord (record : Dict) : Except HistoryExc Bool :=
  if isComplete record then
    (carriesDataIntegrityCode record).bind fun carries => if carries then .ok false else hasFiniteBlendSharpe record
  else .ok false

end CryptoPilot.Research
