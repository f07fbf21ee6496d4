/- # SignalStep — the decision of one day and the files it leaves.

`runStrategySignalStep` is `run_strategy_signal_step`; `SignalInputs` is what a call reads besides
its own files. `prepare` runs up to the sizing and persists the forward history; `publish` writes
the levered weight row, the decision closes of the day and the report, one durable write after the
other. -/
import Mathlib.Algebra.Order.Field.Rat
import CryptoPilot.Live.DeployedWeights

namespace CryptoPilot.Live

open CryptoPilot.Lib Option
open CryptoPilot.Lib.Proc (wp wp_mono)

/-! ## Inputs -/

/-- `LiveStrategyBook`: the unit book and what sizing reads, by decision day, over one set of
columns. -/
structure LiveStrategyBook where
  columns : List String
  index : List ℤ
  unitWeights : ℤ → String → ℚ
  snapshotCloses : ℤ → String → Option ℚ
  adv : ℤ → String → Option ℚ
  dailySigma : ℤ → String → Option ℚ
  columns_ne_nil : columns ≠ []
  columns_nodup : columns.Nodup

structure VenueListingEntry where
  symbol : String
  status : String
  deliveryTime : Option ℤ
  deriving DecidableEq, Repr

structure LedgerHoldings where
  positions : Dict ℚ := ∅
  cashUsdt : Option ℚ := none

/-- `ledger_positions`: the symbols with a quantity. -/
def LedgerHoldings.held (l : LedgerHoldings) : Dict ℚ := l.positions.dropDefault 0

/-- What `choose_exposure` is given; the ladders are part of the call. -/
structure ExposureQuery where
  unitValues : List ℚ
  equity : ℚ
  heldNotional : List ℚ
  adv : List (Option ℚ)
  dailySigma : List (Option ℚ)
  moments : Option (ℚ × ℚ)

structure SignalSettings where
  artifacts : ArtifactSettings := {}
  seedEquityUsdt : ℚ := 1000
  decisionBarMaxMissingFraction : Option ℚ := none

/-- What a call reads: the clock, the account equity, and the outcomes of its reads. -/
structure SignalInputs where
  now : ℤ
  accountEquityUsdt : Option (Option ℚ) := none
  census : List String
  bootstrap : Except SignalExc UnitSeries
  listing : Except SignalExc (Option (List VenueListingEntry)) := .ok none
  ledger : Except SignalExc LedgerHoldings
  classifySnapshotGaps : List String → List String × List String := fun _ => ([], [])
  book : ℤ → Except SignalExc LiveStrategyBook
  settlementEvidence : String → Option ℚ := fun _ => none
  unitProxyReturns : LiveStrategyBook → Dict ℚ → Except SignalExc UnitSeries
  bayesianUnitMoments : ℕ → ℚ → ℚ → Option (ℚ × ℚ) := fun _ _ _ => none
  resolveVenue : Except SignalExc (String × ℚ)
  chooseExposure : ExposureQuery → Except SignalExc (Option ℚ)

/-! ## The functions of the step -/

def signalDayNs : ℤ := 86400000000000
def signalHourNs : ℤ := 3600000000000

def releaseHourUtc : ℤ := 23

def liveSignalWarmupDays : ℤ := 120

/-- `_require_daily_series` on a series with finite values and a UTC index. -/
def requireDailySeries (s : UnitSeries) : Except SignalExc Unit :=
  if (s.map Prod.fst).Pairwise (· < ·) then .ok () else .error (.dataIntegrityError .unitHistory)

def mergeUnit (merged : UnitSeries) (s : UnitSeries) : UnitSeries :=
  s.foldl (fun m p => if p.1 ∈ m.map Prod.fst then m else m ++ [p]) merged

def extendUnitHistory (bootstrap forward proxy : UnitSeries) : Except SignalExc UnitSeries :=
  if bootstrap = [] then .error (.dataIntegrityError .unitHistory)
  else do
    requireDailySeries bootstrap
    requireDailySeries forward
    requireDailySeries proxy
    let ordered := (mergeUnit (mergeUnit bootstrap forward) proxy).insertionSort fun p q => p.1 ≤ q.1
    if (ordered.map Prod.fst).IsChain fun d d' => d' = d + 1 then .ok ordered
    else .error (.dataIntegrityError .unitHistory)

def UnitSeries.lastDay (s : UnitSeries) : Option ℤ := (s.map Prod.fst).getLast?

def deployedNonzero (frame : WeightsFrame) : List String :=
  if frame.empty then []
  else
    match frame.rows.getLast? with
    | none => []
    | some latest => frame.columns.filter fun c => decide (latest.2.get c 0 ≠ 0)

/-- The decision-bar gate: the refresh-incomplete and the venue-gap symbols that pass it. -/
def decisionBarGate (fraction : ℚ) (inp : SignalInputs) (listing : Option (List VenueListingEntry))
    (held : Dict ℚ) (deployed : WeightsFrame) : Except SignalExc (List String × List String) :=
  let tradingCensus :=
    match listing with
    | none => inp.census
    | some entries => inp.census.filter fun s => entries.any fun e => decide (e.symbol = s ∧ e.status = "TRADING")
  let (refresh, venue) := inp.classifySnapshotGaps tradingCensus
  let requiredMissing :=
    ((held.keys ++ deployedNonzero deployed).dedup.filter fun s => decide (s ∈ refresh ++ venue)).insertionSort
      (· ≤ ·)
  if requiredMissing ≠ [] then
    .error (.dataIntegrityError
      (.decisionBarRequired requiredMissing (requiredMissing.any fun s => decide (s ∈ refresh))))
  else if tradingCensus ≠ [] ∧ fraction < (refresh.length : ℚ) / tradingCensus.length then
    .error (.dataIntegrityError (.decisionBarCensus refresh.length tradingCensus.length))
  else .ok (refresh, venue)

/-- The settlement price of each held or booked symbol past its delivery. -/
def collectSettlements (inp : SignalInputs) (listing : Option (List VenueListingEntry)) (held : Dict ℚ)
    (book : LiveStrategyBook) : Except SignalExc (Dict ℚ) :=
  match listing with
  | none => .ok ∅
  | some entries =>
    let booked := book.columns.filter fun s => book.index.any fun d => decide (book.unitWeights d s ≠ 0)
    ((held.keys ++ booked).dedup.insertionSort (· ≤ ·)).foldlM (fun settled symbol =>
      match entries.find? fun e => decide (e.symbol = symbol) with
      | none => .ok settled
      | some entry =>
        match entry.deliveryTime with
        | none => .ok settled
        | some delivery =>
          if ¬ delivery < inp.now then .ok settled
          else
            match inp.settlementEvidence symbol with
            | some price => .ok (settled.insert symbol price)
            | none =>
              if symbol ∈ held then .error (.dataIntegrityError (.settlementEvidence symbol))
              else .ok settled) ∅

/-- `snap_row`: the snapshot closes of the day, a settled symbol without one at its settlement
price. -/
def snapRow (book : LiveStrategyBook) (day : ℤ) (settled : Dict ℚ) (s : String) : Option ℚ :=
  if s ∈ book.columns then (book.snapshotCloses day s).orElse fun _ => settled.lookup s else none

structure Sized where
  census : List String
  needed : List String
  levered : String → ℚ
  sizing : List (String × ℚ)
  report : StrategyStepReport

/-- `needed`: the symbols with a unit weight, and the positions. -/
def neededSymbols (book : LiveStrategyBook) (day : ℤ) (held : Dict ℚ) : List String :=
  book.columns.filter (fun s => decide (book.unitWeights day s ≠ 0)) ++ held.keys

/-- The sizing row: the closes of the symbols with a unit weight or a position. -/
def sizingRow (book : LiveStrategyBook) (day : ℤ) (held settled : Dict ℚ) : List (String × ℚ) :=
  (book.columns.filter fun s => decide (book.unitWeights day s ≠ 0 ∨ s ∈ held)).filterMap fun s =>
    (snapRow book day settled s).map fun v => (s, v)

def sizingEquity (st : SignalSettings) (accountEquity : Option ℚ) (ledger : LedgerHoldings)
    (price : String → ℚ) : ℚ :=
  match accountEquity with
  | some equity => equity
  | none =>
    match ledger.cashUsdt with
    | none => st.seedEquityUsdt
    | some cash => cash + (ledger.held.entries.map fun e => e.2 * price e.1).sum

/-- Everything after the unit history: equity, exposure, the levered and the sizing row. -/
def sizeDay (st : SignalSettings) (day : ℤ) (inp : SignalInputs) (accountEquity : Option ℚ)
    (ledger : LedgerHoldings) (gaps : List String × List String) (book : LiveStrategyBook)
    (settled : Dict ℚ) (history : UnitSeries) : Except SignalExc Sized := do
  let past := history.filter fun p => decide (p.1 ≤ day)
  let moments := inp.bayesianUnitMoments past.length (past.map Prod.snd).sum
    (past.map fun p => p.2 ^ 2).sum
  match (neededSymbols book day ledger.held).find? fun s => (snapRow book day settled s).isNone with
  | some symbol => .error (.dataIntegrityError (.snapshotClose symbol))
  | none =>
    let price := fun s => (snapRow book day settled s).getD 0
    let equity := sizingEquity st accountEquity ledger price
    let (venueName, venueAge) ← inp.resolveVenue
    let exposure? ← inp.chooseExposure
      { unitValues := book.columns.map (book.unitWeights day)
        equity := equity
        heldNotional := book.columns.map fun s => ledger.held.get s 0 * price s
        adv := book.columns.map (book.adv day)
        dailySigma := book.columns.map (book.dailySigma day)
        moments := moments }
    match exposure? with
    | none => .error (.dataIntegrityError (.nonFiniteSizing day))
    | some exposure =>
      let levered := fun s => book.unitWeights day s * exposure
      .ok { census := book.columns
            needed := neededSymbols book day ledger.held
            levered := levered
            sizing := sizingRow book day ledger.held settled
            report :=
              { decisionDay := day, exposure := exposure, equityUsdt := equity
                grossWeight := (book.columns.map fun s => |levered s|).sum
                names := (book.columns.filter fun s => decide (levered s ≠ 0)).length
                unitObservations := past.length, posterior := moments
                unitHistoryEnd := (UnitSeries.lastDay history).getD 0
                venueSnapshot := venueName, written := true, venueSnapshotAgeDays := venueAge
                decisionBarMissing := gaps.1.length
                venueGapExcluded := gaps.2.insertionSort (· ≤ ·) } }

/-- The account equity as sizing uses it; given, it must be finite and positive. -/
def checkAccountEquity : Option (Option ℚ) → Except SignalExc (Option ℚ)
  | none => .ok none
  | some none => .error (.dataIntegrityError .accountEquity)
  | some (some equity) =>
    if equity ≤ 0 then .error (.dataIntegrityError .accountEquity) else .ok (some equity)

/-- The gate on the decision bars, where it is configured; it reads the deployed weights. -/
def checkDecisionBar (st : SignalSettings) (inp : SignalInputs) (listing : Option (List VenueListingEntry))
    (held : Dict ℚ) (weights : Artifact) : Except SignalExc (List String × List String) :=
  match st.decisionBarMaxMissingFraction with
  | none => .ok ([], [])
  | some fraction => do
    let deployed ← loadWeightsFrame st.artifacts weights
    decisionBarGate fraction inp listing held deployed

/-- `panel_start`: the warm-up before the oldest day that still has to be scored. -/
def panelStart (day bootstrapEnd : ℤ) (forward : UnitSeries) : ℤ :=
  min day (match UnitSeries.lastDay forward with
    | some last => last - 2
    | none => bootstrapEnd - 1) - liveSignalWarmupDays

/-- The step up to the sizing; the forward history is persisted as soon as it is extended. -/
def prepare (st : SignalSettings) (day : ℤ) (inp : SignalInputs) : SignalM Sized := do
  if inp.now < day * signalDayNs + releaseHourUtc * signalHourNs then
    Proc.throw (.causalityViolation day)
  else do
    let accountEquity ← Proc.ofExcept (checkAccountEquity inp.accountEquityUsdt)
    let bootstrap ← Proc.ofExcept inp.bootstrap
    let d ← Proc.get
    let forward := d.forward.getD []
    match UnitSeries.lastDay bootstrap with
    | none => Proc.throw (.dataIntegrityError .source)
    | some bootstrapEnd => do
      let listing ← Proc.ofExcept inp.listing
      let ledger ← Proc.ofExcept inp.ledger
      let gaps ← Proc.ofExcept (checkDecisionBar st inp listing ledger.held (d.artifact .weights))
      let book ← Proc.ofExcept (inp.book (panelStart day bootstrapEnd forward))
      if day ∉ book.index then Proc.throw (.dataIntegrityError (.noBookRow day))
      else do
        let settled ← Proc.ofExcept (collectSettlements inp listing ledger.held book)
        let proxy ← Proc.ofExcept (inp.unitProxyReturns book settled)
        let history ← Proc.ofExcept (extendUnitHistory bootstrap forward proxy)
        durableReplace fun d => { d with forward := some (history.filter fun p => decide (bootstrapEnd < p.1)) }
        Proc.ofExcept (sizeDay st day inp accountEquity ledger gaps book settled history)

/-- The levered row over the columns of the deployed frame, zero for a symbol outside today's
census. -/
def Sized.leveredColumns (p : Sized) (prior : List String) : List String :=
  (prior ++ p.census).dedup.insertionSort (· ≤ ·)

def Sized.leveredRow (p : Sized) (prior : List String) : Dict ℚ :=
  Dict.ofPairs ((p.leveredColumns prior).map fun s => (s, if s ∈ p.census then p.levered s else 0))

def Sized.sizingDict (p : Sized) : Dict ℚ := Dict.ofPairs p.sizing

def Sized.Covers (p : Sized) : Prop := ∀ s ∈ p.needed, ∃ v, p.sizingDict.lookup s = some v

def publishCloses (st : SignalSettings) (day : ℤ) (p : Sized) : SignalM StrategyStepReport :=
  if ¬ st.artifacts.token then Proc.throw (.dataIntegrityError .weightsPathToken)
  else do
    let _ ← appendWeightRow st.artifacts .closes day (p.sizing.map Prod.fst) p.sizingDict
    durableReplace fun d => { d with report := some p.report }
    pure p.report

/-- The second part of the step: the weight row, the decision closes and the report. -/
def publish (st : SignalSettings) (day : ℤ) (p : Sized) : SignalM StrategyStepReport := do
  let d ← Proc.get
  let existing ← Proc.ofExcept (loadWeightsFrame st.artifacts (d.artifact .weights))
  if ¬ existing.empty ∧ day ∈ existing.index then pure { p.report with written := false }
  else do
    let prior := if existing.empty then [] else existing.columns
    let _ ← appendWeightRow st.artifacts .weights day (p.leveredColumns prior) (p.leveredRow prior)
    publishCloses st day p

def runStrategySignalStep (st : SignalSettings) (day : ℤ) (inp : SignalInputs) : SignalM StrategyStepReport := do
  let p ← prepare st day inp
  publish st day p

/-! ## What one call does to the weights files -/

section Effect

variable {st : SignalSettings} {day : ℤ} {inp : SignalInputs} {d d' : SignalDisk} {p : Sized}

theorem sizeDay_covers {accountEquity : Option ℚ} {ledger : LedgerHoldings} {gaps : List String × List String}
    {book : LiveStrategyBook} {settled : Dict ℚ} {history : UnitSeries}
    (h : sizeDay st day inp accountEquity ledger gaps book settled history = .ok p) : p.census ≠ [] ∧ p.Covers := by
  unfold sizeDay at h
  split at h
  · cases h
  · next hfind =>
    rw [List.find?_eq_none] at hfind
    obtain ⟨venue, -, h⟩ := bind_eq_ok.mp h
    obtain ⟨exposure?, -, h⟩ := bind_eq_ok.mp h
    cases exposure? with
    | none => cases h
    | some exposure =>
      have hp := Except.ok.inj h
      refine ⟨by rw [← hp]; exact book.columns_ne_nil, fun s hs => ?_⟩
      have hneeded : s ∈ neededSymbols book day ledger.held := by
        rw [← hp] at hs; exact hs
      obtain ⟨v, hv⟩ : ∃ v, snapRow book day settled s = some v := by
        rw [← isSome_iff_exists]; simpa [isSome_iff_ne_none] using hfind s hneeded
      have hsizing : p.sizing = sizingRow book day ledger.held settled := by rw [← hp]
      have hnodup : (p.sizing.map Prod.fst).Nodup := by
        rw [hsizing, sizingRow, List.map_filterMap]
        refine (book.columns_nodup.filter _).filterMap ?_
        intro a a' b hb hb'
        simp only [mem_def, map_map, map_eq_some_iff, Function.comp_apply] at hb hb'
        obtain ⟨_, -, rfl⟩ := hb
        obtain ⟨_, -, rfl⟩ := hb'; rfl
      refine ⟨v, (Dict.lookup_ofPairs s v hnodup).mpr ?_⟩
      have hcolumn : s ∈ book.columns := by
        by_contra hnot; simp [snapRow, hnot] at hv
      rw [hsizing, sizingRow, List.mem_filterMap]
      refine ⟨s, List.mem_filter.mpr ⟨hcolumn, ?_⟩, by rw [hv]; rfl⟩
      rcases List.mem_append.mp hneeded with h | h
      · exact decide_eq_true (Or.inl (of_decide_eq_true (List.mem_filter.mp h).2))
      · exact decide_eq_true (Or.inr (AList.mem_keys.mp h))

variable {E : SignalExc → SignalDisk → Prop} {sizes : Sized → Prop}

theorem wp_durableReplace {write : SignalDisk → SignalDisk} {Q : Unit → SignalDisk → Prop}
    (hempty : d.script = [] → E .killed d)
    (hdone : ∀ io rest, d.script = io :: rest → io.result = .done → Q () (write { d with script := rest }))
    (hfailed : ∀ io rest e, d.script = io :: rest → io.result ≠ .done →
      E e (if io.lands then write { d with script := rest } else { d with script := rest })) :
    wp (durableReplace write) Q E d := by
  unfold durableReplace nextSignalIo
  rw [Proc.wp_bind, Proc.wp_bind, Proc.wp_get]
  cases hscript : d.script with
  | nil => exact hempty hscript
  | cons io rest =>
    rw [Proc.wp_bind, Proc.wp_modify, Proc.wp_pure, Proc.wp_ite]
    have hfailed := fun e => hfailed io rest e hscript
    have hdone := hdone io rest hscript
    cases hr : io.result with
    | done =>
      refine ⟨fun _ => ?_, fun h => absurd (Or.inl hr) h⟩
      exact hdone hr
    | raised =>
      refine ⟨fun h => ?_, fun h => ?_⟩
      · have := hfailed .osError (by simp [hr]); rwa [if_pos h] at this
      · have := hfailed .osError (by simp [hr]); rwa [if_neg h] at this
    | killed =>
      refine ⟨fun h => ?_, fun h => ?_⟩
      · have := hfailed .killed (by simp [hr]); rwa [if_pos h] at this
      · have := hfailed .killed (by simp [hr]); rwa [if_neg h] at this

theorem prepare_spec : wp (prepare st day inp) (fun p d' => d'.artifact = d.artifact ∧ d'.script = d.script.tail ∧
      p.census ≠ [] ∧ p.Covers)
    (fun _ d' => d'.artifact = d.artifact) d := by
  unfold prepare
  rw [Proc.wp_ite]
  refine ⟨fun _ => rfl, fun _ => ?_⟩
  rw [Proc.wp_bind, Proc.wp_ofExcept]
  refine ⟨fun accountEquity _ => ?_, fun _ _ => rfl⟩
  rw [Proc.wp_bind, Proc.wp_ofExcept]
  refine ⟨fun bootstrap _ => ?_, fun _ _ => rfl⟩
  rw [Proc.wp_bind, Proc.wp_get]
  cases UnitSeries.lastDay bootstrap with
  | none => exact rfl
  | some bootstrapEnd =>
    rw [Proc.wp_bind, Proc.wp_ofExcept]
    refine ⟨fun listing _ => ?_, fun _ _ => rfl⟩
    rw [Proc.wp_bind, Proc.wp_ofExcept]
    refine ⟨fun ledger _ => ?_, fun _ _ => rfl⟩
    rw [Proc.wp_bind, Proc.wp_ofExcept]
    refine ⟨fun gaps _ => ?_, fun _ _ => rfl⟩
    rw [Proc.wp_bind, Proc.wp_ofExcept]
    refine ⟨fun book _ => ?_, fun _ _ => rfl⟩
    rw [Proc.wp_ite]
    refine ⟨fun _ => rfl, fun _ => ?_⟩
    rw [Proc.wp_bind, Proc.wp_ofExcept]
    refine ⟨fun settled _ => ?_, fun _ _ => rfl⟩
    rw [Proc.wp_bind, Proc.wp_ofExcept]
    refine ⟨fun proxy _ => ?_, fun _ _ => rfl⟩
    rw [Proc.wp_bind, Proc.wp_ofExcept]
    refine ⟨fun history _ => ?_, fun _ _ => rfl⟩
    rw [Proc.wp_bind]
    refine wp_durableReplace (fun _ => rfl) (fun io rest hscript _ => ?_) fun io rest _ _ _ => ?_
    · rw [Proc.wp_ofExcept]
      exact ⟨fun p hp => ⟨rfl, by rw [hscript]; rfl, sizeDay_covers hp⟩, fun _ _ => rfl⟩
    · split <;> rfl

/-- A call that has sized the day replaces the weights file: it can be read, and the second durable
write reaches it. -/
def WeightsLand (st : ArtifactSettings) (d : SignalDisk) : Prop :=
  (st.enc = true → st.key = true) ∧ (∃ f, loadWeightsFrame st (d.artifact .weights) = .ok f) ∧
    ∃ io, d.script[1]? = some io ∧ io.lands

/-- After its weight row a call gets the decision closes of the day to disk: the second durable
write returns, the file can be named and read, and the row is there or the third write lands. -/
def ClosesFollow (st : ArtifactSettings) (day : ℤ) (d : SignalDisk) : Prop :=
  st.token = true ∧ (∃ io, d.script[1]? = some io ∧ io.result = .done) ∧
    ∃ g, loadWeightsFrame st (d.artifact .closes) = .ok g ∧
      (g.Has day ∨ ∃ io, d.script[2]? = some io ∧ io.lands)

def Appended (st : ArtifactSettings) (day : ℤ) (columns : List String) (row : Dict ℚ) (a a' : Artifact) : Prop :=
  ∃ f, loadWeightsFrame st a = .ok f ∧ ¬ f.Has day ∧ a' = a.write st (withRow f day columns row)

/-- What a call from `d` to `d'` did to the weights files, and whether it returned. -/
inductive StepEffect (st : ArtifactSettings) (day : ℤ) (sizes : Sized → Prop) (d d' : SignalDisk) :
    Bool → Prop
  /-- it ended before a weights file was replaced -/
  | untouched (same : d'.artifact = d.artifact) (ended : ∀ p, sizes p → ¬ WeightsLand st d ∨
      ∃ f, loadWeightsFrame st (d.artifact .weights) = .ok f ∧ f.Has day) : StepEffect st day sizes d d' false
  /-- it found the day in the weights file -/
  | already {f : WeightsFrame} (same : d'.artifact = d.artifact)
      (load : loadWeightsFrame st (d.artifact .weights) = .ok f) (has : f.Has day) :
      StepEffect st day sizes d d' true
  /-- it ended between the weight row and the decision closes -/
  | torn {p : Sized} {prior : List String} (sized : sizes p) (census : p.census ≠ []) (lands : WeightsLand st d)
      (cut : ¬ ClosesFollow st day d)
      (weights : Appended st day (p.leveredColumns prior) (p.leveredRow prior) (d.artifact .weights)
        (d'.artifact .weights))
      (closes : d'.artifact .closes = d.artifact .closes) : StepEffect st day sizes d d' false
  /-- it wrote both rows, the decision closes unless their row was there -/
  | published {p : Sized} {prior : List String} {returned : Bool} (sized : sizes p)
      (census : p.census ≠ []) (covers : p.Covers)
      (lands : WeightsLand st d) (follow : ClosesFollow st day d)
      (weights : Appended st day (p.leveredColumns prior) (p.leveredRow prior) (d.artifact .weights)
        (d'.artifact .weights))
      (closes : Appended st day (p.sizing.map Prod.fst) p.sizingDict (d.artifact .closes) (d'.artifact .closes) ∨
        (∃ g, loadWeightsFrame st (d.artifact .closes) = .ok g ∧ g.Has day) ∧
          d'.artifact .closes = d.artifact .closes) :
      StepEffect st day sizes d d' returned

def SignalDisk.put (d : SignalDisk) (st : ArtifactSettings) (name : ArtifactName) (frame : WeightsFrame) :
    SignalDisk :=
  { d with artifact := Function.update d.artifact name ((d.artifact name).write st frame) }

theorem wp_appendWeightRow {st : ArtifactSettings} {name : ArtifactName} {columns : List String}
    {row : Dict ℚ} {Q : Bool → SignalDisk → Prop}
    (hload : ∀ e, loadWeightsFrame st (d.artifact name) = .error e → E e d)
    (hhas : ∀ f, loadWeightsFrame st (d.artifact name) = .ok f → f.Has day → Q false d)
    (hkey : st.enc = true → st.key = false → E (.dataIntegrityError .sealedPathRequiresKey) d)
    (hempty : ∀ f, loadWeightsFrame st (d.artifact name) = .ok f → ¬ f.Has day → d.script = [] → E .killed d)
    (hdone : ∀ f io rest, loadWeightsFrame st (d.artifact name) = .ok f → ¬ f.Has day →
      (st.enc = true → st.key = true) → d.script = io :: rest → io.result = .done →
      Q true ({ d with script := rest }.put st name (withRow f day columns row)))
    (hfailed : ∀ f io rest e, loadWeightsFrame st (d.artifact name) = .ok f → ¬ f.Has day →
      (st.enc = true → st.key = true) → d.script = io :: rest → io.result ≠ .done →
      E e (if io.lands then { d with script := rest }.put st name (withRow f day columns row)
        else { d with script := rest })) :
    wp (appendWeightRow st name day columns row) Q E d := by
  unfold appendWeightRow
  rw [Proc.wp_bind, Proc.wp_get, Proc.wp_bind, Proc.wp_ofExcept]
  refine ⟨fun f hf => ?_, hload⟩
  rw [Proc.wp_ite]
  have hiff : (¬ f.empty ∧ day ∈ f.index) ↔ f.Has day := by
    rw [WeightsFrame.Has, Bool.not_eq_true]
  rw [hiff]
  refine ⟨fun h => hhas f hf h, fun h => ?_⟩
  rw [Proc.wp_bind]
  unfold writeParquet
  rw [Proc.wp_ite]
  refine ⟨fun hk => hkey hk.1 (by simpa using hk.2), fun hk => ?_⟩
  have hk : st.enc = true → st.key = true := by
    intro henc
    by_contra hnot; exact hk ⟨henc, hnot⟩
  exact wp_durableReplace (hempty f hf h) (fun io rest hs hr => hdone f io rest hf h hk hs hr)
    fun io rest e hs hr => hfailed f io rest e hf h hk hs hr

@[simp] theorem SignalDisk.put_same (st : ArtifactSettings) (name : ArtifactName) (frame : WeightsFrame) :
    (d.put st name frame).artifact name = (d.artifact name).write st frame := by
  simp [SignalDisk.put]

theorem SignalDisk.put_other {name other : ArtifactName} (h : other ≠ name) (st : ArtifactSettings)
    (frame : WeightsFrame) : (d.put st name frame).artifact other = d.artifact other := by
  simp [SignalDisk.put, Function.update_of_ne h]

theorem appended_put {st : ArtifactSettings} {name : ArtifactName} {a : Artifact} {f : WeightsFrame}
    {columns : List String} {row : Dict ℚ} (ha : d.artifact name = a) (hload : loadWeightsFrame st a = .ok f)
    (hnew : ¬ f.Has day) :
    Appended st day columns row a ((d.put st name (withRow f day columns row)).artifact name) :=
  ⟨f, hload, hnew, by rw [SignalDisk.put_same, ha]⟩

theorem publishCloses_spec {prior : List String} {d₂ : SignalDisk}
    (hsized : sizes p) (hcensus : p.census ≠ []) (hcovers : p.Covers)
    (hlands : WeightsLand st.artifacts d) (hdone : ∃ io, d.script[1]? = some io ∧ io.result = .done)
    (hweights : Appended st.artifacts day (p.leveredColumns prior) (p.leveredRow prior) (d.artifact .weights)
      (d₂.artifact .weights))
    (hcloses : d₂.artifact .closes = d.artifact .closes)
    (hscript : d₂.script[0]? = d.script[2]?) :
    wp (publishCloses st day p) (fun _ d' => StepEffect st.artifacts day sizes d d' true)
      (fun _ d' => StepEffect st.artifacts day sizes d d' false) d₂ := by
  have htorn : ∀ {d' : SignalDisk}, d'.artifact = d₂.artifact → ¬ ClosesFollow st.artifacts day d →
      StepEffect st.artifacts day sizes d d' false := by
    intro d' h hcut
    exact .torn hsized hcensus hlands hcut (by rw [h]; exact hweights) (by rw [h]; exact hcloses)
  unfold publishCloses
  rw [Proc.wp_ite]
  refine ⟨fun htoken => htorn rfl fun h => htoken h.1, fun htoken => ?_⟩
  have htoken : st.artifacts.token = true := by simpa using htoken
  -- once the closes row stands, whatever becomes of the report is the same effect
  have hpublished : ∀ {g : WeightsFrame} {d₃ : SignalDisk} {returned : Bool},
      loadWeightsFrame st.artifacts (d.artifact .closes) = .ok g →
      (g.Has day ∨ ∃ io, d.script[2]? = some io ∧ io.lands) →
      d₃.artifact .weights = d₂.artifact .weights →
      (Appended st.artifacts day (p.sizing.map Prod.fst) p.sizingDict (d.artifact .closes)
          (d₃.artifact .closes) ∨
        (∃ g, loadWeightsFrame st.artifacts (d.artifact .closes) = .ok g ∧ g.Has day) ∧
          d₃.artifact .closes = d.artifact .closes) →
      StepEffect st.artifacts day sizes d d₃ returned := by
    intro g d₃ returned hg hrow hw hc
    exact .published hsized hcensus hcovers hlands ⟨htoken, hdone, g, hg, hrow⟩ (by rw [hw]; exact hweights) hc
  rw [Proc.wp_bind]
  refine wp_appendWeightRow (fun e he => ?_) (fun g hg hhas => ?_) (fun henc hkey => ?_)
    (fun g hg hnew hnil => ?_) (fun g io rest hg hnew _ hio hlanded => ?_)
    fun g io rest e hg hnew _ hio hfail => ?_
  · refine htorn rfl fun h => ?_
    obtain ⟨-, -, g, hg, -⟩ := h
    rw [hcloses, hg] at he; cases he
  · -- the row is there already: the report is all that is left
    rw [hcloses] at hg
    have hpub : ∀ {d₃ : SignalDisk} {returned : Bool}, d₃.artifact = d₂.artifact →
        StepEffect st.artifacts day sizes d d₃ returned := fun h =>
      hpublished hg (Or.inl hhas) (by rw [h]) (Or.inr ⟨⟨g, hg, hhas⟩, by rw [h]; exact hcloses⟩)
    rw [Proc.wp_bind]
    refine wp_durableReplace (fun _ => hpub rfl) (fun _ _ _ _ => hpub rfl) fun io _ _ _ _ => ?_
    split <;> exact hpub rfl
  · rw [hlands.1 henc] at hkey; cases hkey
  · refine htorn rfl fun h => ?_
    obtain ⟨-, -, g', hg', hhas | ⟨io, hio, -⟩⟩ := h
    · rw [hcloses, hg'] at hg; exact hnew (Except.ok.inj hg ▸ hhas)
    · rw [← hscript, hnil] at hio; cases hio
  · -- both rows are on disk
    have hio2 : d.script[2]? = some io := by rw [← hscript, hio]; rfl
    rw [hcloses] at hg
    have hpub : ∀ {d₃ : SignalDisk} {returned : Bool},
        d₃.artifact = (SignalDisk.put { d₂ with script := rest } st.artifacts .closes
          (withRow g day (p.sizing.map Prod.fst) p.sizingDict)).artifact →
        StepEffect st.artifacts day sizes d d₃ returned := by
      intro d₃ returned h
      refine hpublished hg (Or.inr ⟨io, hio2, Or.inl hlanded⟩) ?_ (Or.inl ?_)
      · rw [h, SignalDisk.put_other (by decide)]
      · rw [h]; exact appended_put hcloses hg hnew
    rw [Proc.wp_bind]
    refine wp_durableReplace (fun _ => hpub rfl) (fun _ _ _ _ => hpub rfl) fun io _ _ _ _ => ?_
    split <;> exact hpub rfl
  · -- the replacement failed: the row landed or it did not
    have hio2 : d.script[2]? = some io := by rw [← hscript, hio]; rfl
    rw [hcloses] at hg
    split
    · next hland =>
      refine hpublished hg (Or.inr ⟨io, hio2, hland⟩) ?_ (Or.inl (appended_put hcloses hg hnew))
      rw [SignalDisk.put_other (by decide)]
    · next hland =>
      refine htorn rfl fun h => ?_
      obtain ⟨-, -, g', hg', hhas | ⟨io', hio', hland'⟩⟩ := h
      · rw [hg'] at hg; exact hnew (Except.ok.inj hg ▸ hhas)
      · rw [hio2] at hio'; exact hland (Option.some.inj hio' ▸ hland')

theorem publish_spec {d₁ : SignalDisk} (hart : d₁.artifact = d.artifact)
    (hscript : d₁.script = d.script.tail) (hsized : sizes p) (hcensus : p.census ≠ []) (hcovers : p.Covers) :
    wp (publish st day p) (fun _ d' => StepEffect st.artifacts day sizes d d' true)
      (fun _ d' => StepEffect st.artifacts day sizes d d' false) d₁ := by
  have hstep : ∀ n, d₁.script[n]? = d.script[n + 1]? := by
    intro n
    rw [hscript, List.getElem?_tail]
  have hsame : ∀ {d' : SignalDisk}, d'.artifact = d.artifact → ¬ WeightsLand st.artifacts d →
      StepEffect st.artifacts day sizes d d' false :=
    fun h hland => .untouched h fun _ _ => Or.inl hland
  unfold publish
  rw [Proc.wp_bind, Proc.wp_get, Proc.wp_bind, Proc.wp_ofExcept, hart]
  refine ⟨fun existing hexisting => ?_, fun e he => hsame hart fun h => ?_⟩
  · rw [Proc.wp_ite]
    refine ⟨fun hhas => .already hart hexisting ⟨by simpa using hhas.1, hhas.2⟩, fun hnot => ?_⟩
    have hnothas : ¬ existing.Has day := fun h => hnot ⟨by simp [h.1], h.2⟩
    have hname : ∀ {f}, loadWeightsFrame st.artifacts (d₁.artifact .weights) = .ok f → existing = f := by
      intro f hf
      rw [hart, hexisting] at hf; exact Except.ok.inj hf
    rw [Proc.wp_bind]
    refine wp_appendWeightRow (fun e he => ?_) (fun f hf hhas => absurd (hname hf ▸ hhas) hnothas)
      (fun henc hkey => hsame hart fun h => ?_) (fun f hf _ hnil => hsame hart fun h => ?_)
      (fun f io rest hf hnew hkey hio hdone => ?_) fun f io rest e hf hnew hkey hio hfail => ?_
    · rw [hart, hexisting] at he; cases he
    · rw [h.1 henc] at hkey; cases hkey
    · obtain ⟨io, hio, -⟩ := h.2.2
      rw [← hstep 0, hnil] at hio; cases hio
    · have hio1 : d.script[1]? = some io := by rw [← hstep 0, hio]; rfl
      refine publishCloses_spec hsized hcensus hcovers ⟨hkey, ⟨existing, hexisting⟩, io, hio1, Or.inl hdone⟩
        ⟨io, hio1, hdone⟩ (appended_put (congrFun hart _) (hname hf ▸ hexisting) hnew) ?_ ?_
      · rw [SignalDisk.put_other (by decide), ← hart]
      · show rest[0]? = _
        rw [← hstep 1, hio]; rfl
    · have hio1 : d.script[1]? = some io := by rw [← hstep 0, hio]; rfl
      split
      · next hland =>
        refine .torn hsized hcensus ⟨hkey, ⟨existing, hexisting⟩, io, hio1, hland⟩ ?_
          (appended_put (congrFun hart _) (hname hf ▸ hexisting) hnew) ?_
        · rintro ⟨-, ⟨io', hio', hdone⟩, -⟩
          rw [hio1] at hio'; exact hfail (Option.some.inj hio' ▸ hdone)
        · rw [SignalDisk.put_other (by decide), ← hart]
      · next hland =>
        refine hsame hart fun h => ?_
        obtain ⟨io', hio', hland'⟩ := h.2.2
        rw [hio1] at hio'; exact hland (Option.some.inj hio' ▸ hland')
  · obtain ⟨f, hf⟩ := h.2.1
    rw [he] at hf; cases hf

end Effect

/-- **What one call does to the weights files.** -/
theorem runStrategySignalStep_effect (st : SignalSettings) (day : ℤ) (inp : SignalInputs) (d : SignalDisk) :
    StepEffect st.artifacts day (fun p => (prepare st day inp d).1 = .ok p) d
      (runStrategySignalStep st day inp d).2 (runStrategySignalStep st day inp d).1.isOk := by
  have hsizes : wp (prepare st day inp) (fun p _ => (prepare st day inp d).1 = .ok p)
      (fun e _ => (prepare st day inp d).1 = .error e) d := by
    unfold wp
    split <;> next h => rw [h]
  have hspec : wp (runStrategySignalStep st day inp)
      (fun _ d' => StepEffect st.artifacts day (fun p => (prepare st day inp d).1 = .ok p) d d' true)
      (fun _ d' => StepEffect st.artifacts day (fun p => (prepare st day inp d).1 = .ok p) d d' false) d := by
    unfold runStrategySignalStep
    rw [Proc.wp_bind]
    refine wp_mono (Proc.wp_and prepare_spec hsizes) (fun p d₁ h => ?_) fun e d₁ h => ?_
    · obtain ⟨⟨hart, hscript, hcensus, hcovers⟩, hsized⟩ := h
      exact publish_spec hart hscript hsized hcensus hcovers
    · refine .untouched h.1 fun p hp => ?_
      rw [h.2] at hp; cases hp
  unfold wp at hspec
  split at hspec <;> next h => rw [h]; exact hspec

end CryptoPilot.Live
