/- # Resync — operator-acknowledged adoption of the venue's positions into the ledger.

`run_ledger_resync` sweeps and recovers its own orders, commits what the journal holds, compares the
ledger with the venue snapshot, journals one `operator_resync` fill for every breach, commits again,
verifies, and only then clears the de-risk flag.  The process may die at any durable operation, and
is then run again against the same venue. -/
import CryptoPilot.Live.BookInvariants

namespace CryptoPilot.Live

open CryptoPilot.Lib List
open CryptoPilot.Lib.Proc (Along)

/-! ## The program -/

/-- One durable append to the journal; where it did not complete, the record may be on disk. -/
def appendJournal (r : Record) : BookM Unit := do
  let io ← nextIo
  if io.result = .done ∨ 0 < io.landed then
    Proc.modify fun b => { b with journal := b.journal.apply r }
    finishIo io.result
  else finishIo io.result

/-- `record_fill`. -/
def journalFill (draft : FillDraft) : BookM Unit := do
  let b ← Proc.get
  let fill ← Proc.ofExcept (b.journal.newFill draft)
  appendJournal (.fill fill)

/-- `begin_attempt`. -/
def journalAttempt (context : AttemptContext) : BookM JournalAttempt := do
  let b ← Proc.get
  let attempt := b.journal.newAttempt context
  appendJournal (.attempt attempt)
  pure attempt

/-- What one run meets: the clock, the listing, the fills its sweep and recovery journal, and the
tickers' marks. -/
structure ResyncInput where
  now : ℚ
  runId : String
  listing : List ListingEntry
  daemonIdle : Bool := true
  swept : List FillDraft := []
  foreignOrders : Bool := false
  recovered : List FillDraft := []
  unresolvedOrders : Bool := false
  marks : Dict ℚ

structure ResyncPlan where
  adjustments : List PositionBreach
  applied : Bool

def ResyncInput.settledSymbols (inp : ResyncInput) (venue : Dict ℚ) (s : LedgerState) : List String :=
  settledDelistingSymbols inp.listing venue s.positions inp.now

def ResyncInput.breaches (inp : ResyncInput) (venue : Dict ℚ) (s : LedgerState) :
    Except Exc (List PositionBreach) :=
  findPositionBreaches venue s.positions reconcileQtyToleranceFraction (inp.settledSymbols venue s)

def ResyncInput.adoption (inp : ResyncInput) (attemptSeq : ℤ) (b : PositionBreach) : FillDraft where
  kind := .operatorResync
  attemptSeq := some attemptSeq
  symbol := b.symbol
  side := if 0 < b.gap then "BUY" else "SELL"
  quantity := |b.gap|
  price := inp.marks.get b.symbol 0
  feeBps := 0
  liquidity := "taker"
  reason := "operator_resync"
  filledAt := inp.now
  clientOrderId := none
  legIndex := 0
  cumulativeExecutedQty := none
  simulated := false

def ResyncInput.context (inp : ResyncInput) (st : LiveSettings) : AttemptContext where
  decisionTime := inp.now
  runId := inp.runId
  mode := st.mode.value
  preTradeEquity := 0
  sizingAnchor := "ledger_resync"
  decisionMarks := []
  startedAt := inp.now

def resyncCall (attempt : JournalAttempt) : CommitCall where
  fallbackAttempt := attempt.toAttemptContext
  equity := none
  executedDecisionTime := none

/-- `clear_derisk`, then the audit line. -/
def finishResync (s : LedgerState) : BookM Unit := do
  let _ ← saveChanged s (clearDerisk s)
  touch

/-- Back up the ledger, journal every breach, commit, verify and clear the flag. -/
def adoptBreaches (st : LiveSettings) (venue : Dict ℚ) (inp : ResyncInput) (attempt : JournalAttempt)
    (s : LedgerState) (breaches : List PositionBreach) : BookM ResyncPlan := do
  touch
  touch
  -- a label price is never made up
  if breaches.any fun b => decide (inp.marks.get b.symbol 0 ≤ 0) then Proc.throw .other
  else do
    Proc.forEach breaches fun b => journalFill (inp.adoption attempt.attemptSeq b)
    let committed ← commitAndRecord st s (resyncCall attempt)
    let _ ← Proc.ofExcept (reconcileOrHalt venue committed.positions reconcileQtyToleranceFraction
      (inp.settledSymbols venue committed))
    finishResync committed
    pure ⟨breaches, true⟩

def compareAndAdopt (st : LiveSettings) (venue : Dict ℚ) (inp : ResyncInput) : BookM ResyncPlan := do
  touch
  let loaded ← loadLedger
  let attempt ← journalAttempt (inp.context st)
  let committed ← commitAndRecord st loaded (resyncCall attempt)
  let breaches ← Proc.ofExcept (inp.breaches venue committed)
  if breaches = [] then do
    finishResync committed
    pure ⟨[], true⟩
  else adoptBreaches st venue inp attempt committed breaches

/-- The sweep, the recovery and the settlement of own orders, then the comparison. -/
def applyResync (st : LiveSettings) (venue : Dict ℚ) (inp : ResyncInput) : BookM ResyncPlan := do
  Proc.forEach inp.swept fun draft => journalFill { draft with kind := .orphanSettlement }
  if inp.foreignOrders then Proc.throw .other
  else do
    Proc.forEach inp.recovered fun draft => journalFill { draft with kind := .recovered }
    if inp.unresolvedOrders then do
      touch
      Proc.throw .other
    else compareAndAdopt st venue inp

/-- Without `apply` the plan is computed and nothing is written. -/
def planResync (venue : Dict ℚ) (inp : ResyncInput) : BookM ResyncPlan := do
  touch
  let loaded ← loadLedger
  let breaches ← Proc.ofExcept (inp.breaches venue loaded)
  touch
  pure ⟨breaches, false⟩

def runLedgerResync (st : LiveSettings) (venue : Dict ℚ) (inp : ResyncInput) (apply : Bool) :
    BookM ResyncPlan := do
  if st.mode.suppressesMutations then Proc.throw .other
  else if apply && !inp.daemonIdle then Proc.throw .other
  else do
    touch
    if apply then applyResync st venue inp else planResync venue inp

abbrev ResyncRun : Type := ResyncInput × List IoStep

def ResyncRun.exec (st : LiveSettings) (venue : Dict ℚ) (r : ResyncRun) (d : Disk) : Except Exc ResyncPlan × Disk :=
  runLedgerResync st venue r.1 true { d with script := r.2 }

def resyncRuns (st : LiveSettings) (venue : Dict ℚ) (d : Disk) (runs : List ResyncRun) : Disk :=
  runs.foldl (fun d r => (r.exec st venue d).2) d

/-! ## What a run is to reach -/

/-- A symbol that the venue has settled: delisted, delivered, flat there, and still held by the
ledger. -/
def AwaitsSettlement (inp : ResyncInput) (venue : Dict ℚ) (s : LedgerState) (symbol : String) : Prop :=
  s.held symbol ≠ 0 ∧ venue.get symbol 0 = 0 ∧
    ∃ e ms, listingOf inp.listing symbol = some e ∧ delistedStatuses.contains e.status ∧
      e.deliveryDate = some ms ∧ ms ≤ ⌊inp.now * 1000⌋

/-- The ledger agrees with the venue, symbols that await their settlement apart. -/
def Synced (inp : ResyncInput) (venue : Dict ℚ) (s : LedgerState) : Prop :=
  ∀ symbol, Agrees venue s.positions symbol ∨ AwaitsSettlement inp venue s symbol

def LedgerState.Flagged (s : LedgerState) : Prop := s.deriskSince ≠ none ∨ s.deriskReasons ≠ []

/-- The fills that the runs have adopted for a symbol: those behind the first `n` of the journal. -/
def adoptedFills (n : ℕ) (j : Journal) (symbol : String) : List JournalFill :=
  (j.fills.drop n).filter fun f => decide (f.kind = .operatorResync ∧ f.symbol = symbol)

def wholePosition (init : LedgerState) (j : Journal) (symbol : String) : ℚ :=
  init.held symbol + positionMove symbol (j.fillsAfter init.journalAppliedFillSeq)

/-! ## Adoption and the journal -/

section Journal

variable {st : LiveSettings} {venue : Dict ℚ} {init : LedgerState} {n : ℕ} {j : Journal}

variable {f : JournalFill} {draft : FillDraft}

theorem adoptedFills_fill (hn : n ≤ j.fills.length) (symbol : String) :
    adoptedFills n (j.apply (.fill f)) symbol = adoptedFills n j symbol ++
      if f.kind = .operatorResync ∧ f.symbol = symbol then [f] else [] := by
  unfold adoptedFills
  rw [Journal.apply_fill_fills, drop_append_of_le_length hn]
  by_cases h : f.kind = .operatorResync ∧ f.symbol = symbol <;> simp [h]

theorem wholePosition_fill (hf : init.journalAppliedFillSeq < f.fillSeq) (symbol : String) :
    wholePosition init (j.apply (.fill f)) symbol = wholePosition init j symbol +
      if f.symbol = symbol then f.signedQty else 0 := by
  unfold wholePosition Journal.fillsAfter positionMove
  rw [Journal.apply_fill_fills, filter_append, filter_singleton, decide_eq_true hf]
  simp [add_assoc]

theorem adoption_signedQty (inp : ResyncInput) (attemptSeq fillSeq : ℤ) (b : PositionBreach) :
    JournalFill.signedQty { toFillDraft := inp.adoption attemptSeq b, fillSeq := fillSeq } = b.gap := by
  unfold JournalFill.signedQty ResyncInput.adoption
  by_cases h : 0 < b.gap
  · simp [h, abs_of_pos h]
  · simp [h, abs_of_nonpos (not_lt.mp h)]

theorem Folded.held_of_caughtUp {s : LedgerState} (h : Folded st init j s) (hs : CaughtUp j s)
    (symbol : String) : s.held symbol = wholePosition init j symbol := by
  have hall : between init.journalAppliedFillSeq s.journalAppliedFillSeq j.fills
      = j.fillsAfter init.journalAppliedFillSeq := by
    apply filter_congr
    intro f hf
    have hle := hs f hf; simp [hle]
  rw [h.fold.held, hall]; rfl

/-- The invariant of the runs. -/
structure Resyncing (st : LiveSettings) (venue : Dict ℚ) (init : LedgerState) (n : ℕ) (d : Disk) : Prop where
  ordered : JournalOrdered d.journal
  start : init.journalAppliedFillSeq < d.journal.nextFillSeq
  file : Folded st init d.journal d.ledger
  long : n ≤ d.journal.fills.length
  adopted : ∀ symbol, adoptedFills n d.journal symbol = [] ∨
    ((adoptedFills n d.journal symbol).length = 1 ∧
      wholePosition init d.journal symbol = venue.get symbol 0)

variable {d : Disk}

theorem Resyncing.attempt (h : Resyncing st venue init n d) (a : JournalAttempt) :
    Resyncing st venue init n { d with journal := d.journal.apply (.attempt a) } :=
  ⟨h.ordered.attempt a, h.start, h.file.attempt a, h.long, h.adopted⟩

theorem Resyncing.fill (h : Resyncing st venue init n d) (hnew : d.journal.newFill draft = .ok f)
    (hadopted : ∀ symbol, adoptedFills n (d.journal.apply (.fill f)) symbol = [] ∨
      ((adoptedFills n (d.journal.apply (.fill f)) symbol).length = 1 ∧
        wholePosition init (d.journal.apply (.fill f)) symbol = venue.get symbol 0)) :
    Resyncing st venue init n { d with journal := d.journal.apply (.fill f) } := by
  obtain ⟨hordered, -, hnext⟩ := h.ordered.fill hnew
  refine ⟨hordered, h.start.trans hnext, h.file.fill h.ordered hnew, ?_, hadopted⟩
  have hlong := h.long
  change n ≤ (d.journal.fills ++ [f]).length
  rw [length_append]; omega

section

variable (h : Resyncing st venue init n d) (hnew : d.journal.newFill draft = .ok f)

include h hnew

theorem Resyncing.newFill_seq :
    f = { toFillDraft := draft, fillSeq := d.journal.nextFillSeq } ∧
      init.journalAppliedFillSeq < f.fillSeq := by
  obtain ⟨rfl, -⟩ := Journal.newFill_eq_ok hnew; exact ⟨rfl, h.start⟩

theorem Resyncing.recovered (hkind : draft.kind ≠ .operatorResync)
    (hnone : ∀ symbol, adoptedFills n d.journal symbol = []) :
    (∀ symbol, adoptedFills n (d.journal.apply (.fill f)) symbol = []) ∧
      Resyncing st venue init n { d with journal := d.journal.apply (.fill f) } := by
  have hsame : ∀ symbol, adoptedFills n (d.journal.apply (.fill f)) symbol = [] := by
    intro symbol
    obtain ⟨rfl, -⟩ := h.newFill_seq hnew
    rw [adoptedFills_fill h.long, hnone symbol, if_neg fun hk => hkind hk.1]
    rfl
  exact ⟨hsame, h.fill hnew fun symbol => Or.inl (hsame symbol)⟩

end

/-- **The adoption of a breach** that the whole journal has left open. -/
theorem Resyncing.adopt {inp : ResyncInput} {attemptSeq : ℤ} {b : PositionBreach}
    (h : Resyncing st venue init n d) (hnew : d.journal.newFill (inp.adoption attemptSeq b) = .ok f)
    (hledger : wholePosition init d.journal b.symbol = b.ledgerQty)
    (hvenue : venue.get b.symbol 0 = b.venueQty) (hgap : b.gap ≠ 0) :
    Resyncing st venue init n { d with journal := d.journal.apply (.fill f) } := by
  obtain ⟨hf, hseq⟩ := h.newFill_seq hnew
  have hkind : f.kind = .operatorResync := by rw [hf]; rfl
  have hfor : f.symbol = b.symbol := by rw [hf]; rfl
  have hqty : f.signedQty = b.gap := by rw [hf, adoption_signedQty]
  apply h.fill hnew
  intro symbol
  rw [adoptedFills_fill h.long, wholePosition_fill hseq]
  by_cases hsymbol : b.symbol = symbol
  · subst hsymbol
    -- nothing is adopted for the symbol, or its whole position would be that of the venue
    have hnone : adoptedFills n d.journal b.symbol = [] := by
      rcases h.adopted b.symbol with hnone | ⟨-, hwhole⟩
      · exact hnone
      · exact absurd (by rw [PositionBreach.gap, ← hvenue, ← hledger, hwhole, sub_self]) hgap
    right
    rw [if_pos ⟨hkind, hfor⟩, if_pos hfor, hnone, hledger, hqty, hvenue]
    refine ⟨rfl, ?_⟩
    rw [PositionBreach.gap]; ring
  · have hother : f.symbol ≠ symbol := hfor ▸ hsymbol
    rw [if_neg fun hk => hother hk.2, if_neg hother, append_nil, add_zero]
    exact h.adopted symbol

end Journal

/-! ## Breaches -/

section Breaches

variable {venue : Dict ℚ} {inp : ResyncInput} {s : LedgerState}

theorem mem_settledSymbols {symbol : String} (h : symbol ∈ inp.settledSymbols venue s) :
    AwaitsSettlement inp venue s symbol := by
  obtain ⟨-, h⟩ := mem_filter.mp h
  simp only [Bool.and_eq_true, decide_eq_true_eq] at h
  obtain ⟨⟨hheld, hflat⟩, hlisted⟩ := h
  cases he : listingOf inp.listing symbol with
  | none =>
    rw [he] at hlisted; cases hlisted
  | some e =>
    rw [he] at hlisted
    simp only [Bool.and_eq_true] at hlisted
    cases hms : e.deliveryDate with
    | none =>
      rw [hms] at hlisted; cases hlisted.2
    | some ms =>
      rw [hms] at hlisted
      have hdelivered : ms ≤ ⌊inp.now * 1000⌋ := by simpa using hlisted.2
      exact ⟨hheld, hflat, e, ms, he, hlisted.1, hms, hdelivered⟩

variable {breaches : List PositionBreach}

theorem breaches_eq_filterMap (h : inp.breaches venue s = .ok breaches) :
    ∃ find : String → Option PositionBreach,
      breaches = (comparedSymbols venue s.positions).filterMap find ∧
      (∀ symbol b, find symbol = some b → b = ⟨symbol, venue.get symbol 0, s.held symbol⟩ ∧
        venue.get symbol 0 ≠ s.held symbol) ∧
      ∀ symbol, find symbol = none →
        Agrees venue s.positions symbol ∨ AwaitsSettlement inp venue s symbol := by
  unfold ResyncInput.breaches findPositionBreaches at h
  rw [if_neg (by norm_num [reconcileQtyToleranceFraction])] at h
  refine ⟨_, (Except.ok.inj h).symm, fun symbol b hb => ?_, fun symbol hnone => ?_⟩
  · simp only at hb
    split_ifs at hb with hsettled hdev
    refine ⟨(Option.some.inj hb).symm, fun heq => ?_⟩
    have heq : venue.get symbol 0 = s.positions.get symbol 0 := heq
    rw [heq, deviation_self] at hdev; norm_num [reconcileQtyToleranceFraction] at hdev
  · simp only at hnone
    split_ifs at hnone with hsettled hdev
    · exact Or.inr (mem_settledSymbols (contains_iff_mem.mp hsettled.1))
    · exact Or.inl (not_lt.mp hdev)

theorem breaches_eq_ok (h : inp.breaches venue s = .ok breaches) :
    (breaches.map PositionBreach.symbol).Nodup ∧
      (∀ b ∈ breaches, s.held b.symbol = b.ledgerQty ∧ venue.get b.symbol 0 = b.venueQty ∧
        b.gap ≠ 0) ∧
      (breaches = [] → Synced inp venue s) := by
  obtain ⟨find, rfl, hsome, hnone⟩ := breaches_eq_filterMap h
  refine ⟨?_, ?_, ?_⟩
  · have hnodup : (comparedSymbols venue s.positions).Nodup := by
      exact (perm_insertionSort _ _).nodup_iff.mpr (nodup_dedup _)
    have hsymbol : ∀ symbol name, name ∈ (find symbol).map PositionBreach.symbol → name = symbol := by
      intro symbol name hname
      obtain ⟨b, hb, rfl⟩ := Option.map_eq_some_iff.mp hname
      rw [(hsome symbol b hb).1]
    rw [map_filterMap]
    apply hnodup.filterMap
    intro symbol symbol' name hname hname'
    rw [← hsymbol symbol name hname, ← hsymbol symbol' name hname']
  · intro b hb
    obtain ⟨symbol, -, hb⟩ := mem_filterMap.mp hb
    obtain ⟨rfl, hne⟩ := hsome symbol b hb; exact ⟨rfl, rfl, sub_ne_zero.mpr hne⟩
  · intro hnil symbol
    by_cases heq : venue.get symbol 0 = s.positions.get symbol 0
    · left
      unfold Agrees
      rw [heq, deviation_self]; norm_num [reconcileQtyToleranceFraction]
    · have hmem := mem_comparedSymbols_of_held heq
      exact hnone symbol (filterMap_eq_nil_iff.mp hnil symbol hmem)

theorem reconcileOrHalt_eq_ok (h : reconcileOrHalt venue s.positions reconcileQtyToleranceFraction
    (inp.settledSymbols venue s) = .ok ()) : Synced inp venue s := by
  unfold reconcileOrHalt at h
  cases hb : findPositionBreaches venue s.positions reconcileQtyToleranceFraction
      (inp.settledSymbols venue s) with
  | error e =>
    rw [hb] at h; cases h
  | ok breaches =>
    rw [hb] at h
    cases breaches with
    | nil => exact (breaches_eq_ok hb).2.2 rfl
    | cons b rest => cases h

end Breaches

/-! ## One run -/

section Run

variable {st : LiveSettings} {venue : Dict ℚ} {init : LedgerState} {n : ℕ} {inp : ResyncInput}
  {flagged : Prop} {d : Disk}

/-- The file holds what a state holds: its positions, its cash, its watermark and its flag. -/
structure OnDisk (s : LedgerState) (d : Disk) : Prop where
  held : ∀ symbol, d.ledger.held symbol = s.held symbol
  cash : d.ledger.cashUsdt = s.cashUsdt
  applied : d.ledger.journalAppliedFillSeq = s.journalAppliedFillSeq
  since : d.ledger.deriskSince = s.deriskSince
  reasons : d.ledger.deriskReasons = s.deriskReasons

variable {s : LedgerState}

theorem onDisk_saved (h : d.ledger = s.saved) : OnDisk s d := by
  constructor
  · intro symbol
    rw [h, s.saved_held]
  all_goals rw [h]; rfl

theorem OnDisk.congr {d' : Disk} (h : OnDisk s d) (hledger : d'.ledger = d.ledger) : OnDisk s d' := by
  constructor <;> rw [hledger]
  · exact h.held
  · exact h.cash
  · exact h.applied
  · exact h.since
  · exact h.reasons

theorem OnDisk.folded (h : OnDisk s d) (hfile : Folded st init d.journal d.ledger) : Folded st init d.journal s :=
  hfile.congr h.applied.symm (fun symbol => (h.held symbol).symm) h.cash.symm

theorem Synced.congr {s s' : LedgerState} (h : Synced inp venue s)
    (hheld : ∀ symbol, s'.held symbol = s.held symbol) : Synced inp venue s' := by
  intro symbol
  have hget : s'.positions.get symbol 0 = s.positions.get symbol 0 := hheld symbol
  rcases h symbol with hagrees | ⟨hne, hflat, hlisted⟩
  · left
    unfold Agrees
    rw [hget]; exact hagrees
  · exact Or.inr ⟨hheld symbol ▸ hne, hflat, hlisted⟩

/-- The invariant of one run: the flag it started with is still set, or the ledger is in order. -/
structure ResyncInv (st : LiveSettings) (venue : Dict ℚ) (init : LedgerState) (n : ℕ) (inp : ResyncInput)
    (flagged : Prop) (d : Disk) : Prop where
  runs : Resyncing st venue init n d
  flag : flagged → d.ledger.Flagged ∨ Synced inp venue d.ledger

def ResyncWrites (st : LiveSettings) (venue : Dict ℚ) (init : LedgerState) (n : ℕ) (inp : ResyncInput)
    (flagged : Prop) (d d' : Disk) : Prop :=
  (ResyncInv st venue init n inp flagged d → ResyncInv st venue init n inp flagged d') ∧
    d.fillRows <+: d'.fillRows ∧ d.taxRows <+: d'.taxRows

instance : DiskOrder (ResyncWrites st venue init n inp flagged) where
  refl _ := ⟨id, prefix_refl _, prefix_refl _⟩
  trans _ _ _ h h' := ⟨h'.1 ∘ h.1, h.2.1.trans h'.2.1, h.2.2.trans h'.2.2⟩
  io _ _ := ⟨fun h => ⟨⟨h.runs.1, h.runs.2, h.runs.3, h.runs.4, h.runs.5⟩, h.flag⟩,
    prefix_refl _, prefix_refl _⟩
  fillRows h := h.2.1
  taxRows h := h.2.2

variable {R : Disk → Disk → Prop} {call : CommitCall}

theorem appendJournal_along [DiskOrder R] {r : Record} (hwrite : ∀ script, R { d with script := script }
      { d with script := script, journal := d.journal.apply r }) :
    Along R (appendJournal r) d fun _ d' =>
      ∃ script, d' = { d with script := script, journal := d.journal.apply r } := by
  refine Along.bind nextIo_along fun io d' _ hd' => ?_
  obtain ⟨script, rfl⟩ := hd'
  refine Along.branch (fun _ => ?_) fun hnot => ?_
  · refine Along.bind (Along.update (hwrite script)) fun _ d' _ hd' => ?_
    subst hd'; exact Along.mono finishIo_along fun _ d'' _ h => ⟨script, h.2⟩
  · refine Along.mono finishIo_along fun _ d'' _ h => ?_
    exact absurd (Or.inl h.1) hnot

theorem journalFill_along [DiskOrder R] {draft : FillDraft}
    (hwrite : ∀ f script, d.journal.newFill draft = .ok f → R { d with script := script }
      { d with script := script, journal := d.journal.apply (.fill f) }) :
    Along R (journalFill draft) d fun _ d' => ∃ f script, d.journal.newFill draft = .ok f ∧
      d' = { d with script := script, journal := d.journal.apply (.fill f) } := by
  refine Along.readState (Along.fallible fun f hf => ?_)
  refine Along.mono (appendJournal_along fun script => hwrite f script hf) fun _ d' _ h => ?_
  obtain ⟨script, rfl⟩ := h; exact ⟨f, script, hf, rfl⟩

theorem recover_along (drafts : List FillDraft) (kind : FillKind) (hkind : kind ≠ .operatorResync)
    {d : Disk} (hinv : ResyncInv st venue init n inp flagged d)
    (hnone : ∀ symbol, adoptedFills n d.journal symbol = []) :
    Along (ResyncWrites st venue init n inp flagged)
      (Proc.forEach drafts fun draft => journalFill { draft with kind := kind }) d fun _ d' =>
        ResyncInv st venue init n inp flagged d' ∧ d'.ledger = d.ledger ∧
          ∀ symbol, adoptedFills n d'.journal symbol = [] := by
  refine Along.forEach (fun draft _ d' h => ?_) ⟨hinv, rfl, hnone⟩
  obtain ⟨hinv', hledger, hnone'⟩ := h
  refine Along.mono (journalFill_along fun f script hf => ?_) fun _ d'' hw h => ?_
  · refine ⟨fun h => ⟨?_, h.flag⟩, prefix_refl _, prefix_refl _⟩
    exact (h.runs.recovered hf hkind hnone').2
  · obtain ⟨f, script, hf, rfl⟩ := h
    exact ⟨hw.1 hinv', hledger, (hinv'.runs.recovered hf hkind hnone').1⟩

/-- **The loop over the breaches.** -/
theorem adopt_along (attemptSeq : ℤ) (breaches : List PositionBreach) : ∀ {d : Disk},
    (breaches.map PositionBreach.symbol).Nodup →
    (∀ b ∈ breaches, wholePosition init d.journal b.symbol = b.ledgerQty ∧
      venue.get b.symbol 0 = b.venueQty ∧ b.gap ≠ 0) →
    ResyncInv st venue init n inp flagged d →
    Along (ResyncWrites st venue init n inp flagged)
      (Proc.forEach breaches fun b => journalFill (inp.adoption attemptSeq b)) d fun _ d' =>
        d'.ledger = d.ledger := by
  induction breaches with
  | nil =>
    intro d _ _ _; exact Along.ret rfl
  | cons b rest ih =>
    intro d hnodup hopen hinv
    rw [map_cons, nodup_cons] at hnodup
    obtain ⟨hledger, hvenue, hgap⟩ := hopen b mem_cons_self
    refine Along.bind (journalFill_along fun f script hf => ?_) fun _ d' hw h => ?_
    · refine ⟨fun h => ⟨?_, h.flag⟩, prefix_refl _, prefix_refl _⟩
      exact h.runs.adopt hf hledger hvenue hgap
    · obtain ⟨f, script, hf, rfl⟩ := h
      -- the other breaches are of other symbols, whose positions have not moved
      have hopen' : ∀ b' ∈ rest, wholePosition init (d.journal.apply (.fill f)) b'.symbol
          = b'.ledgerQty ∧ venue.get b'.symbol 0 = b'.venueQty ∧ b'.gap ≠ 0 := by
        intro b' hb'
        obtain ⟨hf', hseq⟩ := hinv.runs.newFill_seq hf
        have hother : f.symbol ≠ b'.symbol := by
          intro heq
          have heq : b.symbol = b'.symbol := by
            rw [hf'] at heq; exact heq
          exact hnodup.1 (heq ▸ mem_map_of_mem hb')
        rw [wholePosition_fill hseq, if_neg hother, add_zero]
        exact hopen b' (mem_cons_of_mem b hb')
      exact ih hnodup.2 hopen' (hw.1 hinv)

theorem Committed.flag {base s : LedgerState} {j : Journal} (h : Committed st base call j s) :
    s.deriskSince = base.deriskSince ∧ s.deriskReasons = base.deriskReasons := by
  cases h with
  | kept | stamped => exact ⟨rfl, rfl⟩
  | folded hc => exact hc.derisk

theorem LedgerState.Flagged.congr {s s' : LedgerState} (h : s.Flagged)
    (hsame : s'.deriskSince = s.deriskSince ∧ s'.deriskReasons = s.deriskReasons) : s'.Flagged := by
  unfold LedgerState.Flagged
  rw [hsame.1, hsame.2]; exact h

theorem bookWrites_resync {base : LedgerState} {d d' : Disk}
    (hbase : Folded st init d.journal base) (hflag : flagged → base.Flagged)
    (h : BookWrites st base call d.journal d d') : ResyncWrites st venue init n inp flagged d d' := by
  obtain ⟨hj, hfills, htax⟩ := BookWrites.frame h
  refine ⟨fun hinv => ⟨⟨hj ▸ hinv.runs.ordered, hj ▸ hinv.runs.start, ?_, hj ▸ hinv.runs.long,
    hj ▸ hinv.runs.adopted⟩, fun hf => ?_⟩, hfills, htax⟩
  · rw [hj]; exact hbase.bookWrites hinv.runs.ordered h hinv.runs.file
  · clear hj hfills htax
    induction h with
    | refl => exact hinv.flag hf
    | tail _ hw ih =>
      cases hw with
      | commit hs => exact Or.inl ((hflag hf).congr hs.flag)
      | mark hs evidence marked =>
        obtain ⟨last, -, rfl⟩ := marked.spec; exact Or.inl ((hflag hf).congr hs.flag)
      | _ => exact ih

/-- **A commit** from a state that is on disk: it applies the whole journal, and what it returns is
on disk. -/
theorem commit_along {base : LedgerState}
    (hbase : Folded st init d.journal base) (hflag : flagged → base.Flagged) (hdisk : OnDisk base d)
    (hordered : JournalOrdered d.journal) :
    Along (ResyncWrites st venue init n inp flagged) (commitAndRecord st base call) d fun s d' =>
      d'.journal = d.journal ∧ CaughtUp d.journal s ∧ OnDisk s d' ∧ Folded st init d.journal s ∧
        (flagged → s.Flagged) := by
  have hwrites : Along (BookWrites st base call d.journal) (commitAndRecord st base call) d
      fun s d' => CaughtUp d.journal s ∧ OnDisk s d' ∧ Folded st init d.journal s ∧
        (flagged → s.Flagged) := by
    refine Along.bind commitPending_along fun s d' hw hs => ?_
    obtain ⟨hcommitted, hcaught, hfile⟩ := hs
    refine Along.readState ?_
    rw [(BookWrites.frame hw).1]
    have hsdisk : OnDisk s d' := by
      rcases hfile with ⟨rfl, hsame⟩ | hsaved
      · exact hdisk.congr hsame
      · exact onDisk_saved hsaved
    have hsfold : Folded st init d.journal s := hbase.committed hordered hcommitted
    have hsflag : flagged → s.Flagged := fun hf => (hflag hf).congr hcommitted.flag
    -- the second half writes the committed state, marked
    have hkeeps : ∀ d'', EvidenceWrites st base call d.journal s d' d'' → OnDisk s d'' := by
      intro d'' hw'
      induction hw' with
      | refl => exact hsdisk
      | tail _ hw' ih =>
        cases hw' with
        | mark evidence marked =>
          obtain ⟨last, -, rfl⟩ := marked.spec
          exact ⟨fun symbol => LedgerState.saved_held _ symbol, rfl, rfl, rfl, rfl⟩
        | _ => exact ih.congr rfl
    have hevidence := @recordEvidence_along st base call d.journal d' s
    refine Along.coarsen (Along.mono hevidence fun s' d'' hw' hkept => ?_) fun d'' hw' =>
      EvidenceWrites.bookWrites hcommitted hw'
    have hdisk' := hkeeps d'' hw'
    rcases hkept with rfl | ⟨-, hmarked⟩
    · exact ⟨hcaught, hdisk', hsfold, hsflag⟩
    · obtain ⟨last, -, rfl⟩ := hmarked.spec
      exact ⟨hcaught, ⟨hdisk'.held, hdisk'.cash, hdisk'.applied, hdisk'.since, hdisk'.reasons⟩,
        hsfold.congr rfl (fun _ => rfl) rfl, fun hf => (hsflag hf).congr ⟨rfl, rfl⟩⟩
  refine Along.coarsen (Along.mono hwrites fun s d' hw h => ⟨(BookWrites.frame hw).1, h⟩) fun d' hw => ?_
  exact bookWrites_resync hbase hflag hw

structure Resynced (venue : Dict ℚ) (inp : ResyncInput) (d : Disk) : Prop where
  synced : Synced inp venue d.ledger
  cleared : ¬ d.ledger.Flagged
  caughtUp : CaughtUp d.journal d.ledger

theorem clearDerisk_cases (s : LedgerState) :
    (clearDerisk s = none ∧ ¬ s.Flagged) ∨
      clearDerisk s = some { s with deriskSince := none, deriskReasons := [] } := by
  unfold clearDerisk
  split
  · next h => exact Or.inl ⟨rfl, fun hf => hf.elim (fun hs => hs h.1) fun hr => hr h.2⟩
  · exact Or.inr rfl

/-- **Clearing the flag**, in a ledger that is in order. -/
theorem finishResync_along (hsynced : Synced inp venue s) (hdisk : OnDisk s d)
    (hfold : Folded st init d.journal s) (hcaught : CaughtUp d.journal s) :
    Along (ResyncWrites st venue init n inp flagged) (finishResync s) d fun _ d' =>
      Resynced venue inp d' := by
  unfold finishResync
  have hcaught' : CaughtUp d.journal d.ledger := fun f hf => hdisk.applied ▸ hcaught f hf
  rcases clearDerisk_cases s with ⟨hnone, hclear⟩ | hsome
  · rw [hnone]
    refine Along.bind (Along.ret rfl : Along _ (pure s) d fun _ d' => d' = d) fun _ d' _ hd' => ?_
    subst hd'
    refine Along.mono touch_along fun _ d'' _ h => ?_
    obtain ⟨script, rfl⟩ := h
    have hflag : ¬ d'.ledger.Flagged := fun hf =>
      hclear (hf.congr ⟨hdisk.since.symm, hdisk.reasons.symm⟩)
    exact ⟨hsynced.congr hdisk.held, hflag, hcaught'⟩
  · rw [hsome]
    have hcleared : ∀ symbol, ({ s with deriskSince := none, deriskReasons := [] } : LedgerState).saved.held
        symbol = s.held symbol := fun symbol => LedgerState.saved_held _ symbol
    refine Along.bind (Q := fun _ d' => Resynced venue inp d') ?_ fun _ d' _ hd' => ?_
    · refine Along.bind (saveLedger_along fun script => ?_) fun _ d' _ hd' => ?_
      · refine ⟨fun hinv => ⟨⟨hinv.runs.ordered, hinv.runs.start, ?_, hinv.runs.long, hinv.runs.adopted⟩,
          fun _ => Or.inr (hsynced.congr hcleared)⟩, prefix_refl _, prefix_refl _⟩
        exact hfold.congr rfl hcleared rfl
      · obtain ⟨script, rfl⟩ := hd'
        exact Along.ret ⟨hsynced.congr hcleared, fun hf => hf.elim (absurd rfl) (absurd rfl), hcaught⟩
    · refine Along.mono touch_along fun _ d'' _ h => ?_
      obtain ⟨script, rfl⟩ := h; exact ⟨hd'.synced, hd'.cleared, hd'.caughtUp⟩

theorem adoptBreaches_along {attempt : JournalAttempt} {breaches : List PositionBreach}
    (hbreaches : inp.breaches venue s = .ok breaches) (hinv : ResyncInv st venue init n inp flagged d)
    (hdisk : OnDisk s d) (hfold : Folded st init d.journal s) (hcaught : CaughtUp d.journal s)
    (hflag : flagged → s.Flagged) :
    Along (ResyncWrites st venue init n inp flagged) (adoptBreaches st venue inp attempt s breaches) d
      fun _ d' => Resynced venue inp d' := by
  obtain ⟨hnodup, hgaps, -⟩ := breaches_eq_ok hbreaches
  refine Along.bind touch_along fun _ d₁ hw₁ hd₁ => ?_
  obtain ⟨script₁, rfl⟩ := hd₁
  refine Along.bind touch_along fun _ d₂ hw₂ hd₂ => ?_
  obtain ⟨script₂, rfl⟩ := hd₂
  refine Along.branch (fun _ => Along.raise) fun _ => ?_
  have hinv₂ := hw₂.1 (hw₁.1 hinv)
  have hopen : ∀ b ∈ breaches, wholePosition init d.journal b.symbol = b.ledgerQty ∧
      venue.get b.symbol 0 = b.venueQty ∧ b.gap ≠ 0 := by
    intro b hb
    obtain ⟨hheld, hrest⟩ := hgaps b hb
    exact ⟨(hfold.held_of_caughtUp hcaught b.symbol).symm.trans hheld, hrest⟩
  refine Along.bind (adopt_along _ breaches hnodup hopen hinv₂) fun _ d₃ hw₃ hledger => ?_
  have hinv₃ := hw₃.1 hinv₂
  -- the base of the second commit is still what the file holds
  have hdisk₃ : OnDisk s d₃ := hdisk.congr hledger
  have hfold₃ : Folded st init d₃.journal s := hdisk₃.folded hinv₃.runs.file
  refine Along.bind (commit_along hfold₃ hflag hdisk₃ hinv₃.runs.ordered) fun s' d₄ hw₄ hs' => ?_
  obtain ⟨hj, hcaught', hdisk', hfold', -⟩ := hs'
  rw [← hj] at hcaught' hfold'
  refine Along.fallible fun u hu => ?_
  refine Along.bind (finishResync_along (reconcileOrHalt_eq_ok hu) hdisk' hfold' hcaught')
    fun _ d₅ _ hd₅ => ?_
  exact Along.ret hd₅

theorem compareAndAdopt_along (hinv : ResyncInv st venue init n inp flagged d)
    (hflag : flagged → d.ledger.Flagged) :
    Along (ResyncWrites st venue init n inp flagged) (compareAndAdopt st venue inp) d
      fun _ d' => Resynced venue inp d' := by
  refine Along.bind touch_along fun _ d₁ hw₁ hd₁ => ?_
  obtain ⟨script₁, rfl⟩ := hd₁
  refine Along.bind loadLedger_along fun loaded d₂ hw₂ hd₂ => ?_
  obtain ⟨hload, script₂, rfl⟩ := hd₂
  have hinv₂ := hw₂.1 (hw₁.1 hinv)
  -- loading sorts the history, and changes nothing that a resync reads
  obtain ⟨hdisk, hloaded⟩ : OnDisk loaded d ∧ loaded.deriskSince = d.ledger.deriskSince ∧
      loaded.deriskReasons = d.ledger.deriskReasons := by
    unfold LedgerState.loaded at hload
    split_ifs at hload
    rw [← Except.ok.inj hload]; exact ⟨⟨fun _ => rfl, rfl, rfl, rfl, rfl⟩, rfl, rfl⟩
  have hattempt : Along (ResyncWrites st venue init n inp flagged) (journalAttempt (inp.context st))
      { d with script := script₂ } fun _ d' => d'.ledger = d.ledger := by
    refine Along.readState ?_
    refine Along.bind (appendJournal_along fun script => ?_) fun _ d' _ hd' => ?_
    · exact ⟨fun h => ⟨h.runs.attempt _, h.flag⟩, prefix_refl _, prefix_refl _⟩
    · obtain ⟨script, rfl⟩ := hd'; exact Along.ret rfl
  refine Along.bind hattempt fun attempt d₃ hw₃ hledger => ?_
  have hinv₃ := hw₃.1 hinv₂
  have hdisk₃ : OnDisk loaded d₃ := hdisk.congr hledger
  have hflag₃ : flagged → loaded.Flagged := fun hf => (hflag hf).congr hloaded
  refine Along.bind (commit_along (hdisk₃.folded hinv₃.runs.file) hflag₃ hdisk₃ hinv₃.runs.ordered)
    fun s d₄ hw₄ hs => ?_
  obtain ⟨hj, hcaught, hdisk₄, hfold, hsflag⟩ := hs
  rw [← hj] at hcaught hfold
  refine Along.fallible fun breaches hbreaches => ?_
  refine Along.branch (fun hnil => ?_) fun _ => ?_
  · have hsynced := (breaches_eq_ok hbreaches).2.2 hnil
    refine Along.bind (finishResync_along hsynced hdisk₄ hfold hcaught) fun _ d₅ _ hd₅ => ?_
    exact Along.ret hd₅
  · exact adoptBreaches_along hbreaches (hw₄.1 hinv₃) hdisk₄ hfold hcaught hsflag

/-- What the venue shows of own orders is in the journal, once a gap was adopted. -/
def Unchanged (n : ℕ) (inp : ResyncInput) (d : Disk) : Prop :=
  (inp.swept = [] ∧ inp.recovered = []) ∨ ∀ symbol, adoptedFills n d.journal symbol = []

/-- **One run** keeps the invariant wherever it ends, and reaches a synced ledger when it returns.
-/
theorem runLedgerResync_along (hinv : ResyncInv st venue init n inp flagged d)
    (hflag : flagged → d.ledger.Flagged) (hvenue : Unchanged n inp d) :
    Along (ResyncWrites st venue init n inp flagged) (runLedgerResync st venue inp true) d
      fun _ d' => Resynced venue inp d' := by
  refine Along.branch (fun _ => Along.raise) fun _ => Along.branch (fun _ => Along.raise) fun _ => ?_
  refine Along.bind touch_along fun _ d₁ hw₁ hd₁ => ?_
  obtain ⟨script₁, rfl⟩ := hd₁
  refine Along.branch (fun _ => ?_) fun hnot => absurd rfl hnot
  have hinv₁ := hw₁.1 hinv
  have hsweep : ∀ (drafts : List FillDraft) (kind : FillKind) (d' : Disk), kind ≠ .operatorResync →
      (drafts = [] ∨ ∀ symbol, adoptedFills n d'.journal symbol = []) →
      ResyncInv st venue init n inp flagged d' →
      Along (ResyncWrites st venue init n inp flagged)
        (Proc.forEach drafts fun draft => journalFill { draft with kind := kind }) d' fun _ d'' =>
          d''.ledger = d'.ledger ∧ ((∀ symbol, adoptedFills n d'.journal symbol = []) →
            ∀ symbol, adoptedFills n d''.journal symbol = []) := by
    intro drafts kind d' hkind hdrafts hinv'
    rcases hdrafts with rfl | hnone
    · exact Along.ret ⟨rfl, id⟩
    · refine Along.mono (recover_along drafts kind hkind hinv' hnone) fun _ d'' _ h => ?_
      exact ⟨h.2.1, fun _ => h.2.2⟩
  refine Along.bind (hsweep inp.swept .orphanSettlement _ (by decide) (hvenue.imp_left And.left) hinv₁)
    fun _ d₂ hw₂ hd₂ => ?_
  refine Along.branch (fun _ => Along.raise) fun _ => ?_
  have hinv₂ := hw₂.1 hinv₁
  have hrecovered : inp.recovered = [] ∨ ∀ symbol, adoptedFills n d₂.journal symbol = [] :=
    hvenue.imp And.right hd₂.2
  refine Along.bind (hsweep inp.recovered .recovered _ (by decide) hrecovered hinv₂)
    fun _ d₃ hw₃ hd₃ => ?_
  have hinv₃ := hw₃.1 hinv₂
  have hledger : d₃.ledger = d.ledger := hd₃.1.trans hd₂.1
  refine Along.branch (fun _ => ?_) fun _ => ?_
  · exact Along.bind touch_along fun _ _ _ _ => Along.raise
  · exact compareAndAdopt_along hinv₃ fun hf => hledger ▸ hflag hf

theorem ResyncRun.exec_spec (r : ResyncRun) (hinv : Resyncing st venue init n d) (hvenue : Unchanged n r.1 d) :
    Resyncing st venue init n (r.exec st venue d).2 ∧
      (d.ledger.Flagged → ¬ (r.exec st venue d).2.ledger.Flagged →
        Synced r.1 venue (r.exec st venue d).2.ledger) ∧
      ∀ plan, (r.exec st venue d).1 = .ok plan → Resynced venue r.1 (r.exec st venue d).2 := by
  have hstart : ResyncInv st venue init n r.1 d.ledger.Flagged { d with script := r.2 } :=
    ⟨⟨hinv.1, hinv.2, hinv.3, hinv.4, hinv.5⟩, fun hf => Or.inl hf⟩
  have halong := runLedgerResync_along hstart id hvenue
  have hout := Along.out halong
  have hend := hout.1.1 hstart
  exact ⟨hend.runs, fun hf hcleared => (hend.flag hf).resolve_left hcleared, hout.2⟩

end Run

/-! ## Any number of runs -/

/-- The journal numbers its fills, and the ledger has applied none that is not in it. -/
structure LedgerBehind (d : Disk) : Prop where
  ordered : JournalOrdered d.journal
  behind : d.ledger.journalAppliedFillSeq < d.journal.nextFillSeq

def UnchangedVenue (st : LiveSettings) (venue : Dict ℚ) (n : ℕ) : Disk → List ResyncRun → Prop
  | _, [] => True
  | d, r :: rest => Unchanged n r.1 d ∧ UnchangedVenue st venue n (r.exec st venue d).2 rest

theorem Resyncing.runs {st : LiveSettings} {venue : Dict ℚ} {init : LedgerState} {n : ℕ}
    (runs : List ResyncRun) : ∀ {d : Disk}, Resyncing st venue init n d →
      UnchangedVenue st venue n d runs → Resyncing st venue init n (resyncRuns st venue d runs) := by
  induction runs with
  | nil =>
    intro d h _; exact h
  | cons r rest ih =>
    intro d h hvenue; exact ih (r.exec_spec h hvenue.1).1 hvenue.2

/-- **Resync is crash-safe**, through any number of runs against an unchanged venue that may die at
every durable operation; a run that returns leaves the ledger in order with the venue. -/
theorem resync_adopts_each_gap_once (st : LiveSettings) (venue : Dict ℚ) (d : Disk) (hd : LedgerBehind d)
    (runs : List ResyncRun) (hruns : UnchangedVenue st venue d.journal.fills.length d runs)
    (r : ResyncRun)
    (hr : Unchanged d.journal.fills.length r.1 (resyncRuns st venue d runs)) :
    (LedgerFold st.mode.suppressesMutations st.notionalEquityUsdt
        (resyncRuns st venue d runs).journal.fills d.ledger (resyncRuns st venue d runs).ledger ∧
      ∀ symbol, (adoptedFills d.journal.fills.length (resyncRuns st venue d runs).journal
        symbol).length ≤ 1) ∧
    ((resyncRuns st venue d runs).ledger.Flagged →
      ¬ (r.exec st venue (resyncRuns st venue d runs)).2.ledger.Flagged →
      Synced r.1 venue (r.exec st venue (resyncRuns st venue d runs)).2.ledger) ∧
    ∀ plan, (r.exec st venue (resyncRuns st venue d runs)).1 = .ok plan →
      Synced r.1 venue (r.exec st venue (resyncRuns st venue d runs)).2.ledger ∧
      ¬ (r.exec st venue (resyncRuns st venue d runs)).2.ledger.Flagged ∧
      ∀ symbol, adoptedFills d.journal.fills.length
          (r.exec st venue (resyncRuns st venue d runs)).2.journal symbol = [] ∨
        ∃ f, adoptedFills d.journal.fills.length
            (r.exec st venue (resyncRuns st venue d runs)).2.journal symbol = [f] ∧
          f.fillSeq ≤ (r.exec st venue (resyncRuns st venue d runs)).2.ledger.journalAppliedFillSeq ∧
          (r.exec st venue (resyncRuns st venue d runs)).2.ledger.held symbol = venue.get symbol 0 := by
  have hstart : Resyncing st venue d.ledger d.journal.fills.length d := by
    refine ⟨hd.ordered, hd.behind, ⟨LedgerFold.refl _ _ _ _, fun hlt => absurd hlt (lt_irrefl _)⟩,
      le_refl _, fun symbol => Or.inl ?_⟩
    unfold adoptedFills
    rw [drop_length]; rfl
  have hreached := hstart.runs runs hruns
  obtain ⟨hnext, hflag, hdone⟩ := r.exec_spec hreached hr
  refine ⟨⟨hreached.file.fold, fun symbol => ?_⟩, hflag, fun plan hplan => ?_⟩
  · rcases hreached.adopted symbol with hnone | ⟨hone, -⟩
    · rw [hnone]; exact Nat.zero_le 1
    · exact hone.le
  · have hend := hdone plan hplan
    refine ⟨hend.synced, hend.cleared, fun symbol => ?_⟩
    rcases hnext.adopted symbol with hnone | ⟨hone, hwhole⟩
    · exact Or.inl hnone
    · right
      obtain ⟨f, hf⟩ := length_eq_one_iff.mp hone
      have hmem : f ∈ (r.exec st venue (resyncRuns st venue d runs)).2.journal.fills := by
        have hin : f ∈ adoptedFills d.journal.fills.length
            (r.exec st venue (resyncRuns st venue d runs)).2.journal symbol := by
          rw [hf]; exact mem_cons_self
        exact mem_of_mem_drop (mem_filter.mp hin).1
      refine ⟨f, hf, hend.caughtUp f hmem, ?_⟩
      rw [hnext.file.held_of_caughtUp hend.caughtUp symbol, hwhole]

/-! ### Two runs -/

def liveSettings : LiveSettings := { paperSettings with mode := .liveMainnet }

def trailingDisk (symbol : String) (quantity : ℚ) : Disk where
  ledger := { positions := Dict.ofPairs [(symbol, quantity)], deriskSince := some 1000000 }

def resyncInput (listing : List ListingEntry) : ResyncInput where
  now := 1200000
  runId := "19700114"
  listing := listing
  marks := Dict.ofPairs [("BTCUSDT", 100)]

/-- A run that dies between the adoption and its commit, and the one after it: the gap is adopted
once. -/
theorem resync_adopts_each_gap_once_crashed :
    let venue : Dict ℚ := Dict.ofPairs [("BTCUSDT", 3)]
    let crashed : ResyncRun := (resyncInput [], replicate 7 ⟨0, .done⟩)
    let d := resyncRuns liveSettings venue (trailingDisk "BTCUSDT" 1) [crashed]
    let again := ResyncRun.exec liveSettings venue (resyncInput [], replicate 12 ⟨0, .done⟩) d
    (adoptedFills 0 d.journal "BTCUSDT").length = 1 ∧ d.ledger.held "BTCUSDT" = 1 ∧
      again.1.isOk ∧ again.2.ledger.held "BTCUSDT" = 3 ∧
      (adoptedFills 0 again.2.journal "BTCUSDT").length = 1 ∧
      Synced (resyncInput []) venue again.2.ledger := by
  intro venue crashed d again
  have hdone : again.1.isOk = true := by decide +kernel
  obtain ⟨plan, hplan⟩ : ∃ plan, again.1 = .ok plan := by
    cases h : again.1 with
    | ok plan => exact ⟨plan, rfl⟩
    | error e =>
      rw [h] at hdone; cases hdone
  have hbehind : LedgerBehind (trailingDisk "BTCUSDT" 1) := ⟨JournalOrdered.empty, by decide⟩
  obtain ⟨-, -, hreached⟩ := resync_adopts_each_gap_once liveSettings venue (trailingDisk "BTCUSDT" 1)
    hbehind [crashed] ⟨Or.inl ⟨rfl, rfl⟩, trivial⟩ (resyncInput [], replicate 12 ⟨0, .done⟩)
    (Or.inl ⟨rfl, rfl⟩)
  exact ⟨by decide +kernel, by decide +kernel, hdone, by decide +kernel, by decide +kernel,
    (hreached plan hplan).1⟩

/-- A run returns and clears the flag, and the ledger still holds a delisted symbol that is flat on
the venue. -/
theorem resync_leaves_settled_delisting :
    let listing : List ListingEntry := [⟨"LUNAUSDT", "SETTLING", some 1100000000⟩]
    let run := ResyncRun.exec liveSettings ∅ (resyncInput listing, replicate 12 ⟨0, .done⟩)
      (trailingDisk "LUNAUSDT" 3)
    run.1.isOk ∧ run.2.ledger.deriskSince = none ∧ run.2.ledger.held "LUNAUSDT" = 3 ∧
      ¬ Agrees ∅ run.2.ledger.positions "LUNAUSDT" := by
  intro listing run
  refine ⟨by decide +kernel, by decide +kernel, by decide +kernel, ?_⟩
  unfold Agrees; decide +kernel

end CryptoPilot.Live
