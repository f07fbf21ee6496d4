/- # BookRuns — the bookkeeping over whole runs: cycles, crashes and retries.

A run is a list of activities, each with the outcomes of its durable operations.  A process may base
a call on any state that it loaded or that a call returned to it, also a stale one; a process that
died is followed by one that loads the ledger anew. -/
import CryptoPilot.Live.CashReconciles

namespace CryptoPilot.Live

open CryptoPilot.Lib
open CryptoPilot.Lib.Proc (Along)

/-! ## Activities -/

/-- What a process holds for its next call: a ledger state and, after a settlement, the cash before
it with the records of the move. -/
structure CycleBase where
  state : LedgerState
  cashBefore : Option ℚ := none
  fundingRecords : List TaxRecord := []
  settlementRecords : List TaxRecord := []

structure BookSys where
  disk : Disk := {}
  known : List CycleBase := []

/-- One activity of a process. -/
inductive BookActivity where
  | recordFill (draft : FillDraft)
  | beginAttempt (context : AttemptContext)
  | loadLedger
  | commitBatch (base : ℕ) (equity executedDecisionTime : Option ℚ) (batch : List ℕ)
  | commitAndRecord (base : ℕ) (attempt : AttemptContext) (equity executedDecisionTime : Option ℚ)
  | commitOnAbort (base : ℕ) (attempt : AttemptContext) (equity : Option ℚ)
  | enterDerisk (base : ℕ) (reasons : List String) (now : ℚ)
  | clearDerisk (base : ℕ)
  | settlePaper (base : ℕ) (market : Market) (runId : String)
  | bookLive (base : ℕ) (listing : List ListingEntry) (venuePositions : Dict ℚ) (now : ℚ)

def BookActivity.foldsFills : BookActivity → Bool
  | .settlePaper .. | .bookLive .. => false
  | _ => true

/-- Run a program with the given outcomes, and remember what it returned. -/
def BookSys.exec {α : Type} (sys : BookSys) (io : List IoStep) (x : BookM α) (keep : α → CycleBase) : BookSys where
  disk := (x { sys.disk with script := io }).2
  known := match (x { sys.disk with script := io }).1 with
    | .ok a => keep a :: sys.known
    | .error _ => sys.known

def CycleBase.plain (s : LedgerState) : CycleBase := { state := s }

def CycleBase.call (b : CycleBase) (attempt : AttemptContext) (equity executed : Option ℚ) : CommitCall where
  fallbackAttempt := attempt
  equity := equity
  executedDecisionTime := executed
  fundingRecords := b.fundingRecords
  settlementRecords := b.settlementRecords
  reconcileCashBefore := b.cashBefore

/-- The arguments of `_commit_on_abort`. -/
def abortCall (attempt : AttemptContext) (equity : Option ℚ) : CommitCall where
  fallbackAttempt := attempt
  equity := equity
  executedDecisionTime := none

def saveChanged (base : LedgerState) : Option LedgerState → BookM LedgerState
  | none => pure base
  | some s => do
    saveLedger s
    pure s

def bookLiveDelistings (st : LiveSettings) (base : LedgerState) (listing : List ListingEntry)
    (venuePositions : Dict ℚ) (now : ℚ) : BookM LedgerState := do
  let (settled, booked) ← Proc.ofExcept
    (bookDelistingSettlements base st.mode listing venuePositions ∅ 0 now)
  saveChanged base (if booked = [] then none else some settled)

/-- One activity, with the outcomes of its durable operations. -/
def BookSys.step (st : LiveSettings) (sys : BookSys) (act : BookActivity × List IoStep) : BookSys :=
  match act.1 with
  | .recordFill draft =>
    if draft.simulated && !st.mode.suppressesMutations then sys
    else match sys.disk.journal.newFill draft with
      | .error _ => sys
      | .ok fill =>
        { sys with disk := { sys.disk with journal := sys.disk.journal.apply (.fill fill) } }
  | .beginAttempt context =>
    { sys with disk := { sys.disk with
        journal := sys.disk.journal.apply (.attempt (sys.disk.journal.newAttempt context)) } }
  | .loadLedger => sys.exec act.2 loadLedger CycleBase.plain
  | .commitBatch base equity executed batch =>
    match sys.known[base]? with
    | none => sys
    | some b =>
      sys.exec act.2 (commitJournalFills (st.commitConfig equity executed) b.state
        (batch.filterMap (sys.disk.journal.fills[·]?))) CycleBase.plain
  | .commitAndRecord base attempt equity executed =>
    match sys.known[base]? with
    | none => sys
    | some b =>
      sys.exec act.2 (commitAndRecord st b.state (b.call attempt equity executed)) CycleBase.plain
  | .commitOnAbort base attempt equity =>
    match sys.known[base]? with
    | none => sys
    | some b => sys.exec act.2 (commitAndRecord st b.state (abortCall attempt equity)) CycleBase.plain
  | .enterDerisk base reasons now =>
    match sys.known[base]? with
    | none => sys
    | some b => sys.exec act.2 (saveChanged b.state (enterDerisk b.state reasons now)) CycleBase.plain
  | .clearDerisk base =>
    match sys.known[base]? with
    | none => sys
    | some b => sys.exec act.2 (saveChanged b.state (clearDerisk b.state)) CycleBase.plain
  | .settlePaper base market runId =>
    match sys.known[base]? with
    | none => sys
    | some b => sys.exec act.2 (settlePaper st b.state market runId) fun p =>
      ⟨p.ledgerState, p.cashBefore, p.fundingRecords, p.settlementRecords⟩
  | .bookLive base listing venuePositions now =>
    match sys.known[base]? with
    | none => sys
    | some b =>
      sys.exec act.2 (bookLiveDelistings st b.state listing venuePositions now) CycleBase.plain

def BookSys.run (st : LiveSettings) (sys : BookSys) (acts : List (BookActivity × List IoStep)) : BookSys :=
  acts.foldl (BookSys.step st) sys

/-! ## What an activity can do -/

inductive SaveWrite (s : LedgerState) : Disk → Disk → Prop
  | io {d : Disk} (script : List IoStep) : SaveWrite s d { d with script := script }
  | save {d : Disk} : SaveWrite s d { d with ledger := s.saved }

abbrev SaveWrites (s : LedgerState) : Disk → Disk → Prop := Relation.ReflTransGen (SaveWrite s)

theorem SaveWrites.frame {s : LedgerState} {d d' : Disk} (h : SaveWrites s d d') :
    d'.journal = d.journal ∧ d'.fillRows = d.fillRows ∧ d'.taxRows = d.taxRows ∧
      d'.reconciliations = d.reconciliations ∧ (d'.ledger = d.ledger ∨ d'.ledger = s.saved) := by
  induction h with
  | refl => exact ⟨rfl, rfl, rfl, rfl, Or.inl rfl⟩
  | tail _ hw ih =>
    cases hw with
    | io script => exact ih
    | save => exact ⟨ih.1, ih.2.1, ih.2.2.1, ih.2.2.2.1, Or.inr rfl⟩

instance {s : LedgerState} : DiskOrder (SaveWrites s) where
  refl _ := .refl
  trans _ _ _ := .trans
  io _ script := .single (.io script)
  fillRows h := (SaveWrites.frame h).2.1 ▸ List.prefix_refl _
  taxRows h := (SaveWrites.frame h).2.2.1 ▸ List.prefix_refl _

inductive Derives (st : LiveSettings) (j : Journal) (base : LedgerState) : BookActivity → LedgerState → Prop
  | same {act : BookActivity} : Derives st j base act base
  | batch {i : ℕ} {equity executed : Option ℚ} {positions : List ℕ} {c : CommitConfig}
      {fills : List JournalFill} {s : LedgerState} (track : c.trackCash = st.mode.suppressesMutations)
      (capital : c.startingCapital = st.notionalEquityUsdt) (drawn : ∀ f ∈ fills, f ∈ j.fills)
      (commits : Commits c base (pendingFills base.journalAppliedFillSeq fills) s) :
      Derives st j base (.commitBatch i equity executed positions) s
  | derisk {act : BookActivity} (since : Option ℚ) (reasons : List String) :
      Derives st j base act { base with deriskSince := since, deriskReasons := reasons }
  | live {i : ℕ} {listing : List ListingEntry} {venuePositions : Dict ℚ} {now : ℚ} {s : LedgerState}
      {booked : List DelistingSettlement}
      (books : bookDelistingSettlements base st.mode listing venuePositions ∅ 0 now = .ok (s, booked)) :
      Derives st j base (.bookLive i listing venuePositions now) s

/-- A call of `_commit_and_record`: the one that ends a cycle, or the one of an abort. -/
inductive Calls (b : CycleBase) : CommitCall → Prop
  | final (attempt : AttemptContext) (equity executed : Option ℚ) :
      Calls b (b.call attempt equity executed)
  | abort (attempt : AttemptContext) (equity : Option ℚ) : Calls b (abortCall attempt equity)

/-- **What one activity can do.** -/
inductive Moves (st : LiveSettings) (sys : BookSys) (act : BookActivity) : BookSys → Prop
  | fill {draft : FillDraft} {f : JournalFill} (recorded : act = .recordFill draft)
      (new : sys.disk.journal.newFill draft = .ok f)
      (simulated : draft.simulated → st.mode.suppressesMutations) :
      Moves st sys act
        { sys with disk := { sys.disk with journal := sys.disk.journal.apply (.fill f) } }
  | attempt (a : JournalAttempt) :
      Moves st sys act
        { sys with disk := { sys.disk with journal := sys.disk.journal.apply (.attempt a) } }
  | idle (script : List IoStep) : Moves st sys act { sys with disk := { sys.disk with script := script } }
  | loads {s : LedgerState} (loaded : sys.disk.ledger.loaded = .ok s) (script : List IoStep) :
      Moves st sys act ⟨{ sys.disk with script := script }, CycleBase.plain s :: sys.known⟩
  | saves {b : CycleBase} {s : LedgerState} {io : List IoStep} {sys' : BookSys} (base : b ∈ sys.known)
      (derives : Derives st sys.disk.journal b.state act s)
      (writes : SaveWrites s { sys.disk with script := io } sys'.disk)
      (known : ∀ b' ∈ sys'.known, b' ∈ sys.known ∨ b' = CycleBase.plain s) : Moves st sys act sys'
  | books {b : CycleBase} {call : CommitCall} {io : List IoStep} {sys' : BookSys} (base : b ∈ sys.known)
      (calls : Calls b call)
      (writes : BookWrites st b.state call sys.disk.journal { sys.disk with script := io } sys'.disk)
      (known : ∀ b' ∈ sys'.known, b' ∈ sys.known ∨ ∃ s, b' = CycleBase.plain s ∧
        Recorded st b.state call sys.disk.journal s sys'.disk) : Moves st sys act sys'
  | settles {i : ℕ} {b : CycleBase} {market : Market} {runId : String} {io : List IoStep}
      {sys' : BookSys} (posts : act = .settlePaper i market runId) (chosen : sys.known[i]? = some b)
      (writes : SettleWrites st b.state market runId { sys.disk with script := io } sys'.disk)
      (known : ∀ b' ∈ sys'.known, b' ∈ sys.known ∨ ∃ p, Settles st b.state market runId p ∧
        b' = ⟨p.ledgerState, p.cashBefore, p.fundingRecords, p.settlementRecords⟩) :
      Moves st sys act sys'

section Step

variable {st : LiveSettings} {sys : BookSys}

variable {io : List IoStep} {b : CycleBase}

theorem BookSys.exec_cases {α : Type} {R : Disk → Disk → Prop} {x : BookM α}
    {k : α → CycleBase} {Q : α → Disk → Prop} (h : Along R x { sys.disk with script := io } Q) :
    R { sys.disk with script := io } (sys.exec io x k).disk ∧
      ∀ b ∈ (sys.exec io x k).known, b ∈ sys.known ∨ ∃ a, b = k a ∧ Q a (sys.exec io x k).disk := by
  obtain ⟨hmoved, hreturned⟩ := Along.out h
  refine ⟨hmoved, fun b hb => ?_⟩
  unfold BookSys.exec at hb ⊢
  split at hb
  · next a ha =>
    rcases List.mem_cons.mp hb with rfl | hb
    · exact Or.inr ⟨a, rfl, hreturned a ha⟩
    · exact Or.inl hb
  · exact Or.inl hb

theorem saveChanged_along {base : LedgerState} {changed : Option LedgerState} {d : Disk} :
    Along (SaveWrites (changed.getD base)) (saveChanged base changed) d
      fun s _ => s = changed.getD base := by
  cases changed with
  | none => exact Along.ret rfl
  | some s => exact Along.bind (saveLedger_along fun _ => .single .save) fun _ _ _ _ => Along.ret rfl

theorem BookSys.moves_saves {act : BookActivity} {s : LedgerState} {x : BookM LedgerState} (hb : b ∈ sys.known)
    (hs : Derives st sys.disk.journal b.state act s)
    (h : Along (SaveWrites s) x { sys.disk with script := io } fun s' _ => s' = s) :
    Moves st sys act (sys.exec io x CycleBase.plain) := by
  obtain ⟨hw, hknown⟩ := BookSys.exec_cases (k := CycleBase.plain) h
  refine .saves hb hs hw fun b' hb' => ?_
  rcases hknown b' hb' with hold | ⟨s', rfl, rfl⟩
  · exact Or.inl hold
  · exact Or.inr rfl

theorem BookSys.moves_books {act : BookActivity} {call : CommitCall} (hb : b ∈ sys.known) (hcall : Calls b call) :
    Moves st sys act (sys.exec io (commitAndRecord st b.state call) CycleBase.plain) := by
  have h := @commitAndRecord_along st b.state call { sys.disk with script := io }
  obtain ⟨hw, hknown⟩ := BookSys.exec_cases (k := CycleBase.plain) h
  exact .books hb hcall hw hknown

theorem BookSys.moves_commitBatch (i : ℕ) (equity executed : Option ℚ) (batch : List ℕ) (hb : b ∈ sys.known) :
    Moves st sys (.commitBatch i equity executed batch) (sys.exec io (commitJournalFills
      (st.commitConfig equity executed) b.state (batch.filterMap (sys.disk.journal.fills[·]?)))
      CycleBase.plain) := by
  have hdrawn : ∀ f ∈ batch.filterMap (sys.disk.journal.fills[·]?), f ∈ sys.disk.journal.fills := by
    intro f hf
    obtain ⟨k, -, hk⟩ := List.mem_filterMap.mp hf; exact List.mem_of_getElem? hk
  rcases commitFold_cases (st.commitConfig equity executed) b.state
    (batch.filterMap (sys.disk.journal.fills[·]?)) with
    ⟨-, hfold⟩ | ⟨hfold, -⟩ | ⟨s, hfold, hcommits⟩
  · refine BookSys.moves_saves hb .same ?_
    refine Along.fallible fun r hr => ?_
    rw [hfold] at hr; cases hr; exact Along.ret rfl
  · refine BookSys.moves_saves hb .same ?_
    refine Along.fallible fun r hr => ?_
    rw [hfold] at hr; cases hr
  · refine BookSys.moves_saves hb (.batch rfl rfl hdrawn hcommits) ?_
    refine Along.fallible fun r hr => ?_
    rw [hfold] at hr
    cases hr
    exact Along.bind (saveLedger_along fun _ => .single .save) fun _ _ _ _ => Along.ret rfl

theorem BookSys.moves_bookLive (i : ℕ) (listing : List ListingEntry)
    (venuePositions : Dict ℚ) (now : ℚ) (hb : b ∈ sys.known) :
    Moves st sys (.bookLive i listing venuePositions now)
      (sys.exec io (bookLiveDelistings st b.state listing venuePositions now) CycleBase.plain) := by
  cases hbooks : bookDelistingSettlements b.state st.mode listing venuePositions ∅ 0 now with
  | error e =>
    refine BookSys.moves_saves hb .same ?_
    refine Along.fallible fun r hr => ?_
    rw [hbooks] at hr; cases hr
  | ok r =>
    obtain ⟨settled, booked⟩ := r
    have hrun : ∀ s, s = (if booked = [] then none else some settled).getD b.state →
        Along (SaveWrites s) (bookLiveDelistings st b.state listing venuePositions now)
          { sys.disk with script := io } fun s' _ => s' = s := by
      rintro s rfl
      refine Along.fallible fun r hr => ?_
      rw [hbooks] at hr; cases hr; exact saveChanged_along
    by_cases hnil : booked = []
    · exact BookSys.moves_saves hb .same (hrun b.state (by rw [if_pos hnil]; rfl))
    · exact BookSys.moves_saves hb (.live hbooks) (hrun settled (by rw [if_neg hnil]; rfl))

/-- **Every activity is a move.** -/
theorem BookSys.step_moves (act : BookActivity × List IoStep) : Moves st sys act.1 (BookSys.step st sys act) := by
  obtain ⟨act, io⟩ := act
  -- an activity on a base that is not known does nothing
  have hchosen : ∀ {i : ℕ} {f : CycleBase → BookSys},
      (∀ b, sys.known[i]? = some b → Moves st sys act (f b)) →
      Moves st sys act (match sys.known[i]? with | none => sys | some b => f b) := by
    intro i f hf
    cases hi : sys.known[i]? with
    | none => exact .idle sys.disk.script
    | some b => exact hf b hi
  have hbase : ∀ {i : ℕ} {f : CycleBase → BookSys}, (∀ b ∈ sys.known, Moves st sys act (f b)) →
      Moves st sys act (match sys.known[i]? with | none => sys | some b => f b) := fun hf =>
    hchosen fun b hi => hf b (List.mem_of_getElem? hi)
  cases act with
  | recordFill draft =>
    unfold BookSys.step
    simp only
    split_ifs with hsim
    · exact .idle sys.disk.script
    · cases hnew : sys.disk.journal.newFill draft with
      | error e => exact .idle sys.disk.script
      | ok f =>
        refine .fill rfl hnew fun hd => ?_
        simpa [hd] using hsim
  | beginAttempt context => exact .attempt _
  | loadLedger =>
    have h := @loadLedger_along SameDisk _ { sys.disk with script := io }
    change Moves st sys _ (sys.exec io loadLedger CycleBase.plain)
    unfold BookSys.exec
    unfold Along Proc.wp at h
    generalize loadLedger { sys.disk with script := io } = out at h ⊢
    obtain ⟨r, d⟩ := out
    cases r with
    | error e =>
      obtain ⟨script, rfl⟩ : SameDisk { sys.disk with script := io } d := h; exact .idle script
    | ok s =>
      obtain ⟨-, hloaded, script, rfl⟩ := h; exact .loads hloaded script
  | commitBatch i equity executed batch =>
    exact hbase fun b hb => BookSys.moves_commitBatch i equity executed batch hb
  | commitAndRecord i attempt equity executed =>
    exact hbase fun b hb => BookSys.moves_books hb (.final attempt equity executed)
  | commitOnAbort i attempt equity =>
    exact hbase fun b hb => BookSys.moves_books hb (.abort attempt equity)
  | enterDerisk i reasons now =>
    refine hbase fun b hb => BookSys.moves_saves hb ?_ saveChanged_along
    cases hd : enterDerisk b.state reasons now with
    | none => exact .same
    | some s =>
      unfold enterDerisk at hd
      simp only at hd
      split_ifs at hd; cases hd; exact .derisk _ _
  | clearDerisk i =>
    refine hbase fun b hb => BookSys.moves_saves hb ?_ saveChanged_along
    cases hd : clearDerisk b.state with
    | none => exact .same
    | some s =>
      unfold clearDerisk at hd
      split_ifs at hd; cases hd; exact .derisk _ _
  | settlePaper i market runId =>
    refine hchosen fun b hi => ?_
    have h := @settlePaper_along st b.state market runId { sys.disk with script := io }
    obtain ⟨hw, hknown⟩ := BookSys.exec_cases (k := fun p : PaperSettlement =>
      (⟨p.ledgerState, p.cashBefore, p.fundingRecords, p.settlementRecords⟩ : CycleBase)) h
    refine .settles rfl hi hw fun b' hb' => ?_
    rcases hknown b' hb' with hold | ⟨p, hp, hsettles⟩
    · exact Or.inl hold
    · exact Or.inr ⟨p, hsettles, hp⟩
  | bookLive i listing venuePositions now =>
    exact hbase fun b hb => BookSys.moves_bookLive i listing venuePositions now hb

end Step

end CryptoPilot.Live
