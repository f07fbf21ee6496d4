/- # JournalRuns — processes that work on one journal at once.

A call is a script of statements.  Between two of them any other process may take a step: a `SELECT`
outside a transaction reads the tables of its moment, a transaction (from `BEGIN IMMEDIATE`, or from
the first write, to the `commit`) is one step. -/
import CryptoPilot.Lib.Interleave
import CryptoPilot.Research.Journal

namespace CryptoPilot.Research

open CryptoPilot.Lib
open CryptoPilot.Lib.Interleave

variable {τ : Type}

inductive JournalCall (τ : Type) where
  | initializeJournal (args : InitializeArgs)
  | record (args : ConsultationArgs)
  | persist (plan : ProcessEvaluationPlan τ) (now : Stamp)
  | reserve (plan : ProcessEvaluationPlan τ) (args : ReserveArgs)
  | finish (args : FinishArgs)

inductive Process (τ : Type) where
  | idle
  /-- The arguments are checked, no statement has run. -/
  | called (call : JournalCall τ)
  /-- `initialize` behind its `executescript`. -/
  | schemaReady (args : InitializeArgs)
  /-- `initialize` behind its first `SELECT`, which found no row. -/
  | metaMissing (args : InitializeArgs)
  /-- `initialize` behind its first `SELECT`, which found the schema version. -/
  | metaFound (args : InitializeArgs)
  /-- `initialize` behind its second `SELECT`. -/
  | boundaryRead (args : InitializeArgs) (stored : Stamp)
  /-- The other calls behind `_require_journal`. -/
  | opened (call : JournalCall τ)
  /-- `finish` behind its first `SELECT`. -/
  | reservationRead (args : FinishArgs)
  /-- `finish` behind its second `SELECT`, which found no row. -/
  | outcomeMissing (args : FinishArgs)

def JournalCall.check (hashes : Hashes τ) : JournalCall τ → Except JournalExc Unit
  | .initializeJournal _ => .ok ()
  | .record args => args.check
  | .persist plan _ => checkPersist hashes plan
  | .reserve plan args => checkReserve hashes plan args
  | .finish args => args.check

/-- A statement: the call goes on with the tables it leaves, returns with them, or raises. -/
inductive Statement (τ : Type) where
  | next (db : ResearchJournal τ) (process : Process τ)
  | returned (db : ResearchJournal τ) (call : JournalCall τ)
  | raised (error : JournalExc)

def Statement.commit (call : JournalCall τ) : Except JournalExc (ResearchJournal τ) → Statement τ
  | .ok db => .returned db call
  | .error e => .raised e

def Statement.read {α : Type} (db : ResearchJournal τ) (go : α → Process τ) : Except JournalExc α → Statement τ
  | .ok a => .next db (go a)
  | .error e => .raised e

def Process.statement (hashes : Hashes τ) (db : ResearchJournal τ) : Process τ → Statement τ
  | .idle => .next db .idle
  | .called (.initializeJournal args) => .next { db with created := true } (.schemaReady args)
  | .called call => .read db (fun _ => .opened call) (requireJournal db)
  | .schemaReady args =>
    match db.schemaVersion with
    | none => .next db (.metaMissing args)
    | some version =>
      if version = journalSchemaVersion then .next db (.metaFound args)
      else .raised (.dataIntegrity "research journal schema is incompatible")
  | .metaMissing args => .commit (.initializeJournal args) (insertMeta db args)
  | .metaFound args =>
    match db.consultedThrough with
    | none => .raised (.dataIntegrity "research journal is corrupt")
    | some stored => .next db (.boundaryRead args stored)
  | .boundaryRead args stored => .returned (advanceMeta db stored args) (.initializeJournal args)
  -- `initialize` opens the file itself and never comes here
  | .opened (.initializeJournal args) => .next db (.schemaReady args)
  | .opened (.record args) => .commit (.record args) (recordConsultation db args)
  | .opened (.persist plan now) => .commit (.persist plan now) (Prod.snd <$> persistRegistration hashes db plan now)
  | .opened (.reserve plan args) => .commit (.reserve plan args) (Prod.snd <$> reserveAttempt db plan args)
  | .opened (.finish args) => .read db (fun _ => .reservationRead args) (findReservation db args)
  | .reservationRead args =>
    match findOutcome db args with
    | .error e => .raised e
    | .ok true => .returned db (.finish args)
    | .ok false => .next db (.outcomeMissing args)
  | .outcomeMissing args => .commit (.finish args) (insertOutcome db args)

structure World (τ : Type) where
  db : ResearchJournal τ
  processes : ℕ → Process τ
  returned : List (JournalCall τ)

def World.start : World τ := ⟨ResearchJournal.absent, fun _ => .idle, []⟩

/-- A process makes a call, takes the next statement of the one it is in, or loses it. -/
inductive Event (τ : Type) where
  | call (process : ℕ) (call : JournalCall τ)
  | step (process : ℕ)
  | lost (process : ℕ)

def World.set (w : World τ) (process : ℕ) (p : Process τ) : World τ :=
  { w with processes := Function.update w.processes process p }

@[simp] theorem World.set_self (w : World τ) (i : ℕ) (p : Process τ) : (w.set i p).processes i = p :=
  Function.update_self ..

theorem World.set_of_ne {w : World τ} {i j : ℕ} {p : Process τ} (h : j ≠ i) :
    (w.set i p).processes j = w.processes j := Function.update_of_ne h ..

def World.after (w : World τ) (process : ℕ) : Statement τ → World τ
  | .next db p => { w.set process p with db := db }
  | .returned db call => { w.set process .idle with db := db, returned := w.returned ++ [call] }
  | .raised _ => w.set process .idle

def World.next (hashes : Hashes τ) (w : World τ) : Event τ → World τ
  | .call process call =>
    match w.processes process, call.check hashes with
    | .idle, .ok () => w.set process (.called call)
    | _, _ => w
  | .step process => w.after process ((w.processes process).statement hashes w.db)
  | .lost process => w.set process .idle

def World.run (hashes : Hashes τ) (events : List (Event τ)) : World τ :=
  execute (World.next hashes) World.start events

/-! ## What an event can do -/

variable {hashes : Hashes τ} {db : ResearchJournal τ} {w : World τ}

/-- A statement that only reads, and what the process knows behind it. -/
inductive Reads (db : ResearchJournal τ) : Process τ → Process τ → Prop
  | idle : Reads db .idle .idle
  | opened {call : JournalCall τ} : requireJournal db = .ok () → Reads db (.called call) (.opened call)
  | schemaReady {args : InitializeArgs} : Reads db (.opened (.initializeJournal args)) (.schemaReady args)
  | metaMissing {args : InitializeArgs} : Reads db (.schemaReady args) (.metaMissing args)
  | metaFound {args : InitializeArgs} : db.schemaVersion = some journalSchemaVersion →
      Reads db (.schemaReady args) (.metaFound args)
  | boundaryRead {args : InitializeArgs} {stored : Stamp} : db.consultedThrough = some stored →
      Reads db (.metaFound args) (.boundaryRead args stored)
  | reservationRead {args : FinishArgs} : Reads db (.opened (.finish args)) (.reservationRead args)
  | outcomeMissing {args : FinishArgs} : Reads db (.reservationRead args) (.outcomeMissing args)

inductive Committed (hashes : Hashes τ) (db : ResearchJournal τ) :
    Process τ → JournalCall τ → ResearchJournal τ → Prop
  | initialized {args : InitializeArgs} {db' : ResearchJournal τ} : insertMeta db args = .ok db' →
      Committed hashes db (.metaMissing args) (.initializeJournal args) db'
  | advanced (args : InitializeArgs) (stored : Stamp) :
      Committed hashes db (.boundaryRead args stored) (.initializeJournal args) (advanceMeta db stored args)
  | recorded {args : ConsultationArgs} {db' : ResearchJournal τ} : recordConsultation db args = .ok db' →
      Committed hashes db (.opened (.record args)) (.record args) db'
  | persisted {plan sealedPlan : ProcessEvaluationPlan τ} {now : Stamp} {db' : ResearchJournal τ} :
      persistRegistration hashes db plan now = .ok (sealedPlan, db') →
      Committed hashes db (.opened (.persist plan now)) (.persist plan now) db'
  | reserved {plan : ProcessEvaluationPlan τ} {args : ReserveArgs} {attempt : ResearchAttempt}
      {db' : ResearchJournal τ} : reserveAttempt db plan args = .ok (attempt, db') →
      Committed hashes db (.opened (.reserve plan args)) (.reserve plan args) db'
  | finished {args : FinishArgs} {db' : ResearchJournal τ} : insertOutcome db args = .ok db' →
      Committed hashes db (.outcomeMissing args) (.finish args) db'
  | repeated (args : FinishArgs) : Committed hashes db (.reservationRead args) (.finish args) db

inductive Happens (hashes : Hashes τ) (w : World τ) : Event τ → World τ → Prop
  | nothing (e : Event τ) : Happens hashes w e w
  | called {i : ℕ} {call : JournalCall τ} : call.check hashes = .ok () →
      Happens hashes w (.call i call) (w.set i (.called call))
  | created {i : ℕ} {args : InitializeArgs} : w.processes i = .called (.initializeJournal args) →
      Happens hashes w (.step i) { w.set i (.schemaReady args) with db := { w.db with created := true } }
  | read {i : ℕ} {p : Process τ} : Reads w.db (w.processes i) p → Happens hashes w (.step i) (w.set i p)
  | ended (e : Event τ) (i : ℕ) : Happens hashes w e (w.set i .idle)
  | committed {i : ℕ} {call : JournalCall τ} {db' : ResearchJournal τ} :
      Committed hashes w.db (w.processes i) call db' →
      Happens hashes w (.step i) { w.set i .idle with db := db', returned := w.returned ++ [call] }

theorem statement_commit {call : JournalCall τ} {x : Except JournalExc (ResearchJournal τ)} :
    (∃ db', x = .ok db' ∧ Statement.commit call x = .returned db' call)
      ∨ ∃ e, Statement.commit call x = .raised e := by
  cases x with
  | ok db' => exact .inl ⟨db', rfl, rfl⟩
  | error e => exact .inr ⟨e, rfl⟩

theorem statement_read {α : Type} {go : α → Process τ} {x : Except JournalExc α} :
    (∃ a, x = .ok a ∧ Statement.read db go x = .next db (go a)) ∨ ∃ e, Statement.read db go x = .raised e := by
  cases x with
  | ok a => exact .inl ⟨a, rfl, rfl⟩
  | error e => exact .inr ⟨e, rfl⟩

theorem statement_cases (hashes : Hashes τ) (db : ResearchJournal τ) (p : Process τ) :
    (∃ p', Reads db p p' ∧ p.statement hashes db = .next db p')
      ∨ (∃ args, p = .called (.initializeJournal args)
          ∧ p.statement hashes db = .next { db with created := true } (.schemaReady args))
      ∨ (∃ e, p.statement hashes db = .raised e)
      ∨ ∃ call db', Committed hashes db p call db' ∧ p.statement hashes db = .returned db' call := by
  -- every call but the initialisation first reads whether there is a journal
  have hopen : ∀ call : JournalCall τ,
      (∃ p', Reads db (.called call) p' ∧
        Statement.read db (fun _ : Unit => .opened call) (requireJournal db) = .next db p')
        ∨ ∃ e, Statement.read db (fun _ : Unit => .opened call) (requireJournal db) = .raised e := by
    intro call
    have hread := @statement_read τ db Unit (fun _ => .opened call) (requireJournal db)
    rcases hread with ⟨_, h, hnext⟩ | hraised
    · exact .inl ⟨_, .opened h, hnext⟩
    · exact .inr hraised
  cases p with
  | idle => exact .inl ⟨_, .idle, rfl⟩
  | called call =>
    cases call with
    | initializeJournal args => exact .inr (.inl ⟨args, rfl, rfl⟩)
    | record args => exact (hopen (.record args)).imp_right fun h => .inr (.inl h)
    | persist plan now => exact (hopen (.persist plan now)).imp_right fun h => .inr (.inl h)
    | reserve plan args => exact (hopen (.reserve plan args)).imp_right fun h => .inr (.inl h)
    | finish args => exact (hopen (.finish args)).imp_right fun h => .inr (.inl h)
  | schemaReady args =>
    cases hversion : db.schemaVersion with
    | none => exact .inl ⟨_, .metaMissing, by simp only [Process.statement, hversion]⟩
    | some version =>
      by_cases h : version = journalSchemaVersion
      · exact .inl ⟨_, .metaFound (h ▸ hversion), by simp only [Process.statement, hversion, if_pos h]⟩
      · exact .inr (.inr (.inl ⟨_, by simp only [Process.statement, hversion, if_neg h]; rfl⟩))
  | metaMissing args =>
    have hstatement := @statement_commit τ (.initializeJournal args) (insertMeta db args)
    rcases hstatement with ⟨db', h, hret⟩ | hraised
    · exact .inr (.inr (.inr ⟨_, db', .initialized h, hret⟩))
    · exact .inr (.inr (.inl hraised))
  | metaFound args =>
    cases hstored : db.consultedThrough with
    | none => exact .inr (.inr (.inl ⟨_, by simp only [Process.statement, hstored]; rfl⟩))
    | some stored => exact .inl ⟨_, .boundaryRead hstored, by simp only [Process.statement, hstored]⟩
  | boundaryRead args stored => exact .inr (.inr (.inr ⟨_, _, .advanced args stored, rfl⟩))
  | opened call =>
    cases call with
    | initializeJournal args => exact .inl ⟨_, .schemaReady, rfl⟩
    | record args =>
      have hstatement := @statement_commit τ (.record args) (recordConsultation db args)
      rcases hstatement with ⟨db', h, hret⟩ | hraised
      · exact .inr (.inr (.inr ⟨_, db', .recorded h, hret⟩))
      · exact .inr (.inr (.inl hraised))
    | persist plan now =>
      cases h : persistRegistration hashes db plan now with
      | ok result =>
        obtain ⟨sealedPlan, db'⟩ := result
        exact .inr (.inr (.inr ⟨_, db', .persisted h, by simp only [Process.statement, h]; rfl⟩))
      | error e => exact .inr (.inr (.inl ⟨e, by simp only [Process.statement, h]; rfl⟩))
    | reserve plan args =>
      cases h : reserveAttempt db plan args with
      | ok result =>
        obtain ⟨attempt, db'⟩ := result
        exact .inr (.inr (.inr ⟨_, db', .reserved h, by simp only [Process.statement, h]; rfl⟩))
      | error e => exact .inr (.inr (.inl ⟨e, by simp only [Process.statement, h]; rfl⟩))
    | finish args =>
      have hread := @statement_read τ db _ (fun _ => .reservationRead args) (findReservation db args)
      rcases hread with ⟨_, _, hnext⟩ | hraised
      · exact .inl ⟨_, .reservationRead, hnext⟩
      · exact .inr (.inr (.inl hraised))
  | reservationRead args =>
    cases h : findOutcome db args with
    | error e => exact .inr (.inr (.inl ⟨e, by simp only [Process.statement, h]⟩))
    | ok found =>
      cases found with
      | true => exact .inr (.inr (.inr ⟨_, db, .repeated args, by simp only [Process.statement, h]⟩))
      | false => exact .inl ⟨_, .outcomeMissing, by simp only [Process.statement, h]⟩
  | outcomeMissing args =>
    have hstatement := @statement_commit τ (.finish args) (insertOutcome db args)
    rcases hstatement with ⟨db', h, hret⟩ | hraised
    · exact .inr (.inr (.inr ⟨_, db', .finished h, hret⟩))
    · exact .inr (.inr (.inl hraised))

theorem Happens.tables {e : Event τ} {w' : World τ} (h : Happens hashes w e w') :
    w'.db = w.db ∨ w'.db = { w.db with created := true } ∨ ∃ p call, Committed hashes w.db p call w'.db := by
  cases h with
  | nothing | called | read | ended => exact .inl rfl
  | created => exact .inr (.inl rfl)
  | committed hcommit => exact .inr (.inr ⟨_, _, hcommit⟩)

theorem next_happens (hashes : Hashes τ) (w : World τ) (e : Event τ) : Happens hashes w e (w.next hashes e) := by
  cases e with
  | call i call =>
    simp only [World.next]
    split
    next hcheck => exact .called hcheck
    next => exact .nothing _
  | step i =>
    simp only [World.next]
    rcases statement_cases hashes w.db (w.processes i) with
      ⟨p', hreads, h⟩ | ⟨args, hp, h⟩ | ⟨e, h⟩ | ⟨call, db', hcommit, h⟩ <;> rw [h]
    · exact .read hreads
    · exact .created hp
    · exact .ended _ i
    · exact .committed hcommit
  | lost i => exact .ended _ i

end CryptoPilot.Research
