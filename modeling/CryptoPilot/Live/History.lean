/- # History — one journal over many processes.

A history is a list of sessions over one journal: attempts, executor runs, orphan sweeps and restart
recoveries, in any order.  Each session hears a script of its own; a script that ends is the death
of the process in the middle of what it was doing, and a restarted session reads the journal back
from its durable records. -/
import CryptoPilot.Live.ExecutorJournal
import CryptoPilot.Live.ExecutorSafety

namespace CryptoPilot.Live

open CryptoPilot.Lib Proc List

/-! ## Sessions -/

inductive Activity where
  | attempt (context : AttemptContext)
  | execute (c : ExecConfig) (intents : List OrderIntent)
  | sweep (c : SweepConfig)
  | recover (c : RecoverConfig)

/-- An activity, what it will hear, and whether a new process begins with it. -/
structure Session where
  activity : Activity
  script : List EnvStep
  restarted : Bool

def Activity.run : Activity → World → World
  | .attempt context, w => (beginAttempt context w).2
  | .execute c intents, w => (executeRun c intents w).2.w
  | .sweep c, w => (cancelOrphanOrders c w).2
  | .recover c, w => (recoverAndSettle c w).2

/-- The world a session starts in: a new process loads the journal from its durable records. -/
def Session.boot (s : Session) (w : World) : World :=
  { w with journal := if s.restarted then Journal.load (recordsOf w.trace) else w.journal,
           script := s.script }

def Session.run (s : Session) (w : World) : World := s.activity.run (s.boot w)

def runSessions : List Session → World → World
  | [], w => w
  | s :: rest, w => runSessions rest (s.run w)

def history (sessions : List Session) : World := runSessions sessions (World.fresh Journal.empty [])

/-- The misses an activity takes for "never placed": none in a sweep, the late ones in an executor
run, all in recovery. -/
def Activity.relied (base : List Event) : Activity → Reliance
  | .attempt _ | .sweep _ => fun _ _ _ => False
  | .execute c _ => reliesLate c base
  | .recover _ => reliesAlways base

/-- Every miss a session relies on comes at or after the horizon, from the append of the submission.
-/
def TimelySessions (horizon : ℚ) : List Session → World → Prop
  | [], _ => True
  | s :: rest, w =>
    Timely horizon (s.activity.relied w.trace) (s.run w).trace ∧ TimelySessions horizon rest (s.run w)

def TimelyHistory (horizon : ℚ) (sessions : List Session) : Prop :=
  TimelySessions horizon sessions (World.fresh Journal.empty [])

/-! ## What every session keeps -/

structure Sound (y : Sys) : Prop where
  kept : Kept y
  ids : IdsKept y
  backed : Backed y

section Sessions

variable {law : List Event → Prop} {relied : Reliance} {y y' : Sys} {w : World}

theorem SysMove.sound (h : SysMove law relied y y') (hy : Sound y) : Sound y' :=
  ⟨h.kept hy.kept, h.idsKept hy.ids, h.backed hy.backed⟩

theorem SysReach.sound (h : SysReach law relied y y') (hy : Sound y) : Sound y' :=
  h.keeps SysMove.sound hy

theorem Sound.fresh : Sound (World.fresh Journal.empty []).sys := by
  refine ⟨rfl, ⟨?_, List.Pairwise.nil, ?_⟩, fun _ => .inl rfl⟩
  · rintro orderId ⟨e, he, -⟩; cases he
  · intro newer p pre hsplit; simp [World.sys, World.fresh] at hsplit

variable (s : Session) (sessions : List Session)

theorem Session.boot_sys (hy : Sound w.sys) : (s.boot w).sys = w.sys := by
  have hkept : w.journal = Journal.load (recordsOf w.trace) := hy.kept
  simp only [Session.boot, World.sys]
  rw [← hkept, ite_self]

theorem reach_of_along {α : Type} {x : WorldM α} {Q : α → World → Prop}
    (h : Along (Recovers law relied) x w Q) : SysReach law relied w.sys (x w).2.sys :=
  wp_final (P := Recovers law relied w) (wp_mono h (fun _ _ hr => hr.1) fun _ _ hr => hr)

/-- **Every session moves along the machine**, relying on the misses of its activity. -/
theorem Session.reach (horizon : ℚ) (s : Session) (hy : Sound w.sys) :
    SysReach (FateLaw horizon) (s.activity.relied w.trace) w.sys (s.run w).sys := by
  have hboot := s.boot_sys hy
  have hsound : Sound (s.boot w).sys := by
    rw [hboot]; exact hy
  rw [← hboot, Session.run]
  cases s.activity with
  | attempt context => exact reach_of_along along_beginAttempt
  | sweep c => exact reach_of_along along_cancelOrphanOrders
  | execute c intents => exact executeRun_reach c intents hsound.ids hsound.backed
  | recover c =>
    exact reach_of_along (along_recoverAndSettle suffix_rfl hsound.kept.submitted)

theorem Session.sound (hy : Sound w.sys) : Sound (s.run w).sys :=
  (s.reach 0 hy).sound hy

theorem Session.suffix (hy : Sound w.sys) : w.trace <:+ (s.run w).trace :=
  (s.reach 0 hy).trace_suffix

theorem runSessions_suffix : ∀ {w : World}, Sound w.sys → w.trace <:+ (runSessions sessions w).trace := by
  induction sessions with
  | nil => intro w _; exact suffix_rfl
  | cons s rest ih => intro w hy; exact (s.suffix hy).trans (ih (s.sound hy))

variable {horizon : ℚ}

theorem Conserved.fresh : Conserved horizon (World.fresh Journal.empty []).sys where
  sum := fun _ => rfl
  locked := by
    rintro orderId ⟨e, he, -⟩; cases he
  final := by
    intro newer e older t hsplit; simp [World.sys, World.fresh] at hsplit

theorem SysReach.conserved (h : SysReach (FateLaw horizon) relied y y') (hy : Sound y)
    (hcons : Conserved horizon y) (hlaw : FateLaw horizon y'.trace)
    (htimely : Timely horizon relied y'.trace) : Conserved horizon y' := by
  induction h with
  | refl => exact hcons
  | @tail b b' hreach hmove ih =>
    obtain ⟨e, he⟩ := hmove.trace_cons
    have hsuffix : b.trace <:+ b'.trace := by
      rw [he]; exact suffix_cons _ _
    have hbefore := ih (hlaw.of_suffix hsuffix) (htimely.of_suffix hsuffix)
    exact hmove.conserved hbefore (SysReach.sound hreach hy).backed hlaw htimely

theorem Clocked.of_suffix {trace trace' : List Event} (h : Clocked trace') (hsuffix : trace <:+ trace') :
    Clocked trace :=
  List.Pairwise.sublist hsuffix.sublist h

theorem SysReach.horizonKept (h : SysReach law relied y y') (hy : Sound y)
    (hkept : HorizonKept horizon y.trace) (hclock : Clocked y'.trace)
    (htimely : Timely horizon relied y'.trace) : HorizonKept horizon y'.trace := by
  induction h with
  | refl => exact hkept
  | @tail b b' hreach hmove ih =>
    obtain ⟨e, he⟩ := hmove.trace_cons
    have hsuffix : b.trace <:+ b'.trace := by
      rw [he]; exact suffix_cons _ _
    have hbefore := ih (hclock.of_suffix hsuffix) (htimely.of_suffix hsuffix)
    exact hmove.horizonKept hbefore (SysReach.sound hreach hy).ids htimely hclock

theorem runSessions_keeps {P : World → Prop} {Lawful : List Event → Prop}
    (hsuffix : ∀ {t t' : List Event}, t <:+ t' → Lawful t' → Lawful t)
    (hsession : ∀ (s : Session) (w : World), Sound w.sys → P w → Lawful (s.run w).trace →
      Timely horizon (s.activity.relied w.trace) (s.run w).trace → P (s.run w))
    (sessions : List Session) :
    ∀ {w : World}, Sound w.sys → P w → Lawful (runSessions sessions w).trace →
      TimelySessions horizon sessions w → P (runSessions sessions w) := by
  induction sessions with
  | nil => intro w _ hw _ _; exact hw
  | cons s rest ih =>
    intro w hy hw hlaw htimely
    have hnext : Sound (s.run w).sys := s.sound hy
    have hlaw₁ : Lawful (s.run w).trace := hsuffix (runSessions_suffix rest hnext) hlaw
    exact ih hnext (hsession s w hy hw hlaw₁ htimely.1) hlaw htimely.2

theorem runSessions_sound : ∀ {w : World}, Sound w.sys → Sound (runSessions sessions w).sys := by
  induction sessions with
  | nil => intro w hy; exact hy
  | cons s rest ih => intro w hy; exact ih (s.sound hy)

theorem runSessions_conserved {w : World} (hy : Sound w.sys)
    (hcons : Conserved horizon w.sys) (hlaw : FateLaw horizon (runSessions sessions w).trace)
    (htimely : TimelySessions horizon sessions w) : Conserved horizon (runSessions sessions w).sys := by
  refine runSessions_keeps (P := fun w => Conserved horizon w.sys) (fun h hlaw => hlaw.of_suffix h)
    (fun s w hy hw hlaw htimely => ?_) sessions hy hcons hlaw htimely
  exact SysReach.conserved (s.reach horizon hy) hy hw hlaw htimely

end Sessions

/-! ## The results -/

/-- **Conservation of fills**, as a property of the world: for every id the live fills add up to
what the journal has observed, which no report of the venue falls short of; and after a terminal
record of the id the venue's executed quantity is that sum, and no live fill is booked. -/
def FillsConserved (w : World) : Prop :=
  (∀ orderId, w.journal.fillSum orderId = w.journal.observedQty orderId) ∧
  (∀ orderId, w.journal.fillSum orderId = 0 ∨
    ∃ r ∈ w.trace, ∃ x, r.Reports orderId x ∧ w.journal.fillSum orderId ≤ x) ∧
  ∀ newer e older t, w.trace = newer ++ e :: older → e.Logs (.terminal t) → ∀ e' ∈ newer,
    e'.venue.executed t.clientOrderId = w.journal.fillSum t.clientOrderId ∧
    ∀ f, e'.Logs (.fill f) → f.clientOrderId = some t.clientOrderId → f.simulated = true

/-- **Per-order fill conservation**, over every history on a lawful venue in which no session relies
on a `-2013` before the horizon. -/
theorem history_fills_conserved (horizon : ℚ) (sessions : List Session)
    (hlaw : FateLaw horizon (history sessions).trace) (htimely : TimelyHistory horizon sessions) :
    FillsConserved (history sessions) := by
  have hcons : Conserved horizon (history sessions).sys :=
    runSessions_conserved sessions Sound.fresh Conserved.fresh hlaw htimely
  have hbacked : Backed (history sessions).sys := (runSessions_sound sessions Sound.fresh).backed
  have hsum : ∀ orderId, (history sessions).journal.fillSum orderId
      = (history sessions).journal.observedQty orderId := hcons.sum
  refine ⟨hsum, fun orderId => ?_, fun newer e older t hsplit hlogs e' he' => ?_⟩
  · rw [hsum]; exact (hbacked orderId).imp_right fun ⟨r, hr, hreport⟩ => ⟨r, hr, _, hreport, le_rfl⟩
  · rw [hsum]; exact hcons.final newer e older t hsplit hlogs e' he'

/-- An executor run that posts an order of 2, loses the answer and dies. -/
def lostSession : Session where
  activity := .execute (flipConfig (onBtc flipFilters) false) [sellTwo]
  script :=
    [{ time := 0 }, { time := 1 },
      { reply := .books (onBtc { bid := some (999 / 10), ask := some (1001 / 10) }), time := 1 },
      { time := 2 }, { time := 2 }, { time := 2 }, { reply := .error .orderStatusUnknown, time := 2 }]
  restarted := true

/-- A restart recovery at `time` whose first query is answered with `reply`. -/
def recoverySession (time : ℚ) (reply : Reply) (venue : Venue) : Session where
  activity := .recover { now := time, lookback := 1000, takerFeeBps := 5 }
  script := { reply := reply, time := time, venue := venue } ::
    replicate 8 { time := time, venue := venue }
  restarted := true

def halfVenue : Venue := ⟨(∅ : Dict ℚ).insert firstId 1⟩

def halfPayload : OrderPayload where
  status := "CANCELED"
  executedQty := .value 1
  avgPrice := .value 100
  side := some "BUY"
  updateTime := some 5000
  time := some 3000

/-- A sweep at `time` that finds the order open and cancels it. -/
def orphanSession (time : ℚ) : Session where
  activity := .sweep { now := time, takerFeeBps := 5 }
  script :=
    [{ reply := .openOrders [{ clientOrderId := firstId, symbol := some "BTCUSDT" }], time := time,
       venue := halfVenue }, { time := time, venue := halfVenue },
      { reply := .order halfPayload, time := time, venue := halfVenue }] ++
    replicate 6 { time := time, venue := halfVenue }
  restarted := true

def missReply : Reply := .error (.venueError (some orderDoesNotExistCode) 400)

theorem timelySessions_of_check {horizon : ℚ} (sessions : List Session) :
    ∀ {w : World}, Sound w.sys → Timely.check horizon (runSessions sessions w).trace = true →
      TimelySessions horizon sessions w := by
  induction sessions with
  | nil => intro w _ _; trivial
  | cons s rest ih =>
    intro w hy h
    refine ⟨?_, ih (s.sound hy) h⟩
    exact (Timely.of_check h).of_suffix (runSessions_suffix rest (s.sound hy))

/-- The lost order turns up half executed: recovery books it and closes it. -/
theorem history_fills_conserved_recovered :
    FillsConserved (history [lostSession, recoverySession 5 (.order halfPayload) halfVenue]) ∧
    (history [lostSession, recoverySession 5 (.order halfPayload) halfVenue]).journal.fillSum firstId
      = 1 := by
  refine ⟨history_fills_conserved 35 _ (FateLaw.of_check firstId ?_)
    (timelySessions_of_check _ Sound.fresh ?_), ?_⟩
  all_goals decide +kernel

/-- The order is missed one second after its submission, written off, and found open two seconds
later. -/
def writtenOffHistory : World := history [lostSession, recoverySession 3 missReply {}, orphanSession 5]

def agreesAfterEnd (newer : List Event) (e : Event) (_ : List Event) : Bool :=
  match e.logged with
  | some (.terminal t) => newer.all fun e' =>
    decide (e'.venue.executed t.clientOrderId = writtenOffHistory.journal.fillSum t.clientOrderId)
  | _ => true

/-- **Recovery writes a live order off.**  On a lawful venue a fill is booked on an order with a
terminal record. -/
theorem writtenOffHistory_not_conserved :
    FateLaw 35 writtenOffHistory.trace ∧ ¬ FillsConserved writtenOffHistory := by
  refine ⟨FateLaw.of_check firstId (by decide +kernel), fun h => ?_⟩
  have hcheck : eachSplit agreesAfterEnd [] writtenOffHistory.trace = true := by
    refine eachSplit_iff.mpr fun newer e older hsplit => ?_
    rw [nil_append, agreesAfterEnd]
    split
    · next t ht =>
      refine all_eq_true.mpr fun e' he' => decide_eq_true ?_
      exact (h.2.2 newer e older t hsplit (Event.logged_eq_some.mp ht) e' he').1
    · rfl
  exact absurd hcheck (by decide +kernel)

/-- **The unknown-outcome horizon**, over every history in which no session relies on a `-2013`
before it has passed. -/
theorem history_horizon_kept (horizon : ℚ) (sessions : List Session)
    (hclock : Clocked (history sessions).trace) (htimely : TimelyHistory horizon sessions) :
    HorizonKept horizon (history sessions).trace := by
  refine runSessions_keeps (P := fun w => HorizonKept horizon w.trace)
    (fun hsuffix hclock => hclock.of_suffix hsuffix) (fun s w hy hw hclock htimely => ?_) sessions
    Sound.fresh ?_ hclock htimely
  · exact SysReach.horizonKept (s.reach horizon hy) hy hw hclock htimely
  · intro newer e older t m hsplit; simp [World.fresh] at hsplit

/-- A miss 38 seconds after the submission is late enough to write the order off. -/
theorem history_horizon_kept_late :
    HorizonKept 35 (history [lostSession, recoverySession 40 missReply {}]).trace ∧
    ((history [lostSession, recoverySession 40 missReply {}]).journal.terminal firstId).map
      JournalTerminal.status = some orderNotFoundStatus := by
  have hclock : Clocked (history [lostSession, recoverySession 40 missReply {}]).trace := by
    unfold Clocked; decide +kernel
  refine ⟨history_horizon_kept 35 _ hclock (timelySessions_of_check _ Sound.fresh ?_), ?_⟩
  · decide +kernel
  · decide +kernel

def endsLate (_ : List Event) (e : Event) (older : List Event) : Bool :=
  match e.logged with
  | some (.terminal t) => !neverPlaced t.status ||
      (lastAnswer older t.clientOrderId).all (fun m => m.missed != some t.clientOrderId) ||
      older.all fun s => s.submitted != some t.clientOrderId || decide (35 ≤ e.time - s.time)
  | _ => true

/-- **Recovery writes an order off one second after its submission was journaled.** -/
theorem history_horizon_broken :
    Clocked (history [lostSession, recoverySession 3 missReply {}]).trace ∧
    ¬ HorizonKept 35 (history [lostSession, recoverySession 3 missReply {}]).trace := by
  refine ⟨by unfold Clocked; decide +kernel, fun h => ?_⟩
  have hcheck : eachSplit endsLate [] (history [lostSession, recoverySession 3 missReply {}]).trace = true := by
    refine eachSplit_iff.mpr fun newer e older hsplit => ?_
    rw [endsLate]
    split
    · next t ht =>
      by_cases hstatus : neverPlaced t.status = true
      · cases hlast : lastAnswer older t.clientOrderId with
        | none => simp
        | some m =>
          by_cases hmiss : m.missed = some t.clientOrderId
          · have hlate := h newer e older t m hsplit (Event.logged_eq_some.mp ht) hstatus hlast
              (Event.missed_eq_some.mp hmiss)
            refine Bool.or_eq_true_iff.mpr (.inr (all_eq_true.mpr fun s hs => ?_))
            by_cases hsub : s.submitted = some t.clientOrderId
            · simp [hlate s hs (Event.submitted_eq_some.mp hsub)]
            · simp [hsub]
          · simp [hmiss]
      · simp [hstatus]
    · rfl
  exact absurd hcheck (by decide +kernel)

/-- **Client-id uniqueness**, over every history: no two orders are posted under one id, and every
post directly follows the durable append of its own submission. -/
theorem history_ids_unique :
    (∀ sessions : List Session, (postedIds (history sessions).trace).Nodup ∧
      ∀ newer p pre, (history sessions).trace = newer ++ p :: pre → ∀ orderId, p.PostsOrder orderId →
        ∃ e₀ rest, pre = e₀ :: rest ∧ e₀.Submits orderId) ∧
    (∀ (records : List Record) (s : JournalSubmit), .submit s ∈ records →
      s.submitSeq < ((Journal.load records).nextSubmitSeq : ℤ)) ∧
    ∀ (sha256 sha256' : Digest) (runId runId' symbol symbol' orderId : String)
      (leg leg' generation generation' seq seq' : ℕ),
      buildClientOrderId sha256 runId symbol leg generation seq = .ok orderId →
      buildClientOrderId sha256' runId' symbol' leg' generation' seq' = .ok orderId → seq = seq' := by
  refine ⟨fun sessions => ?_, Journal.submitSeq_lt_load, ?_⟩
  · have hids := (runSessions_sound sessions Sound.fresh).ids
    exact ⟨hids.postedIds_nodup, hids.ahead⟩
  · intro _ _ _ _ _ _ _ _ _ _ _ _ _ h h'; exact buildClientOrderId_submitSeq_inj h h'

end CryptoPilot.Live
