/- # JournalInvariants — what every run over one journal keeps.

Three invariants of `SysMove`.  `Kept`: the journal in memory is the fold of the durable appends.
`IdsKept`: every post directly follows the append of its own submission, and no id is submitted
twice.  `Conserved`: under the laws of the venue the fills of an order add up to what the journal
has observed of it, and a terminal record is the end of it; `HorizonKept`: no `-2013` is acted on
early. -/
import CryptoPilot.Live.JournalMachine

namespace CryptoPilot.Live

open CryptoPilot.Lib List

/-! ## The journal is the fold of the durable appends -/

def Event.logged (e : Event) : Option Record :=
  match e.call, e.reply.raised with
  | .append record, none => some record
  | _, _ => none

def recordsOf (trace : List Event) : List Record := (trace.filterMap Event.logged).reverse

def Kept (y : Sys) : Prop := y.journal = Journal.load (recordsOf y.trace)

section Kept

variable {law : List Event → Prop} {relied : Reliance} {y y' : Sys} {e : Event} {record : Record}

theorem Event.logged_eq_some : e.logged = some record ↔ e.Logs record := by
  unfold Event.logged Event.Logs
  constructor
  · intro h
    split at h
    · next hcall hraised => exact ⟨by rw [hcall, Option.some.inj h], hraised⟩
    · cases h
  · rintro ⟨hcall, hraised⟩
    rw [hcall, hraised]

theorem Event.logged_eq_none (h : ∀ record, ¬ e.Logs record) : e.logged = none := by
  cases hlogged : e.logged with
  | none => rfl
  | some record => exact absurd (Event.logged_eq_some.mp hlogged) (h record)

variable {trace : List Event}

theorem recordsOf_cons_some (h : e.Logs record) : recordsOf (e :: trace) = recordsOf trace ++ [record] := by
  rw [recordsOf, filterMap_cons_some (Event.logged_eq_some.mpr h), reverse_cons]; rfl

theorem recordsOf_cons_none (h : ∀ record, ¬ e.Logs record) : recordsOf (e :: trace) = recordsOf trace := by
  rw [recordsOf, filterMap_cons_none (Event.logged_eq_none h)]; rfl

theorem not_logs_of_newOrder {tag : OrderTag} {params : OrderParams}
    (h : e.call = .newOrder tag params) (record : Record) : ¬ e.Logs record := by
  intro hlogs
  rw [hlogs.1] at h; cases h

theorem SysMove.log_cases (h : SysMove law relied y y') : ∃ e, y'.trace = e :: y.trace ∧
    ((∃ record, e.Logs record ∧ y'.journal = y.journal.apply record) ∨
      ((∀ record, ¬ e.Logs record) ∧ y'.journal = y.journal)) := by
  cases h with
  | hear nothing unlogged => exact ⟨_, rfl, .inr ⟨unlogged, rfl⟩⟩
  | post call => exact ⟨_, rfl, .inr ⟨not_logs_of_newOrder call, rfl⟩⟩
  | note inert logs | submit logs | fill logs | simulatedFill logs | terminal logs =>
    exact ⟨_, rfl, .inl ⟨_, logs, rfl⟩⟩

theorem SysMove.kept (h : SysMove law relied y y') (hy : Kept y) : Kept y' := by
  obtain ⟨e, htrace, ⟨record, hlogs, hjournal⟩ | ⟨hunlogged, hjournal⟩⟩ := h.log_cases
  · rw [Kept, htrace, recordsOf_cons_some hlogs, Journal.load_append, hjournal, hy]
  · rw [Kept, htrace, recordsOf_cons_none hunlogged, hjournal, hy]

theorem mem_recordsOf : record ∈ recordsOf trace ↔ ∃ e ∈ trace, e.Logs record := by
  rw [recordsOf, mem_reverse, mem_filterMap]; simp only [Event.logged_eq_some]

theorem Journal.submits_load (records : List Record) :
    ∀ s ∈ (Journal.load records).submits, .submit s ∈ records := by
  induction records using reverseRecOn with
  | nil => intro s hs; cases hs
  | append_singleton records record ih =>
    intro s hs
    rw [Journal.load_append] at hs
    have hold : s ∈ (Journal.load records).submits → .submit s ∈ records ++ [record] :=
      fun h => mem_append_left _ (ih s h)
    cases record with
    | submit s' =>
      rcases mem_append.mp hs with hs | hs
      · exact hold hs
      · rw [mem_singleton.mp hs]; simp
    | observed orderId qty =>
      simp only [Journal.apply] at hs
      split at hs <;> exact hold hs
    | _ => exact hold hs

theorem Kept.submitted (hy : Kept y) : ∀ s ∈ y.journal.submits, Submitted y.trace s.clientOrderId := by
  intro s hs
  rw [hy] at hs
  obtain ⟨e, he, hlogs⟩ := mem_recordsOf.mp (Journal.submits_load _ s hs)
  exact ⟨e, he, s, hlogs, rfl⟩

end Kept

/-! ## Client order ids -/

/-- An id that was built under a sequence number below `bound`. -/
def BuiltBelow (bound : ℕ) (orderId : String) : Prop :=
  ∃ sha256 runId symbol leg seq, seq < bound ∧
    buildClientOrderId sha256 runId symbol leg 0 seq = .ok orderId

/-- **Write-ahead**: the append of a post's own submission is the event before it, and no id is
submitted twice. -/
structure IdsKept (y : Sys) : Prop where
  built : ∀ orderId, Submitted y.trace orderId → BuiltBelow y.journal.nextSubmitSeq orderId
  distinct : y.trace.Pairwise fun newer older =>
    ∀ orderId, newer.Submits orderId → ¬ older.Submits orderId
  ahead : ∀ newer p pre, y.trace = newer ++ p :: pre → ∀ orderId, p.PostsOrder orderId →
    ∃ e₀ rest, pre = e₀ :: rest ∧ e₀.Submits orderId

def postedIds (trace : List Event) : List String := trace.filterMap Event.posted

section Ids

variable {law : List Event → Prop} {relied : Reliance} {y y' : Sys} {e : Event} {orderId : String}

theorem BuiltBelow.mono {bound bound' : ℕ} (h : BuiltBelow bound orderId) (hle : bound ≤ bound') :
    BuiltBelow bound' orderId := by
  obtain ⟨sha256, runId, symbol, leg, seq, hseq, hid⟩ := h
  exact ⟨sha256, runId, symbol, leg, seq, hseq.trans_le hle, hid⟩

theorem BuiltBelow.ne {bound : ℕ} {orderId' : String} {sha256 : Digest} {runId symbol : String}
    {leg : ℕ} (h : BuiltBelow bound orderId)
    (hid : buildClientOrderId sha256 runId symbol leg 0 bound = .ok orderId') : orderId' ≠ orderId := by
  rintro rfl
  obtain ⟨sha256', runId', symbol', leg', seq, hseq, hid'⟩ := h
  have heq := buildClientOrderId_submitSeq_inj hid hid'; omega

theorem Event.Submits.logs_eq {record : Record} (h : e.Submits orderId) (hlogs : e.Logs record) :
    ∃ s, record = .submit s ∧ s.clientOrderId = orderId := by
  obtain ⟨s, hs, hid⟩ := h
  have heq : Call.append record = .append (.submit s) := hlogs.1.symm.trans hs.1
  exact ⟨s, Call.append.inj heq, hid⟩

section

variable (h : IdsKept y)

include h

theorem IdsKept.extend (htrace : y'.trace = e :: y.trace)
    (hseq : y.journal.nextSubmitSeq ≤ y'.journal.nextSubmitSeq) (hsubmits : ∀ id, ¬ e.Submits id)
    (hposts : ∀ id, e.PostsOrder id → ∃ e₀ rest, y.trace = e₀ :: rest ∧ e₀.Submits id) : IdsKept y' where
  built := by
    rintro id ⟨e', he', hsub⟩
    rw [htrace] at he'
    rcases mem_cons.mp he' with rfl | he'
    · exact absurd hsub (hsubmits id)
    · exact (h.built id ⟨e', he', hsub⟩).mono hseq
  distinct := by
    rw [htrace]; exact pairwise_cons.mpr ⟨fun _ _ id hsub => absurd hsub (hsubmits id), h.distinct⟩
  ahead := by
    intro newer p pre hsplit id hpost
    rw [htrace] at hsplit
    cases newer with
    | nil =>
      obtain ⟨rfl, rfl⟩ := List.cons.inj hsplit; exact hposts id hpost
    | cons e' newer => exact h.ahead newer p pre (List.cons.inj hsplit).2 id hpost

theorem IdsKept.hear (nothing : e.PostsNothing) (unlogged : ∀ record, ¬ e.Logs record) : IdsKept (y.hear e) := by
  refine h.extend rfl le_rfl ?_ fun id hpost => absurd hpost nothing.not_postsOrder
  rintro id ⟨s, hs, -⟩; exact unlogged _ hs

theorem IdsKept.note {record : Record} (logs : e.Logs record) (hne : ∀ s, record ≠ .submit s) :
    IdsKept (y.log e record) := by
  refine h.extend rfl (y.journal.nextSubmitSeq_le_apply _) (fun id hsub => ?_) fun id hpost => ?_
  · obtain ⟨s, hs, -⟩ := hsub.logs_eq logs; exact hne s hs
  · exact absurd hpost logs.postsNothing.not_postsOrder

theorem IdsKept.post {tag : OrderTag} {params : OrderParams} (call : e.call = .newOrder tag params)
    (journaled : ∃ e₀ rest, y.trace = e₀ :: rest ∧ e₀.Submits params.newClientOrderId) : IdsKept (y.hear e) := by
  refine h.extend rfl le_rfl ?_ ?_
  · rintro id ⟨s, hs, -⟩; exact not_logs_of_newOrder call _ hs
  · rintro id ⟨tag', params', hcall, rfl⟩
    obtain ⟨rfl, rfl⟩ := Call.newOrder.inj (call.symm.trans hcall); exact journaled

theorem IdsKept.submit {s : JournalSubmit} {sha256 : Digest} {runId symbol : String} {leg : ℕ}
    (logs : e.Logs (.submit s)) (seq : s.submitSeq = y.journal.nextSubmitSeq)
    (id : buildClientOrderId sha256 runId symbol leg 0 y.journal.nextSubmitSeq = .ok s.clientOrderId) :
    IdsKept (y.log e (.submit s)) := by
  have hnext : (y.log e (.submit s)).journal.nextSubmitSeq = y.journal.nextSubmitSeq + 1 := by
    simp only [Sys.log, Journal.apply, seq]; omega
  have hown : ∀ orderId, e.Submits orderId → orderId = s.clientOrderId := by
    intro orderId hsub
    obtain ⟨s', hs', hid⟩ := hsub.logs_eq logs
    rw [← hid, Record.submit.inj hs']
  refine ⟨?_, ?_, ?_⟩
  · rintro orderId ⟨e', he', hsub⟩
    rw [hnext]
    rcases mem_cons.mp he' with rfl | he'
    · rw [hown orderId hsub]; exact ⟨sha256, runId, symbol, leg, _, Nat.lt_succ_self _, id⟩
    · exact (h.built orderId ⟨e', he', hsub⟩).mono (Nat.le_succ _)
  · -- the new id carries a sequence number that no submitted id carries
    refine pairwise_cons.mpr ⟨fun e' he' orderId hsub hsub' => ?_, h.distinct⟩
    have hne := (h.built orderId ⟨e', he', hsub'⟩).ne id; exact hne (hown orderId hsub).symm
  · intro newer p pre hsplit orderId hpost
    cases newer with
    | nil =>
      obtain ⟨rfl, rfl⟩ := List.cons.inj hsplit; exact absurd hpost logs.postsNothing.not_postsOrder
    | cons e' newer => exact h.ahead newer p pre (List.cons.inj hsplit).2 orderId hpost

end

theorem SysMove.idsKept (h : SysMove law relied y y') (hy : IdsKept y) : IdsKept y' := by
  cases h with
  | hear nothing unlogged => exact hy.hear nothing unlogged
  | note inert logs => exact hy.note logs (by rintro s rfl; cases inert)
  | submit logs seq id => exact hy.submit logs seq id
  | post call journaled => exact hy.post call journaled
  | fill logs | simulatedFill logs | terminal logs => exact hy.note logs (by rintro s ⟨⟩)

theorem IdsKept.submitted_pre (h : IdsKept y) {newer pre : List Event} {p : Event}
    (hsplit : y.trace = newer ++ p :: pre) (hpost : p.PostsOrder orderId) : Submitted pre orderId := by
  obtain ⟨e₀, rest, rfl, hsub⟩ := h.ahead newer p pre hsplit orderId hpost
  exact ⟨e₀, mem_cons_self, hsub⟩

theorem IdsKept.not_posted (h : IdsKept y) {rest : List Event} (htrace : y.trace = e :: rest)
    (hsub : e.Submits orderId) {p : Event} (hp : p ∈ y.trace) : ¬ p.PostsOrder orderId := by
  intro hpost
  obtain ⟨newer, pre, hsplit⟩ := append_of_mem hp
  obtain ⟨e', he', hsub'⟩ := h.submitted_pre hsplit hpost
  have hdistinct := h.distinct
  rw [htrace] at hdistinct hsplit
  cases newer with
  | nil =>
    obtain ⟨rfl, rfl⟩ := List.cons.inj hsplit
    exact rel_of_pairwise_cons hdistinct he' orderId hsub hsub'
  | cons e₁ newer =>
    obtain ⟨rfl, rfl⟩ := List.cons.inj hsplit
    refine rel_of_pairwise_cons hdistinct ?_ orderId hsub hsub'
    exact mem_append_right _ (mem_cons_of_mem _ he')

/-- **No id is posted twice.** -/
theorem IdsKept.postedIds_nodup (h : IdsKept y) : (postedIds y.trace).Nodup := by
  obtain ⟨-, hdistinct, hahead⟩ := h
  generalize y.trace = trace at hdistinct hahead
  induction trace with
  | nil => exact nodup_nil
  | cons e trace ih =>
    have hrest := ih hdistinct.tail fun newer p pre hsplit =>
      hahead (e :: newer) p pre (by rw [hsplit]; rfl)
    cases hposted : e.posted with
    | none => rwa [postedIds, filterMap_cons_none hposted]
    | some orderId =>
      rw [postedIds, filterMap_cons_some hposted, nodup_cons]
      refine ⟨fun hmem => ?_, hrest⟩
      -- an older post of the id has an older submission of the id
      obtain ⟨p, hp, hid⟩ := mem_filterMap.mp hmem
      have hpost := Event.posted_eq_some.mp hid
      obtain ⟨newer, pre, hsplit⟩ := append_of_mem hp
      obtain ⟨e₀, rest, htrace, hsub⟩ := hahead [] e trace rfl orderId (Event.posted_eq_some.mp hposted)
      obtain ⟨e₁, rest', hpre, hsub'⟩ := hahead (e :: newer) p pre (by rw [hsplit]; rfl) orderId hpost
      have hpairs := hdistinct.tail
      rw [htrace] at hpairs hsplit
      have hmem₁ : e₁ ∈ rest := by
        cases newer with
        | nil => rw [(List.cons.inj hsplit).2, hpre]; exact mem_cons_self
        | cons e₂ newer => rw [(List.cons.inj hsplit).2, hpre]; simp
      exact rel_of_pairwise_cons hpairs hmem₁ orderId hsub hsub'

theorem IdsKept.post_unique (h : IdsKept y) {p q : Event} (hp : p ∈ y.trace) (hq : q ∈ y.trace)
    (hp' : p.PostsOrder orderId) (hq' : q.PostsOrder orderId) : p = q := by
  by_contra hne
  have hpairs : y.trace.Pairwise fun a b => ∀ id, a.posted = some id → b.posted ≠ some id := by
    refine (pairwise_filterMap.mp h.postedIds_nodup).imp fun hab id ha hb => ?_
    exact hab id ha id hb rfl
  have hsymm : Std.Symm fun a b : Event => ∀ id, a.posted = some id → b.posted ≠ some id :=
    ⟨fun a b hab id hb ha => hab id ha hb⟩
  exact hpairs.forall hp hq hne orderId (Event.posted_eq_some.mpr hp') (Event.posted_eq_some.mpr hq')

theorem Journal.submitSeq_lt_load (records : List Record) :
    ∀ s : JournalSubmit, .submit s ∈ records →
      s.submitSeq < ((Journal.load records).nextSubmitSeq : ℤ) := by
  induction records using reverseRecOn with
  | nil => intro s hs; cases hs
  | append_singleton records record ih =>
    intro s hs
    rw [Journal.load_append]
    rcases mem_append.mp hs with hs | hs
    · have hle := (Journal.load records).nextSubmitSeq_le_apply record
      have hlt := ih s hs; omega
    · rw [mem_singleton] at hs
      subst hs; simp only [Journal.apply]; omega

end Ids

/-! ## The fate of an order -/

/-- **What the journal's writers rely on** beyond the venue's own laws; `horizon` is the
unknown-outcome horizon, in the time of the events. -/
structure FateLaw (horizon : ℚ) (trace : List Event) : Prop extends VenueLaw trace where
  nonneg : ∀ e ∈ trace, ∀ orderId, 0 ≤ e.venue.executed orderId
  /-- a simulated order never reaches the venue -/
  simulated : ∀ p ∈ trace, ∀ tag params, p.call = .newOrder tag params → p.reply = .paper →
    ∀ e ∈ trace, e.venue.executed params.newClientOrderId = 0
  /-- a refused order executes nothing -/
  refused : ∀ p ∈ trace, ∀ tag params exc, p.call = .newOrder tag params → p.reply = .error exc →
    classedRefused exc = true → ∀ e ∈ trace, e.venue.executed params.newClientOrderId = 0
  /-- nothing executes in the namespace before it is posted -/
  unposted : ∀ later e pre, trace = later ++ e :: pre → ∀ orderId : String,
    clientOrderNamespace.toList <+: orderId.toList →
    (∀ p ∈ e :: pre, ¬ p.PostsOrder orderId) → e.venue.executed orderId = 0
  /-- an order missed at or after the horizon was never placed -/
  lateMiss : ∀ later e pre, trace = later ++ e :: pre → ∀ orderId, e.Misses orderId →
    ∀ s ∈ pre, s.Submits orderId → horizon ≤ e.time - s.time →
    ∀ e' ∈ trace, e'.venue.executed orderId = 0
  /-- the venue has no status NOT_FOUND -/
  statuses : ∀ e ∈ trace, ∀ payload, e.reply = .order payload → payload.status ≠ orderNotFoundStatus

/-- The misses a process relies on come at or after the horizon, from the append of the submission.
-/
def Timely (horizon : ℚ) (relied : Reliance) (trace : List Event) : Prop :=
  ∀ newer e pre, trace = newer ++ e :: pre → ∀ orderId, e.Misses orderId → relied orderId e pre →
    ∀ s ∈ pre, s.Submits orderId → horizon ≤ e.time - s.time

/-- In every lawful future the order has executed exactly `x`. -/
def SealedAt (horizon : ℚ) (trace : List Event) (orderId : String) (x : ℚ) : Prop :=
  ∀ later, FateLaw horizon (later ++ trace) → ∀ e ∈ later, e.venue.executed orderId = x

section Fate

variable {horizon x : ℚ} {relied : Reliance} {trace : List Event} {e : Event} {orderId : String}

theorem FateLaw.tail (h : FateLaw horizon (e :: trace)) : FateLaw horizon trace where
  toVenueLaw := h.toVenueLaw.tail
  nonneg := fun e' he' => h.nonneg e' (mem_cons_of_mem e he')
  simulated := fun p hp tag params hcall hreply e' he' =>
    h.simulated p (mem_cons_of_mem e hp) tag params hcall hreply e' (mem_cons_of_mem e he')
  refused := fun p hp tag params exc hcall hreply hclass e' he' =>
    h.refused p (mem_cons_of_mem e hp) tag params exc hcall hreply hclass e'
      (mem_cons_of_mem e he')
  unposted := fun later e' pre heq => h.unposted (e :: later) e' pre (by rw [heq]; rfl)
  lateMiss := fun later e' pre heq orderId hmiss s hs hsub hlate e'' he'' =>
    h.lateMiss (e :: later) e' pre (by rw [heq]; rfl) orderId hmiss s hs hsub hlate e''
      (mem_cons_of_mem e he'')
  statuses := fun e' he' => h.statuses e' (mem_cons_of_mem e he')

variable {trace' : List Event}

theorem FateLaw.of_suffix (h : FateLaw horizon trace') (hsuffix : trace <:+ trace') :
    FateLaw horizon trace := by
  obtain ⟨later, rfl⟩ := hsuffix
  induction later with
  | nil => exact h
  | cons e later ih => exact ih h.tail

theorem Timely.of_suffix (h : Timely horizon relied trace') (hsuffix : trace <:+ trace') :
    Timely horizon relied trace := by
  obtain ⟨later, rfl⟩ := hsuffix
  intro newer e pre heq; exact h (later ++ newer) e pre (by rw [heq, append_assoc])

theorem SealedAt.cons (h : SealedAt horizon trace orderId x) : SealedAt horizon (e :: trace) orderId x := by
  intro later hlaw e' he'
  have happ : later ++ e :: trace = (later ++ [e]) ++ trace := by simp
  rw [happ] at hlaw; exact h _ hlaw e' (mem_append_left _ he')

theorem SealedAt.of_never (h : ∀ later, FateLaw horizon (later ++ trace) →
    ∀ e ∈ later ++ trace, e.venue.executed orderId = 0) : SealedAt horizon trace orderId 0 :=
  fun later hlaw e he => h later hlaw e (mem_append_left _ he)

theorem SealedAt.of_closed (hmem : e ∈ trace) (h : e.ReportsClosed orderId x) :
    SealedAt horizon trace orderId x := by
  intro later hlaw e' he'
  obtain ⟨newer, pre, rfl⟩ := append_of_mem hmem
  rw [← append_assoc] at hlaw; exact hlaw.final _ e pre rfl orderId x h e' (mem_append_left _ he')

theorem FateLaw.reported_le_closed {r : Event} {q : ℚ} (hlaw : FateLaw horizon trace) (hmem : e ∈ trace)
    (hclosed : e.ReportsClosed orderId x) (hr : r ∈ trace) (hreport : r.Reports orderId q) : q ≤ x := by
  obtain ⟨newer, pre, rfl⟩ := append_of_mem hmem
  have hat : e.venue.executed orderId = x := hlaw.truthful e hmem orderId x hclosed.reports
  have hq : r.venue.executed orderId = q := hlaw.truthful r hr orderId q hreport
  rcases mem_append.mp hr with hr | hr
  · have hfinal := hlaw.final newer e pre rfl orderId x hclosed r hr
    rw [← hq, hfinal]
  · rcases mem_cons.mp hr with rfl | hr
    · rw [← hq, hat]
    · have hpairs := (pairwise_append.mp hlaw.monotone).2.1
      rw [← hq, ← hat]; exact rel_of_pairwise_cons hpairs hr orderId

end Fate

def Event.submitted (e : Event) : Option String :=
  match e.logged with
  | some (.submit s) => some s.clientOrderId
  | _ => none

def Event.stillborn (e : Event) : Bool :=
  match e.reply with
  | .paper => true
  | .error exc => classedRefused exc
  | _ => false

/-- `FateLaw`, where only `orderId` executes. -/
def FateLaw.check (horizon : ℚ) (orderId : String) (trace : List Event) : Bool :=
  VenueLaw.check [orderId] trace &&
  (trace.all fun e => decide (0 ≤ e.venue.executed orderId)) &&
  eachPost (fun p params => !p.stillborn || decide (params.newClientOrderId ≠ orderId)) trace &&
  eachSplit (fun _ e pre =>
    decide (e.venue.executed orderId = 0) || (e :: pre).any fun p => p.posted == some orderId) [] trace &&
  eachSplit (fun _ e pre => e.missed != some orderId ||
    pre.all fun s => s.submitted != some orderId || decide (e.time - s.time < horizon)) [] trace &&
  trace.all fun e =>
    match e.reply with
    | .order payload => decide (payload.status ≠ orderNotFoundStatus)
    | _ => true

section FateCheck

variable {horizon : ℚ} {trace : List Event} {e : Event} {orderId : String}

theorem Event.submitted_eq_some : e.submitted = some orderId ↔ e.Submits orderId := by
  unfold Event.submitted Event.Submits
  constructor
  · intro h
    split at h
    · next s hlogged => exact ⟨s, Event.logged_eq_some.mp hlogged, Option.some.inj h⟩
    · cases h
  · rintro ⟨s, hlogs, rfl⟩
    rw [Event.logged_eq_some.mpr hlogs]

/-- **The check is sound.** -/
theorem FateLaw.of_check (orderId : String) (h : FateLaw.check horizon orderId trace = true) :
    FateLaw horizon trace := by
  simp only [FateLaw.check, Bool.and_eq_true] at h
  obtain ⟨⟨⟨⟨⟨hvenue, hnonneg⟩, hposts⟩, hunposted⟩, hmisses⟩, hstatuses⟩ := h
  have honly : ∀ {e : Event} {id : String}, e ∈ trace → id ≠ orderId → e.venue.executed id = 0 := by
    simp only [VenueLaw.check, Bool.and_eq_true] at hvenue
    exact fun he hid => onlyExecutes_spec hvenue.1.1.1.1 he (by simpa using hid)
  have hstillborn : ∀ p ∈ trace, ∀ tag params, p.call = .newOrder tag params → p.stillborn = true →
      ∀ e ∈ trace, e.venue.executed params.newClientOrderId = 0 := by
    intro p hp tag params hcall hborn e he
    have hcheck := eachPost_spec hposts hp hcall
    rw [hborn] at hcheck; exact honly he (of_decide_eq_true hcheck)
  refine ⟨VenueLaw.of_check [orderId] hvenue, fun e he id =>
    ?nonneg, fun p hp tag params hcall hreply => ?simulated,
    fun p hp tag params exc hcall hreply hclass => ?refused,
    fun later e pre hsplit id _ hfree => ?unposted,
    fun later e pre hsplit id hmiss s hs hsub hlate e' he' => ?lateMiss,
    fun e he payload hreply => ?statuses⟩
  case nonneg =>
    by_cases hid : id = orderId
    · rw [hid]; exact of_decide_eq_true (all_eq_true.mp hnonneg e he)
    · exact (honly he hid).ge
  case simulated => exact hstillborn p hp tag params hcall (by rw [Event.stillborn, hreply])
  case refused => exact hstillborn p hp tag params hcall (by rw [Event.stillborn, hreply]; exact hclass)
  case unposted =>
    by_cases hid : id = orderId
    · subst hid
      have hcheck := eachSplit_iff.mp hunposted later e pre hsplit
      rw [Bool.or_eq_true, decide_eq_true_eq, any_eq_true] at hcheck
      refine hcheck.resolve_right ?_
      rintro ⟨p, hp, hposted⟩; exact hfree p hp (Event.posted_eq_some.mp (beq_iff_eq.mp hposted))
    · exact honly (by rw [hsplit]; simp) hid
  case lateMiss =>
    by_cases hid : id = orderId
    · subst hid
      have hcheck := eachSplit_iff.mp hmisses later e pre hsplit
      simp only [Event.missed_eq_some.mpr hmiss, bne_self_eq_false, Bool.false_or, all_eq_true] at hcheck
      have hearly := hcheck s hs
      simp only [Event.submitted_eq_some.mpr hsub, bne_self_eq_false, Bool.false_or, decide_eq_true_eq] at hearly
      exact absurd hlate (not_le.mpr hearly)
    · exact honly he' hid
  case statuses =>
    have hcheck := all_eq_true.mp hstatuses e he
    rw [hreply] at hcheck; exact of_decide_eq_true hcheck

def Timely.check (horizon : ℚ) (trace : List Event) : Bool :=
  eachSplit (fun _ e pre =>
    match e.missed with
    | some orderId => pre.all fun s =>
      s.submitted != some orderId || decide (horizon ≤ e.time - s.time)
    | none => true) [] trace

theorem Timely.of_check {relied : Reliance} (h : Timely.check horizon trace = true) :
    Timely horizon relied trace := by
  intro newer e pre hsplit orderId hmiss _ s hs hsub
  have hcheck := eachSplit_iff.mp h newer e pre hsplit
  simp only [Event.missed_eq_some.mpr hmiss, all_eq_true] at hcheck
  have hlate := hcheck s hs
  simpa only [Event.submitted_eq_some.mpr hsub, bne_self_eq_false, Bool.false_or, decide_eq_true_eq] using hlate

end FateCheck

/-! ## Conservation -/

def Journal.fillSum (j : Journal) (orderId : String) : ℚ :=
  ((j.fills.filter fun f => decide (f.clientOrderId = some orderId) && !f.simulated).map
    fun f => f.quantity).sum

def Terminated (trace : List Event) (orderId : String) : Prop :=
  ∃ e ∈ trace, ∃ t, e.Logs (.terminal t) ∧ t.clientOrderId = orderId

/-- What the journal has observed of an order is nothing, or what the venue has reported. -/
def Backed (y : Sys) : Prop :=
  ∀ orderId, y.journal.observedQty orderId = 0 ∨
    ∃ r ∈ y.trace, r.Reports orderId (y.journal.observedQty orderId)

/-- **Conservation.**  The live fills of an order add up to what the journal has observed of it;
once the order is terminal it has executed exactly that, and nothing more is booked. -/
structure Conserved (horizon : ℚ) (y : Sys) : Prop where
  sum : ∀ orderId, y.journal.fillSum orderId = y.journal.observedQty orderId
  locked : ∀ orderId, Terminated y.trace orderId →
    SealedAt horizon y.trace orderId (y.journal.observedQty orderId)
  final : ∀ newer e older t, y.trace = newer ++ e :: older → e.Logs (.terminal t) →
    ∀ e' ∈ newer, e'.venue.executed t.clientOrderId = y.journal.observedQty t.clientOrderId ∧
      ∀ f, e'.Logs (.fill f) → f.clientOrderId = some t.clientOrderId → f.simulated = true

section Conservation

variable {horizon : ℚ} {law : List Event → Prop} {relied : Reliance} {y y' : Sys} {e : Event}
  {orderId : String}

theorem Journal.fillSum_fill (j : Journal) (f : JournalFill) (orderId : String) :
    (j.apply (.fill f)).fillSum orderId = j.fillSum orderId +
      if f.clientOrderId = some orderId ∧ f.simulated = false then f.quantity else 0 := by
  simp only [Journal.fillSum, Journal.apply_fill_fills, filter_append, map_append, sum_append]
  by_cases hid : f.clientOrderId = some orderId <;> cases hsim : f.simulated <;>
    simp [hid, hsim]

variable {f : JournalFill}

theorem Journal.observedQty_bookFill {j : Journal} {x : ℚ}
    (id : f.clientOrderId = some orderId) (cumulative : f.cumulativeExecutedQty = some x)
    (fresh : j.observedQty orderId < x) (id' : String) :
    (j.apply (.fill f)).observedQty id' = if id' = orderId then x else j.observedQty id' := by
  rw [Journal.observedQty_fill, Journal.cumulativeOf, id, cumulative]
  by_cases hid : id' = orderId
  · subst hid; simp [max_eq_right fresh.le]
  · have hne : ¬ (some orderId = some id') := fun h => hid (Option.some.inj h).symm
    simp [hid, hne]

theorem Journal.observedQty_simulatedFill {j : Journal}
    (cumulative : f.cumulativeExecutedQty = none) (orderId : String) :
    (j.apply (.fill f)).observedQty orderId = j.observedQty orderId := by
  rw [Journal.observedQty_fill, Journal.cumulativeOf, cumulative, ite_self]

theorem Record.observedQty_inert {record : Record} (h : record.inert = true) (j : Journal)
    (orderId : String) : (j.apply record).observedQty orderId = j.observedQty orderId := by
  cases record <;> first | rfl | cases h

/-- **Every move keeps the journal backed**, lawful or not. -/
theorem SysMove.backed (h : SysMove law relied y y') (hy : Backed y) : Backed y' := by
  have hsame : ∀ {y' : Sys} {e : Event}, y'.trace = e :: y.trace →
      (∀ id, y'.journal.observedQty id = y.journal.observedQty id) → Backed y' := by
    intro y' e htrace hobserved id
    rw [hobserved, htrace]
    exact (hy id).imp_right fun ⟨r, hr, hreport⟩ => ⟨r, mem_cons_of_mem e hr, hreport⟩
  cases h with
  | hear nothing unlogged | post call | submit logs | terminal logs => exact hsame rfl fun _ => rfl
  | note inert logs => exact hsame rfl (Record.observedQty_inert inert y.journal)
  | simulatedFill logs simulated cumulative =>
    exact hsame rfl (Journal.observedQty_simulatedFill cumulative)
  | @fill e r f orderId x logs id real cumulative fresh mem report =>
    intro id'
    show (y.journal.apply (.fill f)).observedQty id' = 0 ∨ ∃ r ∈ e :: y.trace,
      r.Reports id' ((y.journal.apply (.fill f)).observedQty id')
    rw [Journal.observedQty_bookFill id cumulative fresh]
    by_cases hid : id' = orderId
    · rw [if_pos hid, hid]; exact .inr ⟨r, mem_cons_of_mem e mem, report⟩
    · rw [if_neg hid]
      exact (hy id').imp_right fun ⟨r, hr, hreport⟩ => ⟨r, mem_cons_of_mem e hr, hreport⟩

theorem Closure.sealedAt {t : JournalTerminal} (h : Closure (FateLaw horizon) relied y t)
    (hbacked : Backed y) (hlaw : FateLaw horizon y.trace) (htimely : Timely horizon relied y.trace) :
    SealedAt horizon y.trace t.clientOrderId (y.journal.observedQty t.clientOrderId) := by
  -- an order that never executes was never booked either
  have hnever : (∀ later, FateLaw horizon (later ++ y.trace) → ∀ e ∈ later ++ y.trace,
      e.venue.executed t.clientOrderId = 0) →
      SealedAt horizon y.trace t.clientOrderId (y.journal.observedQty t.clientOrderId) := by
    intro hzero
    have hobserved : y.journal.observedQty t.clientOrderId = 0 := by
      rcases hbacked t.clientOrderId with hnone | ⟨r, hr, hreport⟩
      · exact hnone
      · rw [← hlaw.truthful r hr _ _ hreport]; exact hzero [] hlaw r hr
    rw [hobserved]; exact .of_never hzero
  cases h with
  | @closed r x mem report booked last =>
    have hx : x = y.journal.observedQty t.clientOrderId := by
      refine le_antisymm (booked hlaw) ?_
      rcases hbacked t.clientOrderId with hnone | ⟨r', hr', hreport⟩
      · rw [hnone, ← hlaw.truthful r mem _ _ report.reports]; exact hlaw.nonneg r mem _
      · exact hlaw.reported_le_closed mem report hr' hreport
    rw [← hx]; exact .of_closed mem report
  | @full p tag params mem call id booked last =>
    intro later hfuture e he
    have hbound : e.venue.executed t.clientOrderId ≤ params.quantity := by
      rw [← id]
      exact hfuture.bounded p (mem_append_right _ mem) tag params call e
        (mem_append_left _ he)
    refine le_antisymm (hbound.trans (booked hlaw)) ?_
    rcases hbacked t.clientOrderId with hnone | ⟨r, hr, hreport⟩
    · rw [hnone]; exact hfuture.nonneg e (mem_append_left _ he) _
    · rw [← hlaw.truthful r hr _ _ hreport]; exact hfuture.executed_le_later he hr
  | simulated mem call id reply =>
    refine hnever fun later hfuture => ?_
    rw [← id]; exact hfuture.simulated _ (mem_append_right _ mem) _ _ call reply
  | @refused e tag params exc last call reply classed =>
    have habout : e.call.isAbout t.clientOrderId = true := by simpa using find?_some last
    have hid : params.newClientOrderId = t.clientOrderId := by
      rw [call] at habout; exact of_decide_eq_true habout
    refine hnever fun later hfuture => ?_
    rw [← hid]
    exact hfuture.refused e (mem_append_right _ (mem_of_find?_eq_some last)) tag params exc
      call reply classed
  | @missed e newer pre split last misses submitted relies =>
    obtain ⟨s, hs, hsub⟩ := submitted
    have hlate := htimely newer e pre split _ misses relies s hs hsub
    refine hnever fun later hfuture => ?_
    exact hfuture.lateMiss (later ++ newer) e pre (by rw [split, append_assoc]) _ misses s hs hsub
      hlate
  | namedNotFound mem last reply status => exact absurd status (hlaw.statuses _ mem _ reply)

theorem Conserved.extend (hy : Conserved horizon y) (htrace : y'.trace = e :: y.trace)
    (hlaw : FateLaw horizon y'.trace) (hsum : ∀ orderId, y'.journal.fillSum orderId =
      y'.journal.observedQty orderId)
    (hobserved : ∀ orderId, Terminated y.trace orderId →
      y'.journal.observedQty orderId = y.journal.observedQty orderId)
    (hfill : ∀ f orderId, e.Logs (.fill f) → f.clientOrderId = some orderId →
      Terminated y.trace orderId → f.simulated = true)
    (hterminal : ∀ t, e.Logs (.terminal t) →
      SealedAt horizon y.trace t.clientOrderId (y'.journal.observedQty t.clientOrderId)) :
    Conserved horizon y' where
  sum := hsum
  locked := by
    rintro orderId ⟨e', he', t, hlogs, rfl⟩
    rw [htrace] at he' ⊢
    rcases mem_cons.mp he' with rfl | he'
    · exact (hterminal t hlogs).cons
    · have hterminated : Terminated y.trace t.clientOrderId := ⟨e', he', t, hlogs, rfl⟩
      rw [hobserved _ hterminated]; exact (hy.locked _ hterminated).cons
  final := by
    intro newer e₁ older t hsplit hlogs e' he'
    rw [htrace] at hsplit
    cases newer with
    | nil => cases he'
    | cons e₂ newer =>
      obtain ⟨rfl, hrest⟩ := List.cons.inj hsplit
      have hmem : e₁ ∈ y.trace := by rw [hrest]; simp
      have hterminated : Terminated y.trace t.clientOrderId := ⟨e₁, hmem, t, hlogs, rfl⟩
      rw [hobserved _ hterminated]
      rcases mem_cons.mp he' with rfl | he'
      · refine ⟨hy.locked _ hterminated [e'] (by rw [htrace] at hlaw; exact hlaw) e' mem_cons_self, ?_⟩
        exact fun f hf hid => hfill f _ hf hid hterminated
      · exact hy.final newer e₁ older t hrest hlogs e' he'

theorem Event.Logs.unique {record record' : Record} (h : e.Logs record) (h' : e.Logs record') : record = record' :=
  Call.append.inj (h.1.symm.trans h'.1)

section

variable (hy : Conserved horizon y)

include hy

theorem Conserved.unbooked (htrace : y'.trace = e :: y.trace) (hlaw : FateLaw horizon y'.trace)
    (hfills : y'.journal.fills = y.journal.fills)
    (hlegacy : y'.journal.observedLegacy = y.journal.observedLegacy)
    (hnone : ∀ f, ¬ e.Logs (.fill f))
    (hterminal : ∀ t, e.Logs (.terminal t) → SealedAt horizon y.trace t.clientOrderId
      (y.journal.observedQty t.clientOrderId))
    :
    Conserved horizon y' := by
  have hobserved : ∀ orderId, y'.journal.observedQty orderId = y.journal.observedQty orderId := by
    intro orderId
    rw [Journal.observedQty, Journal.observedQty, hfills, hlegacy]
  refine hy.extend htrace hlaw (fun orderId => ?_) (fun orderId _ => hobserved orderId)
    (fun f _ hf => absurd hf (hnone f)) (fun t ht => ?_)
  · rw [hobserved, Journal.fillSum, hfills]; exact hy.sum orderId
  · rw [hobserved]; exact hterminal t ht

theorem Conserved.booked {r : Event} {x : ℚ} (hlaw : FateLaw horizon (e :: y.trace))
    (logs : e.Logs (.fill f)) (id : f.clientOrderId = some orderId) (real : f.simulated = false)
    (cumulative : f.cumulativeExecutedQty = some x) (fresh : y.journal.observedQty orderId < x)
    (mem : r ∈ y.trace) (report : r.Reports orderId x)
    (qty : f.quantity = x - y.journal.observedQty orderId) :
    Conserved horizon (y.log e (.fill f)) := by
  -- a terminal order has executed no more than what was observed
  have hrunning : ¬ Terminated y.trace orderId := by
    intro hterminated
    have hat := hy.locked _ hterminated [e] hlaw e mem_cons_self
    have hle : r.venue.executed orderId ≤ e.venue.executed orderId := rel_of_pairwise_cons hlaw.monotone mem orderId
    rw [hat, hlaw.tail.truthful r mem orderId x report] at hle; exact absurd fresh (not_lt.mpr hle)
  have hobserved : ∀ id', (y.log e (.fill f)).journal.observedQty id'
      = if id' = orderId then x else y.journal.observedQty id' :=
    Journal.observedQty_bookFill id cumulative fresh
  refine hy.extend rfl hlaw (fun id' => ?_) (fun id' hterminated => ?_)
    (fun f' id' hf' hid' hterminated => ?_) (fun t ht => ?_)
  · rw [hobserved, Sys.log, Journal.fillSum_fill, id, hy.sum, real]
    by_cases hid : id' = orderId
    · subst hid
      rw [if_pos ⟨rfl, rfl⟩, if_pos rfl, qty]; ring
    · rw [if_neg (fun h => hid (Option.some.inj h.1).symm), if_neg hid, add_zero]
  · rw [hobserved, if_neg]
    rintro rfl; exact hrunning hterminated
  · obtain rfl := Record.fill.inj (logs.unique hf')
    obtain rfl := Option.some.inj (id.symm.trans hid'); exact absurd hterminated hrunning
  · cases logs.unique ht

theorem Conserved.simulatedFill (hlaw : FateLaw horizon (e :: y.trace)) (logs : e.Logs (.fill f))
    (simulated : f.simulated = true) (cumulative : f.cumulativeExecutedQty = none) :
    Conserved horizon (y.log e (.fill f)) := by
  have hobserved : ∀ id', (y.log e (.fill f)).journal.observedQty id' = y.journal.observedQty id' :=
    Journal.observedQty_simulatedFill cumulative
  refine hy.extend rfl hlaw (fun id' => ?_) (fun id' _ => hobserved id') (fun f' id' hf' _ _ => ?_)
    (fun t ht => ?_)
  · rw [hobserved, Sys.log, Journal.fillSum_fill, simulated, if_neg (by simp), add_zero]
    exact hy.sum id'
  · obtain rfl := Record.fill.inj (logs.unique hf'); exact simulated
  · cases logs.unique ht

end

/-- **Every move keeps conservation.** -/
theorem SysMove.conserved (h : SysMove (FateLaw horizon) relied y y') (hy : Conserved horizon y)
    (hbacked : Backed y) (hlaw : FateLaw horizon y'.trace) (htimely : Timely horizon relied y'.trace) :
    Conserved horizon y' := by
  have hsuffix : y.trace <:+ y'.trace := by
    obtain ⟨e, he⟩ := h.trace_cons
    rw [he]; exact suffix_cons _ _
  have hlaw₀ : FateLaw horizon y.trace := hlaw.of_suffix hsuffix
  cases h with
  | hear nothing unlogged =>
    exact hy.unbooked rfl hlaw rfl rfl (fun f => unlogged _) fun t ht => absurd ht (unlogged _)
  | post call =>
    exact hy.unbooked rfl hlaw rfl rfl (fun f => not_logs_of_newOrder call _) fun t ht =>
      absurd ht (not_logs_of_newOrder call _)
  | @note e record inert logs =>
    have hfields : (y.journal.apply record).fills = y.journal.fills ∧
        (y.journal.apply record).observedLegacy = y.journal.observedLegacy := by
      cases record <;> first | exact ⟨rfl, rfl⟩ | cases inert
    refine hy.unbooked rfl hlaw hfields.1 hfields.2 (fun f hf => ?_) fun t ht => ?_
    · obtain rfl := logs.unique hf; cases inert
    · obtain rfl := logs.unique ht; cases inert
  | submit logs =>
    refine hy.unbooked rfl hlaw rfl rfl (fun f hf => ?_) fun t ht => ?_
    · cases logs.unique hf
    · cases logs.unique ht
  | fill logs id real cumulative fresh mem report qty =>
    exact hy.booked hlaw logs id real cumulative fresh mem report (qty hlaw₀)
  | simulatedFill logs simulated cumulative => exact hy.simulatedFill hlaw logs simulated cumulative
  | @terminal e t logs closure =>
    refine hy.unbooked rfl hlaw rfl rfl (fun f hf => ?_) fun t' ht' => ?_
    · cases logs.unique hf
    · obtain rfl := Record.terminal.inj (logs.unique ht')
      exact closure.sealedAt hbacked hlaw₀ (htimely.of_suffix hsuffix)

end Conservation

/-! ## The horizon -/

def Clocked (trace : List Event) : Prop := trace.Pairwise fun newer older => older.time ≤ newer.time

def neverPlaced (status : String) : Bool := status = "NOT_PLACED" || status = orderNotFoundStatus

/-- **No early write-off**: where the last word on an order is a miss, it is journaled NOT_PLACED or
NOT_FOUND only once the horizon has passed since its submission was journaled. -/
def HorizonKept (horizon : ℚ) (trace : List Event) : Prop :=
  ∀ newer e older t m, trace = newer ++ e :: older → e.Logs (.terminal t) →
    neverPlaced t.status = true → lastAnswer older t.clientOrderId = some m →
    m.Misses t.clientOrderId → ∀ s ∈ older, s.Submits t.clientOrderId → horizon ≤ e.time - s.time

section Horizon

variable {horizon : ℚ} {law : List Event → Prop} {relied : Reliance} {y y' : Sys} {e m : Event}

theorem HorizonKept.cons {trace : List Event} (h : HorizonKept horizon trace)
    (hnew : ∀ t m, e.Logs (.terminal t) → neverPlaced t.status = true →
      lastAnswer trace t.clientOrderId = some m → m.Misses t.clientOrderId →
      ∀ s ∈ trace, s.Submits t.clientOrderId → horizon ≤ e.time - s.time) :
    HorizonKept horizon (e :: trace) := by
  intro newer e₁ older t m hsplit hlogs
  cases newer with
  | nil =>
    obtain ⟨rfl, rfl⟩ := List.cons.inj hsplit; exact hnew t m hlogs
  | cons e₂ newer => exact h newer e₁ older t m (List.cons.inj hsplit).2 hlogs

theorem Event.Misses.not_order {orderId : String} {payload : OrderPayload} (h : m.Misses orderId) :
    m.reply ≠ .order payload := by
  obtain ⟨symbol, status, -, hreply⟩ := h
  rw [hreply]; nofun

theorem Closure.late {t : JournalTerminal} (h : Closure law relied y t) (hids : IdsKept y)
    (htimely : Timely horizon relied y.trace) (hclock : Clocked (e :: y.trace))
    (hstatus : neverPlaced t.status = true) (hlast : lastAnswer y.trace t.clientOrderId = some m)
    (hmiss : m.Misses t.clientOrderId) : ∀ s ∈ y.trace, s.Submits t.clientOrderId → horizon ≤ e.time - s.time := by
  have hreported : ¬ y.LastReported t.clientOrderId := by
    rintro ⟨r, payload, hr, hreply⟩
    obtain rfl := Option.some.inj (hr.symm.trans hlast); exact hmiss.not_order hreply
  cases h with
  | closed _ _ _ last | full _ _ _ _ last => exact absurd last hreported
  | simulated _ _ _ _ placed =>
    simp only [neverPlaced, Bool.or_eq_true, decide_eq_true_eq] at hstatus
    exact absurd hstatus (not_or.mpr placed)
  | refused last call =>
    obtain rfl := Option.some.inj (last.symm.trans hlast)
    exact absurd ⟨_, _, call, rfl⟩ hmiss.postsNothing.not_postsOrder
  | namedNotFound _ last reply => exact absurd ⟨_, _, last, reply⟩ hreported
  | @missed m' newer pre split last misses submitted relies =>
    intro s hs hsub
    -- the submission is the one before the miss: there is no other
    have hpre : s ∈ pre := by
      obtain ⟨s', hs', hsub'⟩ := submitted
      have hdistinct := hids.distinct
      rw [split] at hs hdistinct
      obtain ⟨-, htail, hcross⟩ := pairwise_append.mp hdistinct
      rcases mem_append.mp hs with hs | hs
      · exact absurd hsub' (hcross s hs s' (mem_cons_of_mem _ hs') _ hsub)
      · rcases mem_cons.mp hs with rfl | hs
        · exact absurd hsub' (rel_of_pairwise_cons htail hs' _ hsub)
        · exact hs
    have hlate := htimely newer m' pre split _ misses relies s hpre hsub
    have hmem : m' ∈ y.trace := by rw [split]; simp
    have htime : m'.time ≤ e.time := rel_of_pairwise_cons hclock hmem; linarith

/-- **Every move keeps the horizon.** -/
theorem SysMove.horizonKept (h : SysMove law relied y y') (hy : HorizonKept horizon y.trace)
    (hids : IdsKept y) (htimely : Timely horizon relied y'.trace) (hclock : Clocked y'.trace) :
    HorizonKept horizon y'.trace := by
  have hother : ∀ {e : Event} {record : Record}, e.Logs record → (∀ t, record ≠ .terminal t) →
      HorizonKept horizon (e :: y.trace) := by
    intro e record hlogs hne; exact hy.cons fun t m ht => absurd (hlogs.unique ht) (hne t)
  cases h with
  | hear nothing unlogged => exact hy.cons fun t m ht => absurd ht (unlogged _)
  | post call => exact hy.cons fun t m ht => absurd ht (not_logs_of_newOrder call _)
  | note inert logs =>
    refine hother logs ?_
    rintro t rfl; cases inert
  | submit logs | fill logs | simulatedFill logs => exact hother logs (by rintro t ⟨⟩)
  | @terminal e t logs closure =>
    refine hy.cons fun t' m ht' hstatus hlast hmiss => ?_
    obtain rfl := Record.terminal.inj (logs.unique ht')
    exact closure.late hids (htimely.of_suffix (suffix_cons _ _)) hclock hstatus hlast hmiss

end Horizon

end CryptoPilot.Live
