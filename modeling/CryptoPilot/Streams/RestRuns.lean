/- # RestRuns — what runs of the normalizer make of the REST samples.

Within a cycle the first sample of a label (stream, grid) is derived, unless the window remembers
one that is no later, and every other is dropped as its twin. -/
import CryptoPilot.Streams.NormalizerRuns

namespace CryptoPilot.Streams

open CryptoPilot.Lib CryptoPilot.Capture List Option

variable {R : Runtime} {cfg : Config}

/-! # Samples -/

def IsSample (R : Runtime) (cfg : Config) (r : Record) (label : Label) (rows : List Row) : Prop :=
  labelOf r = some label ∧ sampleOf R cfg label r = .ok (some rows)

variable {r : Record} {rows : List Row} {stream : Stream} {frames : List (Stream × List Row)}

theorem IsSample.label_eq {label label' : Label} {rows rows' : List Row} (h : IsSample R cfg r label rows)
    (h' : IsSample R cfg r label' rows') : label = label' ∧ rows = rows' := by
  obtain rfl : label = label' := Option.some.inj (h.1.symm.trans h'.1)
  have hrows := h.2.symm.trans h'.2; exact ⟨rfl, by simpa using hrows⟩

section

variable {label : Label} (h : IsSample R cfg r label rows)

include h

theorem IsSample.response :
    ∃ gridNs, R.gridNs label.2 = some gridNs ∧ Response gridNs (recvOf r) rows := by
  have hsample := h.2
  unfold sampleOf at hsample
  split at hsample
  · cases hsample
  · next gridNs hgrid =>
    refine ⟨gridNs, hgrid, ?_⟩
    unfold parseRestRecord at hsample
    split at hsample
    · split at hsample
      · cases hsample
      · cases hsample
      · split at hsample
        · exact parsePayload_response hsample
        · cases hsample
    · cases hsample

theorem IsSample.rest_stream :
    label.1 = .bookTicker ∨ label.1 = .premiumIndex := by
  have hlabel := h.1
  unfold labelOf at hlabel
  split at hlabel
  · cases hlabel; exact Or.inl rfl
  · cases hlabel; exact Or.inr rfl
  · cases hlabel

end

/-! # One cycle -/

/-- The state of `_derive_rest` after the records `pre`, from a window without staged marks. -/
structure RestRun (R : Runtime) (cfg : Config) (nowNs : ℤ) (window : Window) (pre : List Record) (s : RestState) :
    Prop where
  seen : (s.window.rest.prune (nowNs - cfg.restWindowNs)).seen = window.rest.seen.prune (nowNs - cfg.restWindowNs)
  staged : ∀ label, label ∉ s.done → s.window.rest.staged.get label = none
  marks : ∀ e ∈ s.window.rest.staged, ∃ r ∈ pre, ∃ rows, IsSample R cfg r e.1 rows ∧ recvOf r = e.2 ∧
    (e.1.1, rows) ∈ s.frames ∧ ∀ r' ∈ pre, ∀ rows, IsSample R cfg r' e.1 rows → recvOf r ≤ recvOf r'
  frames : ∀ f ∈ s.frames, ∃ r ∈ pre, ∃ label, IsSample R cfg r label f.2 ∧ label.1 = f.1 ∧
    ∀ r' ∈ pre, ∀ rows, IsSample R cfg r' label rows → recvOf r ≤ recvOf r'
  done : ∀ label ∈ s.done, ∃ r ∈ pre, ∃ rows, IsSample R cfg r label rows ∧ (label.1, rows) ∈ s.frames ∧
    ∀ r' ∈ pre, ∀ rows, IsSample R cfg r' label rows → recvOf r ≤ recvOf r'
  covered : ∀ r ∈ pre, ∀ label rows, IsSample R cfg r label rows → label ∈ s.done ∨
    ∃ n ≤ recvOf r, (window.rest.seen.prune (nowNs - cfg.restWindowNs)).get label = some n

section Cycle

variable {nowNs : ℤ} {window : Window} {pre : List Record} {s : RestState} {a : Record}

section

variable (h : RestRun R cfg nowNs window pre s)

include h

section

variable (hsorted : ∀ r ∈ pre, recvOf r ≤ recvOf a)

include hsorted

theorem RestRun.skip {w : Window}
    (hseen : (w.rest.prune (nowNs - cfg.restWindowNs)).seen = window.rest.seen.prune (nowNs - cfg.restWindowNs))
    (hstaged : w.rest.staged = s.window.rest.staged)
    (hcovered : ∀ label rows, IsSample R cfg a label rows → label ∈ s.done ∨
      ∃ n ≤ recvOf a, (window.rest.seen.prune (nowNs - cfg.restWindowNs)).get label = some n)
    :
    RestRun R cfg nowNs window (pre ++ [a]) { s with window := w } := by
  have hleast : ∀ r ∈ pre, ∀ label, (∀ r' ∈ pre, ∀ rows, IsSample R cfg r' label rows → recvOf r ≤ recvOf r') →
      ∀ r' ∈ pre ++ [a], ∀ rows, IsSample R cfg r' label rows → recvOf r ≤ recvOf r' := by
    intro r hr label hmin r' hr' rows hsample
    rcases mem_append.mp hr' with hr' | hr'
    · exact hmin r' hr' rows hsample
    · rw [mem_singleton.mp hr']; exact hsorted r hr
  refine ⟨hseen, ?_, ?_, ?_, ?_, ?_⟩
  · intro label hlabel
    rw [hstaged]; exact h.staged label hlabel
  · intro e he
    rw [hstaged] at he
    obtain ⟨r, hr, rows, hs, hrecv, hframe, hmin⟩ := h.marks e he
    exact ⟨r, mem_append_left _ hr, rows, hs, hrecv, hframe, hleast r hr e.1 hmin⟩
  · intro f hf
    obtain ⟨r, hr, label, hsample, hstream, hmin⟩ := h.frames f hf
    exact ⟨r, mem_append_left _ hr, label, hsample, hstream, hleast r hr label hmin⟩
  · intro label hlabel
    obtain ⟨r, hr, rows, hsample, hframe, hmin⟩ := h.done label hlabel
    exact ⟨r, mem_append_left _ hr, rows, hsample, hframe, hleast r hr label hmin⟩
  · intro r hr label rows hsample
    rcases mem_append.mp hr with hr | hr
    · exact h.covered r hr label rows hsample
    · rw [mem_singleton.mp hr] at hsample ⊢; exact hcovered label rows hsample

theorem RestRun.take {label : Label} {rows : List Row} (hsample : IsSample R cfg a label rows)
    (hdone : label ∉ s.done)
    (hcheck : (s.window.rest.prune (nowNs - cfg.restWindowNs)).check label (recvOf a) = false) :
    RestRun R cfg nowNs window (pre ++ [a])
      { window := { s.window with rest := (s.window.rest.prune (nowNs - cfg.restWindowNs)).stage label (recvOf a) }
        done := label :: s.done
        frames := s.frames ++ [(label.1, rows)] } := by
  -- what the window remembers of the label is later than this record
  have hlater : ∀ n, (window.rest.seen.prune (nowNs - cfg.restWindowNs)).get label = some n → recvOf a < n := by
    intro n hn
    by_contra hle
    have hmark : (s.window.rest.prune (nowNs - cfg.restWindowNs)).mark label = some n := by
      rw [Memory.mark, Memory.staged_prune, h.staged label hdone, none_or, h.seen, hn]
    rw [Memory.check, hmark] at hcheck
    simp only [any_some, decide_eq_false_iff_not] at hcheck; exact hcheck (not_lt.mp hle)
  have hfirst : ∀ r' ∈ pre ++ [a], ∀ rows', IsSample R cfg r' label rows' → recvOf a ≤ recvOf r' := by
    intro r' hr' rows' hsample'
    rcases mem_append.mp hr' with hr' | hr'
    · rcases h.covered r' hr' label rows' hsample' with hin | ⟨n, hle, hn⟩
      · exact absurd hin hdone
      · exact ((hlater n hn).le).trans hle
    · rw [mem_singleton.mp hr']
  have hleast : ∀ r ∈ pre, ∀ l, (∀ r' ∈ pre, ∀ rows, IsSample R cfg r' l rows → recvOf r ≤ recvOf r') →
      ∀ r' ∈ pre ++ [a], ∀ rows, IsSample R cfg r' l rows → recvOf r ≤ recvOf r' := by
    intro r hr l hmin r' hr' rows' hsample'
    rcases mem_append.mp hr' with hr' | hr'
    · exact hmin r' hr' rows' hsample'
    · rw [mem_singleton.mp hr']; exact hsorted r hr
  have hself : a ∈ pre ++ [a] := mem_append_right _ (mem_singleton_self a)
  refine ⟨?_, ?_, ?_, ?_, ?_, ?_⟩
  · rw [← h.seen]; simp
  · intro l hl
    rw [mem_cons, not_or] at hl
    show Marks.get (Marks.set s.window.rest.staged label (recvOf a)) l = none
    rw [Marks.get_set_of_ne hl.1]; exact h.staged l hl.2
  · intro e he
    rcases Marks.mem_of_mem_set he with he | rfl
    · obtain ⟨r, hr, rows', hs, hrecv, hframe, hmin⟩ := h.marks e he
      exact ⟨r, mem_append_left _ hr, rows', hs, hrecv, mem_append_left _ hframe, hleast r hr e.1 hmin⟩
    · exact ⟨a, hself, rows, hsample, rfl, mem_append_right _ (mem_singleton_self _), hfirst⟩
  · intro f hf
    rcases mem_append.mp hf with hf | hf
    · obtain ⟨r, hr, l, hs, hstream, hmin⟩ := h.frames f hf
      exact ⟨r, mem_append_left _ hr, l, hs, hstream, hleast r hr l hmin⟩
    · rw [mem_singleton.mp hf]; exact ⟨a, hself, label, hsample, rfl, hfirst⟩
  · intro l hl
    rcases mem_cons.mp hl with rfl | hl
    · exact ⟨a, hself, rows, hsample, mem_append_right _ (mem_singleton_self _), hfirst⟩
    · obtain ⟨r, hr, rows', hs, hframe, hmin⟩ := h.done l hl
      exact ⟨r, mem_append_left _ hr, rows', hs, mem_append_left _ hframe, hleast r hr l hmin⟩
  · intro r hr l rows' hs
    rcases mem_append.mp hr with hr | hr
    · rcases h.covered r hr l rows' hs with hin | hseen
      · exact Or.inl (mem_cons_of_mem _ hin)
      · exact Or.inr hseen
    · rw [mem_singleton.mp hr] at hs
      obtain ⟨rfl, -⟩ := hs.label_eq hsample; exact Or.inl mem_cons_self

theorem RestRun.step {s' : RestState} (hstep : restStep R cfg nowNs s a = (s', none)) :
    RestRun R cfg nowNs window (pre ++ [a]) s' := by
  unfold restStep at hstep
  split at hstep
  · next hlabel =>
    cases hstep
    refine h.skip hsorted h.seen rfl ?_
    intro label rows hsample; exact absurd (hlabel.symm.trans hsample.1) (by simp)
  · next label hlabel =>
    split at hstep
    · next hdone =>
      cases hstep
      refine h.skip hsorted h.seen rfl ?_
      intro l rows hsample
      obtain rfl : label = l := Option.some.inj (hlabel.symm.trans hsample.1); exact Or.inl hdone
    · next hdone =>
      have hseen : ((pruneRest cfg nowNs s.window).rest.prune (nowNs - cfg.restWindowNs)).seen =
          window.rest.seen.prune (nowNs - cfg.restWindowNs) := by
        rw [← h.seen]; simp [pruneRest]
      simp only at hstep
      split at hstep
      · next hcheck =>
        cases hstep
        refine h.skip hsorted hseen rfl ?_
        intro l rows hsample
        obtain rfl : label = l := Option.some.inj (hlabel.symm.trans hsample.1)
        right
        cases hmark : (pruneRest cfg nowNs s.window).rest.mark label with
        | none => simp [Memory.check, hmark] at hcheck
        | some n =>
          refine ⟨n, by simpa [Memory.check, hmark] using hcheck, ?_⟩
          rw [Memory.mark, show (pruneRest cfg nowNs s.window).rest.staged = s.window.rest.staged from rfl,
            h.staged label hdone] at hmark
          rw [← h.seen]; exact hmark
      · next hcheck =>
        split at hstep
        · cases hstep
        · next hnone =>
          cases hstep
          refine h.skip hsorted hseen rfl ?_
          intro l rows hsample
          obtain rfl : label = l := Option.some.inj (hlabel.symm.trans hsample.1)
          exact absurd (hnone.symm.trans hsample.2) (by simp)
        · next rows hrows =>
          cases hstep; exact h.take hsorted ⟨hlabel, hrows⟩ hdone (eq_false_of_ne_true hcheck)

end

end

/-- **`_derive_rest` on records in the order of their receipts.** -/
theorem deriveRest_run {records : List Record} {rest : RestState}
    (hsorted : records.Pairwise (fun a b => recvOf a ≤ recvOf b)) (hstaged : window.rest.staged = [])
    (h : deriveRest R cfg nowNs window records = (rest, none)) : RestRun R cfg nowNs window records rest := by
  refine runLoop_invariant ?_ (nil_append records).symm ?_ h
  · intro pre a post s s' hl hinv hstep
    refine hinv.step ?_ hstep
    intro r hr
    rw [hl, pairwise_append] at hsorted; exact hsorted.2.2 r hr a mem_cons_self
  · refine ⟨by simp [Memory.prune], ?_, ?_, ?_, ?_, ?_⟩
    · intro label _; simp [hstaged, Marks.get]
    · intro e he
      rw [hstaged] at he; cases he
    · exact fun f hf => (not_mem_nil hf).elim
    · exact fun l hl => (not_mem_nil hl).elim
    · exact fun r hr => (not_mem_nil hr).elim

end Cycle

/-! # Runs -/

def Written (log : List Write) (stream : Stream) (rows : List Row) : Prop :=
  ∀ row ∈ rows, row ∈ logged (snapshotBatch stream row.hour) log

theorem Written.append {log : List Write} (h : Written log stream rows)
    (writes : List Write) : Written (log ++ writes) stream rows := by
  intro row hrow
  obtain ⟨w, hw, hbatch⟩ := h row hrow; exact ⟨w, mem_append_left _ hw, hbatch⟩

theorem written_writesOf (ws : WsState)
    (hframe : (stream, rows) ∈ frames) (hrest : stream = .bookTicker ∨ stream = .premiumIndex) :
    Written (writesOf frames ws) stream rows := by
  intro row hrow
  have hmem : row ∈ rowsOf frames stream := mem_flatMap.mpr ⟨(stream, rows), mem_filter.mpr ⟨hframe, by simp⟩, hrow⟩
  refine ⟨.snapshot stream row.hour ((rowsOf frames stream).filter (fun r => r.hour = row.hour)), ?_,
    (rowsOf frames stream).filter (fun r => r.hour = row.hour), by simp [snapshotBatch], ?_⟩
  · have hwrite : Write.snapshot stream row.hour ((rowsOf frames stream).filter (fun r => r.hour = row.hour)) ∈
        snapshotWrites frames stream :=
      mem_map.mpr ⟨(row.hour, _), mem_hourGroups.mpr ⟨⟨row, hmem, rfl⟩, rfl⟩, rfl⟩
    simp only [writesOf, mem_append]
    rcases hrest with rfl | rfl
    · exact Or.inl (Or.inl (Or.inl (Or.inl hwrite)))
    · exact Or.inl (Or.inl (Or.inl (Or.inr hwrite)))
  · exact mem_filter.mpr ⟨hmem, by simp⟩

theorem of_mem_writesOf {ws : WsState} {hour : ℤ}
    {chunk : List Row} (h : Write.snapshot stream hour chunk ∈ writesOf frames ws) {row : Row}
    (hrow : row ∈ chunk) :
    row.hour = hour ∧ ∃ rows, (stream, rows) ∈ frames ∧ row ∈ rows := by
  have hmem : ∀ stream', Write.snapshot stream hour chunk ∈ snapshotWrites frames stream' →
      row.hour = hour ∧ ∃ rows, (stream, rows) ∈ frames ∧ row ∈ rows := by
    intro stream' h'
    obtain ⟨g, hg, heq⟩ := mem_map.mp h'
    cases heq
    obtain ⟨-, hchunk⟩ := mem_hourGroups.mp hg
    rw [hchunk] at hrow
    obtain ⟨hrow, hhour⟩ := mem_filter.mp hrow
    obtain ⟨f, hf, hrow⟩ := mem_flatMap.mp hrow
    obtain ⟨hf, hstream⟩ := mem_filter.mp hf
    refine ⟨by simpa using hhour, f.2, ?_, hrow⟩
    rw [← of_decide_eq_true hstream]; exact hf
  simp only [writesOf, mem_append] at h
  rcases h with (((h | h) | h) | h) | h
  · exact hmem _ h
  · exact hmem _ h
  all_goals obtain ⟨g, -, heq⟩ := mem_map.mp h; cases heq

section Runs

variable (cfg) (J : Journal R.toCodec)

def MemberFirst (r : Record) (label : Label) : Prop :=
  ∃ f ∈ J.files, ∃ m ∈ f.2, r ∈ m.records ∧ ∀ r' ∈ m.records, ∀ rows, IsSample R cfg r' label rows →
    recvOf r ≤ recvOf r'

/-- A sample as early as the record, of the same label, was written in full. -/
def Settled (log : List Write) (r : Record) : Prop :=
  ∀ label rows, IsSample R cfg r label rows → ∃ r' rows', MemberFirst cfg J r' label ∧
    IsSample R cfg r' label rows' ∧
    recvOf r' ≤ recvOf r ∧ Written log label.1 rows'

def RestMarked (log : List Write) (w : Window) : Prop :=
  w.rest.All (fun label n => ∃ r rows, MemberFirst cfg J r label ∧ IsSample R cfg r label rows ∧ recvOf r = n ∧
    Written log label.1 rows)

def FromSamples : Write → Prop
  | .snapshot stream hour chunk => ∀ row ∈ chunk, row.hour = hour ∧ ∃ r label rows, IsSample R cfg r label rows ∧
      label.1 = stream ∧ row ∈ rows ∧ MemberFirst cfg J r label
  | _ => True

def Within (v : View R.toCodec) : Prop := ∀ f ∈ J.files, v.count f.1 ≤ f.2.length

variable {cfg J}

theorem MemberFirst.mem_records {r : Record} {label : Label} (h : MemberFirst cfg J r label) : r ∈ J.records := by
  obtain ⟨f, hf, m, hm, hr, -⟩ := h; exact ⟨f, hf, m, hm, hr⟩

theorem Settled.append {log : List Write} {r : Record} (h : Settled cfg J log r) (writes : List Write) :
    Settled cfg J (log ++ writes) r := by
  intro label rows hsample
  obtain ⟨r', rows', hfirst, hs, hle, hwritten⟩ := h label rows hsample
  exact ⟨r', rows', hfirst, hs, hle, hwritten.append writes⟩

theorem members_eq {f : SegmentPath × List Member} (hf : f ∈ J.files) : State.members J f.1 = f.2 := by
  have hinj : ∀ f' ∈ J.files, f'.1 = f.1 → f' = f := by
    intro f' hf' heq
    by_contra hne
    have hsymm : Std.Symm (fun a b : SegmentPath × List Member => a.1 ≠ b.1) := ⟨fun _ _ h => h.symm⟩
    have hpairwise : J.files.Pairwise (fun a b => a.1 ≠ b.1) := J.listed.imp ne_of_listing
    exact hpairwise.forall hf' hf hne heq
  unfold State.members
  cases hfind : J.files.find? (fun f' => f'.1 = f.1) with
  | none =>
    have := find?_eq_none.mp hfind f hf; simp at this
  | some f' =>
    have hmem := mem_of_find?_eq_some hfind
    have hpath : f'.1 = f.1 := by simpa using find?_some hfind
    rw [hinj f' hmem hpath]; rfl

theorem within_step (s : State R.toCodec) (a : Action R.toCodec) (h : Within J s.view) :
    Within J (State.step cfg J s a).view := by
  cases a with
  | append p =>
    rw [State.step]
    split
    · next hlt =>
      intro f hf
      show Function.update s.view.count p (s.view.count p + 1) f.1 ≤ f.2.length
      by_cases hp : f.1 = p
      · rw [hp, Function.update_self]
        rw [← hp, members_eq hf, hp] at hlt; exact hlt
      · rw [Function.update_of_ne hp]; exact h f hf
    · exact h
  | tear p tail => exact h
  | cycle budget nowNs fate =>
    show Within J (State.cycle cfg J s budget nowNs fate).view
    unfold State.cycle
    split <;> exact h
  | restart => exact h

theorem rest_returned {v : View R.toCodec} {log : List Write} {c : Checkpoint} {w left : Window}
    {budget : ℕ} {nowNs : ℤ}
    {plan : Plan} (hgood : Accounted J (Settled cfg J) v log c) (hmarked : RestMarked cfg J log w)
    (h : derive R cfg (J.tree v) budget nowNs c w = (left, .ok plan)) :
    (∀ x ∈ plan.writes, FromSamples cfg J x) ∧ Accounted J (Settled cfg J) v (log ++ plan.writes) plan.checkpoint ∧
      RestMarked cfg J (log ++ plan.writes) plan.window := by
  obtain ⟨g, rest, ws, hd⟩ := derived_of_derive h
  have hrun := deriveRest_run pairwise_recordsOf rfl hd.samples
  have hfirst : ∀ r ∈ recordsOf R g, ∀ label,
      (∀ r' ∈ recordsOf R g, ∀ rows, IsSample R cfg r' label rows → recvOf r ≤ recvOf r') →
        MemberFirst cfg J r label := by
    intro r hr label hmin
    obtain ⟨f, hf, m, hm, hrm, hall⟩ := exists_member_of_mem_recordsOf hgood hd.gathers hr
    exact ⟨f, hf, m, hm, hrm, fun r' hr' rows' hs' => hmin r' (hall r' hr') rows' hs'⟩
  have hwritten : ∀ {stream rows r label}, (stream, rows) ∈ rest.frames → IsSample R cfg r label rows →
      label.1 = stream → Written (log ++ plan.writes) stream rows := by
    intro stream rows r label hframe hsample hstream
    have hrest := hsample.rest_stream
    rw [hstream] at hrest
    intro row hrow
    rw [hd.writes]
    obtain ⟨x, hx, hbatch⟩ := written_writesOf ws hframe hrest row hrow
    exact ⟨x, mem_append_right _ hx, hbatch⟩
  refine ⟨?_, ?_, ?_⟩
  · intro x hx
    rw [hd.writes] at hx
    cases x with
    | snapshot stream hour chunk =>
      intro row hrow
      obtain ⟨hhour, rows, hframe, hrow⟩ := of_mem_writesOf hx hrow
      obtain ⟨r, hr, label, hsample, hstream, hmin⟩ := hrun.frames _ hframe
      exact ⟨hhour, r, label, rows, hsample, hstream, hrow, hfirst r hr label hmin⟩
    | liquidation _ _ | coverage _ => trivial
  · rw [hd.checkpoint]
    refine hgood.advance hd.gathers _ (fun r hr => hr.append _) ?_
    intro r hr label rows hsample
    rcases hrun.covered r hr label rows hsample with hdone | ⟨n, hle, hseen⟩
    · obtain ⟨r', hr', rows', hs', hframe, hmin⟩ := hrun.done label hdone
      exact ⟨r', rows', hfirst r' hr' label hmin, hs', hmin r hr rows hsample, hwritten hframe hs' rfl⟩
    · obtain ⟨r', rows', hfirst', hs', hrecv, hw'⟩ :=
        hmarked _ (Or.inl (Marks.mem_of_mem_prune (Marks.mem_of_get hseen)))
      exact ⟨r', rows', hfirst', hs', hrecv ▸ hle, hw'.append _⟩
  · rw [hd.window]
    refine Memory.All.commit ?_
    have hws := deriveWs_rest R cfg nowNs rest.window (restoreTrackers c) (recordsOf R g)
    have hseen := deriveRest_seen R cfg nowNs w.discard (recordsOf R g)
    rw [hd.events] at hws
    rw [hd.samples] at hseen
    rw [hws]
    rintro e (he | he)
    · obtain ⟨r, rows, hfirst', hs, hrecv, hw'⟩ := hmarked e (Or.inl (hseen e he))
      exact ⟨r, rows, hfirst', hs, hrecv, hw'.append _⟩
    · obtain ⟨r, hr, rows, hs, hrecv, hframe, hmin⟩ := hrun.marks e he
      exact ⟨r, rows, hfirst r hr e.1 hmin, hs, hrecv, hwritten hframe hs rfl⟩

variable (cfg J)

theorem restRules : State.Rules cfg J (fun _ _ => True) (Within J) (Accounted J (Settled cfg J))
    (fun _ log w => RestMarked cfg J log w) (FromSamples cfg J) where
  shown_init := fun _ _ => Nat.zero_le _
  shown_step s a _ h := within_step s a h
  good_init := accounted_empty (fun _ _ => Nat.zero_le _)
  good_view _ _ _ _ hshown hgrows h := h.grow hgrows hshown
  good_log _ _ _ _ _ h := h.mono (fun _ hr => hr.append _)
  marked_empty _ _ := Memory.all_empty
  marked_log _ _ _ _ h := h.imp (fun _ _ ⟨r, rows, hfirst, hs, hrecv, hw⟩ =>
    ⟨r, rows, hfirst, hs, hrecv, hw.append _⟩)
  raised c _ _ tree budget nowNs h := derive_left_rest h tree budget nowNs c
  returned _ _ _ _ _ _ _ _ hgood hmarked _ h := rest_returned hgood hmarked h

end Runs

end CryptoPilot.Streams
