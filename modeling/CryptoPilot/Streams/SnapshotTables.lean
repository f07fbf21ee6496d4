/- # SnapshotTables — the snapshot tables of different schedules.

With receipts that differ in milliseconds a table holds the earliest rows of all that was written to
it.  Every schedule that consumes the journal writes the first sample of each label, and none writes
a sample that is not the first in its member; both bounds are reached. -/
import CryptoPilot.Streams.KnownTexts
import CryptoPilot.Streams.RestRuns

namespace CryptoPilot.Streams

open CryptoPilot.Lib CryptoPilot.Capture List

variable {R : Runtime} (cfg : Config) (J : Journal R.toCodec)

/-! # Tables -/

def table {C : Codec} (s : State C) (stream : Stream) :
    Set Row := {row | ∃ hour, row ∈ s.lake.snapshots stream hour}

def writtenRows (log : List Write) (stream : Stream) : Set Row :=
  {row | row ∈ logged (snapshotBatch stream row.hour) log}

def DistinctReceipts : Prop :=
  ∀ r ∈ J.records, ∀ r' ∈ J.records, ∀ label label' rows rows', IsSample R cfg r label rows →
    IsSample R cfg r' label' rows' → recvOf r / 10 ^ 6 = recvOf r' / 10 ^ 6 → r = r'

def ConsumedMember {C : Codec} (s : State C) (f : SegmentPath × List Member) (k : ℕ) : Prop :=
  ∃ c ∈ s.returned, offset f.2 (k + 1) ≤ c.files f.1

def ConsumesAll {C : Codec} (J : Journal C) (s : State C) : Prop :=
  ∀ f ∈ J.files, ∀ k < f.2.length, ConsumedMember s f k

variable {cfg J}

section Tables

variable {s : State R.toCodec} {log : List Write} {stream : Stream} {row : Row}

theorem offset_lt_offset {C : Codec} {ms : List Member} (hvalid : ∀ m ∈ ms, m.Valid C) {j k : ℕ} (hjk : j < k)
    (hk : j < ms.length) : offset ms j < offset ms k := by
  have hstep : offset ms j < offset ms (j + 1) := by
    have hget : ms.take (j + 1) = ms.take j ++ [ms[j]] := by simp
    have hpos : 0 < (ms[j]).bytes.length := length_pos_iff.mpr (bytes_ne_nil (hvalid _ (getElem_mem hk)))
    simp only [offset, hget, bytesOf_append, bytesOf_cons, bytesOf_nil, append_nil, length_append]
    omega
  exact hstep.trans_le (offset_le_offset ms hjk)

theorem mem_take_of_consumed {v : View R.toCodec} {pos cursor : SegmentPath → ℕ} (hat : J.At v pos cursor)
    {f : SegmentPath × List Member} (hf : f ∈ J.files) {k : ℕ} (hk : k < f.2.length)
    (hconsumed : offset f.2 (k + 1) ≤ cursor f.1) : f.2[k] ∈ f.2.take (pos f.1) := by
  rw [hat.cursor f hf] at hconsumed
  have hlt : k < pos f.1 := by
    by_contra hge
    have hlt := offset_lt_offset (J.valid f hf) (Nat.lt_succ_of_le (not_lt.mp hge))
      (show pos f.1 < f.2.length by omega)
    exact absurd hconsumed (not_le.mpr hlt)
  exact mem_take_iff_getElem.mpr ⟨k, by omega, rfl⟩

variable (cfg J) in
theorem rest_holds (actions : List (Action R.toCodec)) :
    State.Holds (Within J) (Accounted J (Settled cfg J)) (fun _ log w => RestMarked cfg J log w) (FromSamples cfg J)
      (State.run cfg J actions) :=
  (restRules cfg J).run (fun _ _ _ _ => trivial)

section

variable {hour : ℤ} (hok : ∀ w ∈ log, FromSamples cfg J w)
  (h : row ∈ logged (snapshotBatch stream hour) log)

include hok h

theorem exists_sample_of_mem : row.hour = hour ∧ ∃ r label rows, IsSample R cfg r label rows ∧
      label.1 = stream ∧ row ∈ rows ∧ MemberFirst cfg J r label := by
  obtain ⟨w, hw, b, hb, hrow⟩ := h
  have hfrom := hok w hw
  cases w with
  | snapshot stream' hour' chunk =>
    obtain ⟨⟨rfl, rfl⟩, heq⟩ := (Option.ite_none_right_eq_some).mp hb
    cases heq; exact hfrom row hrow
  | liquidation _ _ | coverage _ => cases hb

theorem enforceDtypes_of_mem : row.enforceDtypes = row := by
  obtain ⟨-, r, label, rows, hs, -, hmem, -⟩ := exists_sample_of_mem hok h
  obtain ⟨gridNs, -, hresp⟩ := hs.response; exact hresp.dtypes row hmem

end

theorem exists_table_row_le (hok : ∀ w ∈ s.log, FromSamples cfg J w) (h : row ∈ writtenRows s.log stream) :
    ∃ row' ∈ table s stream, row'.key = row.key ∧ row'.fetchedAtMs ≤ row.fetchedAtMs := by
  obtain ⟨row', hmem, hrow'⟩ := exists_snapshot_le (fun _ h' => enforceDtypes_of_mem hok h') h
  exact ⟨row', ⟨row.hour, hmem⟩, hrow'⟩

theorem distinct_of_samples (hms : DistinctReceipts cfg J) {S : Set Row}
    (hS : ∀ row ∈ S, ∃ r label rows, IsSample R cfg r label rows ∧ r ∈ J.records ∧ row ∈ rows) :
    Distinct Row.key Row.fetchedAtMs S := by
  intro row hrow row' hrow' hkey htime
  obtain ⟨r, label, rows, hs, hr, hmem⟩ := hS row hrow
  obtain ⟨r', label', rows', hs', hr', hmem'⟩ := hS row' hrow'
  obtain ⟨gridNs, -, hresp⟩ := hs.response
  obtain ⟨gridNs', -, hresp'⟩ := hs'.response
  rw [hresp.receipt row hmem, hresp'.receipt row' hmem'] at htime
  obtain rfl : r = r' := by
    refine hms r hr r' hr' label label' rows rows' hs hs' ?_; exact_mod_cast htime
  obtain ⟨rfl, rfl⟩ := hs.label_eq hs'; exact hresp.eq_of_symbol hmem hmem' (congrArg Prod.fst hkey)

/-- **A table holds the earliest rows that were written.** -/
theorem table_eq (hms : DistinctReceipts cfg J) (hok : ∀ w ∈ s.log, FromSamples cfg J w) (stream : Stream) :
    table s stream = earliest Row.key Row.fetchedAtMs (writtenRows s.log stream) := by
  have hhour : ∀ {row hour}, row ∈ logged (snapshotBatch stream hour) s.log → row.hour = hour :=
    fun h => (exists_sample_of_mem hok h).1
  have hsample : ∀ {row hour}, row ∈ logged (snapshotBatch stream hour) s.log →
      ∃ r label rows, IsSample R cfg r label rows ∧ r ∈ J.records ∧ row ∈ rows := by
    intro row hour h
    obtain ⟨-, r, label, rows, hs, -, hmem, hfirst⟩ := exists_sample_of_mem hok h
    exact ⟨r, label, rows, hs, hfirst.mem_records, hmem⟩
  have hpartition : ∀ hour row, row ∈ s.lake.snapshots stream hour ↔
      row ∈ earliest Row.key Row.fetchedAtMs (logged (snapshotBatch stream hour) s.log) :=
    fun hour row => mem_snapshots (fun _ h =>
      enforceDtypes_of_mem hok h) (distinct_of_samples hms (fun _ h => hsample h))
  ext row
  constructor
  · rintro ⟨hour, h⟩
    obtain ⟨hmem, hmin⟩ := (hpartition hour row).mp h
    have hrow := hhour hmem
    refine ⟨show row ∈ logged (snapshotBatch stream row.hour) s.log from hrow ▸ hmem, ?_⟩
    intro y hy hkey
    apply hmin y _ hkey
    -- rows of one key are rows of one hour
    have hcaptured : y.capturedAt = row.capturedAt := congrArg Prod.snd hkey
    have : y.hour = hour := by rw [← hrow, Row.hour, Row.hour, hcaptured]
    exact this ▸ hy
  · rintro ⟨hmem, hmin⟩
    refine ⟨row.hour, (hpartition row.hour row).mpr ⟨hmem, ?_⟩⟩
    intro y hy hkey
    apply hmin y _ hkey
    show y ∈ logged (snapshotBatch stream y.hour) s.log
    rw [hhour hy]; exact hy

end Tables

/-! # The two bounds -/

section Bounds

variable (cfg J)

def LabelFirst (r : Record) (label : Label) : Prop :=
  ∀ r' ∈ J.records, ∀ rows, IsSample R cfg r' label rows → recvOf r ≤ recvOf r'

def firstRows (stream : Stream) : Set Row :=
  {row | ∃ r ∈ J.records, ∃ label rows, IsSample R cfg r label rows ∧ LabelFirst cfg J r label ∧ label.1 = stream ∧
    row ∈ rows}

/-- Every row of a first sample of a member is preceded by a row of a first sample of its label. -/
def Redundant : Prop :=
  ∀ r label rows, IsSample R cfg r label rows → MemberFirst cfg J r label → ∀ row ∈ rows,
    ∃ r' ∈ J.records, ∃ label' rows', IsSample R cfg r' label' rows' ∧ LabelFirst cfg J r' label' ∧
      label'.1 = label.1 ∧ recvOf r' ≤ recvOf r ∧ ∃ row' ∈ rows', row'.key = row.key

variable {cfg J} {s : State R.toCodec}

theorem settled_of_consumed (h : State.Holds (Within J) (Accounted J (Settled cfg J))
    (fun _ log w => RestMarked cfg J log w)
    (FromSamples cfg J) s) {f : SegmentPath × List Member} (hf : f ∈ J.files)
    {k : ℕ} (hk : k < f.2.length) (hconsumed : ConsumedMember s f k) : ∀ r ∈ (f.2[k]).records,
    Settled cfg J s.log r := by
  obtain ⟨c, hc, hle⟩ := hconsumed
  obtain ⟨pos, hat, hsettled⟩ := h.good c (Or.inr (Or.inr hc))
  intro r hr; exact hsettled f hf _ (mem_take_of_consumed hat hf hk hle) r hr

/-- **A schedule that consumes the journal writes the first sample of every label.** -/
theorem firstRows_subset (hms : DistinctReceipts cfg J) (h : State.Holds (Within J) (Accounted J (Settled cfg J))
    (fun _ log w => RestMarked cfg J log w) (FromSamples cfg J) s) (hall : ConsumesAll J s) (stream : Stream) :
    firstRows cfg J stream ⊆ writtenRows s.log stream := by
  rintro row ⟨r, ⟨f, hf, m, hm, hrm⟩, label, rows, hs, hfirst, rfl, hrow⟩
  obtain ⟨k, hk, rfl⟩ := mem_iff_getElem.mp hm
  obtain ⟨r', rows', hfirst', hs', hle, hwritten⟩ :=
    settled_of_consumed h hf hk (hall f hf k hk) r hrm label rows hs
  have hr' := hfirst'.mem_records
  have hrecv : recvOf r' = recvOf r := le_antisymm hle (hfirst r' hr' rows' hs')
  obtain rfl : r' = r := hms r' hr' r ⟨f, hf, _, hm, hrm⟩ label label rows' rows hs' hs (by rw [hrecv])
  obtain ⟨-, rfl⟩ := hs'.label_eq hs; exact hwritten row hrow

theorem table_eq_firstRows (hms : DistinctReceipts cfg J) (hredundant : Redundant cfg J)
    {actions : List (Action R.toCodec)} (hall : ConsumesAll J (State.run cfg J actions)) (stream : Stream) :
    table (State.run cfg J actions) stream = earliest Row.key Row.fetchedAtMs (firstRows cfg J stream) := by
  have h := rest_holds cfg J actions
  rw [table_eq hms h.ok]
  symm
  apply earliest_eq_of_dominated _ (firstRows_subset hms h hall stream)
  · intro row hrow
    obtain ⟨-, r, label, rows, hs, hstream, hmem, hfirst⟩ := exists_sample_of_mem h.ok hrow
    obtain ⟨r', hr', label', rows', hs', hfirst', hstream', hle, row', hrow', hkey⟩ :=
      hredundant r label rows hs hfirst row hmem
    refine ⟨row', ⟨r', hr', label', rows', hs', hfirst', hstream'.trans hstream, hrow'⟩, hkey, ?_⟩
    obtain ⟨gridNs, -, hresp⟩ := hs.response
    obtain ⟨gridNs', -, hresp'⟩ := hs'.response
    rw [hresp.receipt row hmem, hresp'.receipt row' hrow', WithTop.coe_le_coe]
    exact Int.ediv_le_ediv (by decide) (by exact_mod_cast hle)
  · refine distinct_of_samples hms (fun row hrow => ?_)
    obtain ⟨-, r, label, rows, hs, -, hmem, hfirst⟩ := exists_sample_of_mem h.ok hrow
    exact ⟨r, label, rows, hs, hfirst.mem_records, hmem⟩

end Bounds

/-! # Both bounds are reached -/

section Schedules

variable (cfg J)

def Quiet : Prop :=
  ∀ r ∈ J.records, streamOf r ≠ some .forceOrder ∧ ∀ label, labelOf r = some label →
    ∃ x, sampleOf R cfg label r = .ok x

def totalBytes : ℕ := (J.files.map (fun f => offset f.2 f.2.length)).sum

variable {cfg J}

theorem runLoop_ok {σ α : Type} {step : σ → α → σ × Option CycleError} : ∀ {l : List α} {s : σ},
    (∀ a ∈ l, ∀ s, (step s a).2 = none) → (runLoop step l s).2 = none
  | [], s, _ => rfl
  | a :: rest, s, h => by
    have ha := h a mem_cons_self s
    rw [runLoop]
    split
    · exact runLoop_ok (fun b hb => h b (mem_cons_of_mem _ hb))
    · next s' e heq =>
      rw [heq] at ha; cases ha

variable {v : View R.toCodec} {c : Checkpoint} {pos : SegmentPath → ℕ} {f : SegmentPath × List Member}

theorem backlog_lt {pos cursor : SegmentPath → ℕ} (hat : J.At v pos cursor) :
    backlog J.files v.count pos < totalBytes J + 1 := by
  apply Nat.lt_succ_of_le
  apply sum_le_sum
  intro f hf
  have hle := hat.shown f hf
  have hadd := offset_add_offset f.2 (v.count f.1) (show pos f.1 + (v.count f.1 - pos f.1) ≤ v.count f.1 by omega)
  have hcount := offset_le_offset f.2 (hat.complete f hf)
  rw [Nat.add_sub_cancel' hle] at hadd; omega

theorem exists_derive_of_loops {tree : Tree} {budget : ℕ} {nowNs : ℤ} {w : Window} {g : Gather}
    (hg : gatherNewRecords R tree c.files budget = .ok g)
    (hrest : (deriveRest R cfg nowNs w.discard (recordsOf R g)).2 = none)
    (hws : ∀ window, (deriveWs R cfg nowNs window (restoreTrackers c) (recordsOf R g)).2 = none) :
    ∃ left plan, derive R cfg tree budget nowNs c w = (left, .ok plan) := by
  unfold derive
  rw [hg]
  simp only
  split
  · next e heq =>
    rw [heq] at hrest; cases hrest
  · next rest heq =>
    have hws' := hws rest.window
    split
    · next e heq' =>
      rw [heq'] at hws'; cases hws'
    · exact ⟨_, _, rfl⟩

theorem deriveRest_none {records : List Record} {nowNs : ℤ} {w : Window}
    (hsample : ∀ r ∈ records, ∀ label, labelOf r = some label → ∃ x, sampleOf R cfg label r = .ok x) :
    (deriveRest R cfg nowNs w records).2 = none := by
  apply runLoop_ok
  intro r hr s
  unfold restStep
  split
  · rfl
  · next label hlabel =>
    obtain ⟨x, hx⟩ := hsample r hr label hlabel
    split
    · rfl
    · simp only
      split
      · rfl
      · rw [hx]
        split
        · next heq => cases heq
        · rfl
        · rfl

theorem exists_derive_eq_ok (hquiet : Quiet cfg J) (hat : J.At v pos c.files) (budget : ℕ)
    (nowNs : ℤ) (w : Window) :
    ∃ left plan, derive R cfg (J.tree v) budget nowNs c w = (left, .ok plan) := by
  obtain ⟨g, adv, hg, hread, -⟩ := gatherNewRecords_reading hat budget
  refine exists_derive_of_loops hg (deriveRest_none (fun r hr => (hquiet r (hread.mem_records hr)).2)) ?_
  intro window
  apply runLoop_ok
  intro r hr s
  have hstream := (hquiet r (hread.mem_records hr)).1
  unfold wsStep
  split
  · next heq _ => exact absurd heq hstream
  · rfl

variable {s : State R.toCodec}

theorem exists_drained_of (hat : J.At s.view pos s.checkpoint.files)
    (hok : ∃ left plan, derive R cfg (J.tree s.view) (totalBytes J + 1) 0 s.checkpoint s.window =
      (left, .ok plan)) :
    ∃ plan g rest ws,
      Derived R cfg (J.tree s.view) (totalBytes J + 1) 0 s.checkpoint s.window plan g rest ws ∧
      State.step cfg J s (.cycle (totalBytes J + 1) 0 (.returns true)) =
        ⟨s.view, s.log ++ plan.writes, plan.checkpoint, plan.checkpoint, plan.window,
          s.returned ++ [plan.checkpoint]⟩ ∧
      J.At s.view s.view.count plan.checkpoint.files ∧
      ∀ r, r ∈ recordsOf R g ↔ ∃ f ∈ J.files, ∃ m ∈ (f.2.take (s.view.count f.1)).drop (pos f.1),
        r ∈ m.records := by
  obtain ⟨left, plan, hderive⟩ := hok
  obtain ⟨g, rest, ws, hd⟩ := derived_of_derive hderive
  obtain ⟨g', adv, hg', hread, hfits⟩ := gatherNewRecords_reading hat (totalBytes J + 1)
  obtain rfl : g = g' := by
    rw [hd.gathers] at hg'; exact Except.ok.inj hg'
  have hadv := hfits (backlog_lt hat)
  refine ⟨plan, g, rest, ws, hd, ?_, ?_, ?_⟩
  · show State.cycle cfg J s (totalBytes J + 1) 0 (.returns true) = _
    unfold State.cycle
    rw [hderive]; rfl
  · have hat' := hread.at_advance hat ws.trackers
    rw [hd.checkpoint]
    refine ⟨?_, fun f _ => le_rfl, hat.complete⟩
    intro f hf
    rw [hat'.cursor f hf, hadv f hf]
  · intro r
    rw [hread.mem_recordsOf]
    constructor
    · rintro ⟨f, hf, m, hm, hr⟩
      rw [hadv f hf] at hm; exact ⟨f, hf, m, hm, hr⟩
    · rintro ⟨f, hf, m, hm, hr⟩
      rw [← hadv f hf] at hm; exact ⟨f, hf, m, hm, hr⟩

variable (cfg) in
theorem foldl_append_eq : ∀ (l : List SegmentPath) {s : State R.toCodec},
    (∀ p, s.view.count p ≤ (State.members J p).length) → ∃ v : View R.toCodec,
      (l.map Action.append).foldl (State.step cfg J) s = { s with view := v } ∧
      ∀ p, v.count p = min (s.view.count p + l.count p) (State.members J p).length
  | [], s, h => ⟨s.view, rfl, fun p => by simpa using h p⟩
  | q :: l, s, h => by
    rw [map_cons, foldl_cons, State.step]
    split
    · next hlt =>
      have hgrow : ∀ p, (s.view.grow q).count p = if p = q then s.view.count p + 1 else s.view.count p := by
        intro p
        show Function.update s.view.count q (s.view.count q + 1) p = _
        by_cases hp : p = q
        · rw [hp, Function.update_self, if_pos rfl]
        · rw [Function.update_of_ne hp, if_neg hp]
      obtain ⟨v, hrun, hv⟩ := foldl_append_eq l (s := { s with view := s.view.grow q }) (by
        intro p
        rw [hgrow]
        split
        · next hp => exact hp ▸ hlt
        · exact h p)
      refine ⟨v, hrun, ?_⟩
      intro p
      have hcount : (q :: l).count p = l.count p + if p = q then 1 else 0 := by
        by_cases hp : p = q
        · rw [hp, count_cons_self, if_pos rfl]
        · rw [count_cons_of_ne (fun h' => hp h'.symm), if_neg hp, add_zero]
      rw [hv, hcount]
      rw [hgrow]
      split <;> omega
    · next hge =>
      obtain ⟨v, hrun, hv⟩ := foldl_append_eq l h
      refine ⟨v, hrun, ?_⟩
      intro p
      by_cases hp : p = q
      · subst hp
        rw [hv]; omega
      · have hcount : (q :: l).count p = l.count p := count_cons_of_ne (fun h' => hp h'.symm)
        rw [hv, hcount]

variable (J) in
def allPaths : List SegmentPath := J.files.flatMap (fun f => replicate f.2.length f.1)

variable (J) in
def drain : Action R.toCodec := .cycle (totalBytes J + 1) 0 (.returns true)

theorem length_le_count_allPaths (hf : f ∈ J.files) : f.2.length ≤ (allPaths J).count f.1 := by
  have hsub : (replicate f.2.length f.1).Sublist (allPaths J) := sublist_flatten_of_mem (mem_map_of_mem hf)
  have := hsub.count_le f.1; rwa [count_replicate_self] at this

theorem count_eq_length {before : SegmentPath → ℕ}
    (hv : ∀ p, v.count p = min (before p + (allPaths J).count p) (State.members J p).length) :
    ∀ f ∈ J.files, v.count f.1 = f.2.length := by
  intro f hf
  have := length_le_count_allPaths hf
  rw [hv, members_eq hf]; omega

theorem consumesAll_of_at (hc : c ∈ s.returned)
    (hat : J.At v v.count c.files) (hfull : ∀ f ∈ J.files, v.count f.1 = f.2.length) : ConsumesAll J s := by
  intro f hf k hk
  refine ⟨c, hc, ?_⟩
  rw [hat.cursor f hf, hfull f hf]; exact offset_le_offset f.2 hk

theorem at_init (v : View R.toCodec) (hv : ∀ f ∈ J.files, v.count f.1 ≤ f.2.length) :
    J.At v (fun _ => 0) Checkpoint.empty.files :=
  ⟨fun f _ => by simp [Checkpoint.empty, offset], fun _ _ => Nat.zero_le _, hv⟩

/-- **All members in one cycle**: only the first samples of the labels are written. -/
theorem drained_at_once (hquiet : Quiet cfg J) :
    ConsumesAll J (State.run cfg J ((allPaths J).map .append ++ [drain J])) ∧
      ∀ stream, writtenRows (State.run cfg J ((allPaths J).map .append ++ [drain J])).log stream ⊆
        firstRows cfg J stream := by
  obtain ⟨v, hv, hcount⟩ := foldl_append_eq cfg (allPaths J) (s := State.init R.toCodec)
    (fun p => Nat.zero_le _)
  have hfull := count_eq_length hcount
  have hat₀ := at_init v (fun f hf => (hfull f hf).le)
  obtain ⟨plan, g, rest, ws, hd, hstep, hat, hrecords⟩ :=
    exists_drained_of (s := { State.init R.toCodec with view := v }) hat₀ (exists_derive_eq_ok hquiet hat₀ _ 0 _)
  have hrun : State.run cfg J ((allPaths J).map .append ++ [drain J]) =
      ⟨v, plan.writes, plan.checkpoint, plan.checkpoint, plan.window, [plan.checkpoint]⟩ := by
    rw [State.run, foldl_append, hv]; exact hstep
  rw [hrun]
  refine ⟨consumesAll_of_at (mem_singleton_self _) hat hfull, ?_⟩
  rintro stream row ⟨w, hw, b, hb, hrow⟩
  rw [hd.writes] at hw
  cases w with
  | snapshot stream' hour chunk =>
    obtain ⟨⟨rfl, -⟩, heq⟩ := (Option.ite_none_right_eq_some).mp hb
    cases heq
    obtain ⟨-, rows, hframe, hmem⟩ := of_mem_writesOf hw hrow
    obtain ⟨r, hr, label, hs, hstream, hmin⟩ := (deriveRest_run pairwise_recordsOf rfl hd.samples).frames _ hframe
    have hall : ∀ r' ∈ J.records, r' ∈ recordsOf R g := by
      rintro r' ⟨f, hf, m, hm, hr'⟩
      refine (hrecords r').mpr ⟨f, hf, m, ?_, hr'⟩; rwa [hfull f hf, take_length]
    obtain ⟨f, hf, m, hm, hrm⟩ := (hrecords r).mp hr
    refine ⟨r, ⟨f, hf, m, mem_of_mem_take (mem_of_mem_drop hm), hrm⟩, label, rows, hs, ?_, hstream, hmem⟩
    exact fun r' hr' rows' hs' => hmin r' (hall r' hr') rows' hs'
  | liquidation _ _ | coverage _ => cases hb

variable (J) in
/-- Members become complete, a cycle reads all of them, and the process is restarted. -/
def phase (l : List SegmentPath) : List (Action R.toCodec) := l.map .append ++ [drain J, .restart]

theorem exists_phase (hms : DistinctReceipts cfg J) (hquiet : Quiet cfg J) (l : List SegmentPath)
    (hat : J.At s.view pos s.checkpoint.files)
    (hwithin : ∀ p, s.view.count p ≤ (State.members J p).length) (hwindow : s.window = Window.empty) :
    ∃ s' : State R.toCodec, (phase J l).foldl (State.step cfg J) s = s' ∧
      J.At s'.view s'.view.count s'.checkpoint.files ∧ s'.checkpoint ∈ s'.returned ∧ s'.window = Window.empty ∧
      (∀ p, s'.view.count p = min (s.view.count p + l.count p) (State.members J p).length) ∧
      (∃ writes, s'.log = s.log ++ writes) ∧
      ∀ f ∈ J.files, ∀ m ∈ (f.2.take (s'.view.count f.1)).drop (pos f.1), ∀ r ∈ m.records, ∀ label rows,
        IsSample R cfg r label rows →
        (∀ f' ∈ J.files, ∀ m' ∈ (f'.2.take (s'.view.count f'.1)).drop (pos f'.1), ∀ r' ∈ m'.records, ∀ rows',
          IsSample R cfg r' label rows' → recvOf r ≤ recvOf r') → Written s'.log label.1 rows := by
  obtain ⟨v, hv, hcount⟩ := foldl_append_eq cfg l hwithin
  have hgrown : J.At v pos s.checkpoint.files := by
    refine hat.grow ?_ ?_
    · intro p
      have := hwithin p
      rw [hcount]; omega
    · intro f hf
      rw [hcount, members_eq hf]; exact min_le_right _ _
  obtain ⟨plan, g, rest, ws, hd, hstep, hat', hrecords⟩ :=
    exists_drained_of (s := { s with view := v }) hgrown (exists_derive_eq_ok hquiet hgrown _ 0 _)
  refine ⟨⟨v, s.log ++ plan.writes, plan.checkpoint, plan.checkpoint, Window.empty,
    s.returned ++ [plan.checkpoint]⟩,
    ?_, hat', mem_append_right _ (mem_singleton_self _), rfl, hcount, ⟨_, rfl⟩, ?_⟩
  · rw [phase, foldl_append, hv, foldl_cons]
    rw [show drain J = .cycle (totalBytes J + 1) 0 (.returns true) from rfl, hstep]; rfl
  · intro f hf m hm r hr label rows hs hmin
    have hrun := deriveRest_run pairwise_recordsOf rfl hd.samples
    have hread : r ∈ recordsOf R g := (hrecords r).mpr ⟨f, hf, m, hm, hr⟩
    have hof : ∀ r' ∈ recordsOf R g, r' ∈ J.records := by
      intro r' hr'
      obtain ⟨f', hf', m', hm', hr'⟩ := (hrecords r').mp hr'
      exact ⟨f', hf', m', mem_of_mem_take (mem_of_mem_drop hm'), hr'⟩
    -- the window is empty, so that the label is derived from the first of the samples that were read
    have hdone : label ∈ rest.done := by
      rcases hrun.covered r hread label rows hs with h | ⟨n, -, h⟩
      · exact h
      · rw [hwindow] at h; cases h
    obtain ⟨r', hr', rows', hs', hframe, hmin'⟩ := hrun.done label hdone
    have hrecv : recvOf r' = recvOf r := by
      obtain ⟨f', hf', m', hm', hrm'⟩ := (hrecords r').mp hr'
      exact le_antisymm (hmin' r hread rows hs) (hmin f' hf' m' hm' r' hrm' rows' hs')
    obtain rfl : r' = r := hms r' (hof r' hr') r (hof r hread) label label rows' rows hs' hs (by rw [hrecv])
    obtain ⟨-, rfl⟩ := hs'.label_eq hs
    intro row hrow
    obtain ⟨x, hx, hbatch⟩ := written_writesOf ws hframe hs.rest_stream row hrow
    exact ⟨x, mem_append_right _ (hd.writes ▸ hx), hbatch⟩

def apart (J : Journal R.toCodec) (p : SegmentPath) (k : ℕ) : List (Action R.toCodec) :=
  phase J (replicate k p) ++ phase J [p] ++ phase J (allPaths J)

/-- **A member in a cycle of its own**: the rows of its first samples are written. -/
theorem drained_apart (hms : DistinctReceipts cfg J) (hquiet : Quiet cfg J)
    (hf : f ∈ J.files) {k : ℕ} (hk : k < f.2.length) :
    ConsumesAll J (State.run cfg J (apart J f.1 k)) ∧
      ∀ r ∈ (f.2[k]).records, ∀ label rows, IsSample R cfg r label rows →
      (∀ r' ∈ (f.2[k]).records, ∀ rows', IsSample R cfg r' label rows' → recvOf r ≤ recvOf r') →
      Written (State.run cfg J (apart J f.1 k)).log label.1 rows := by
  obtain ⟨s₁, h₁, hat₁, -, hwindow₁, hcount₁, -, -⟩ := exists_phase hms hquiet (replicate k f.1)
    (s := State.init R.toCodec) (at_init _ (fun _ _ => Nat.zero_le _)) (fun _ => Nat.zero_le _) rfl
  have hwithin₁ : ∀ p, s₁.view.count p ≤ (State.members J p).length := by
    intro p
    rw [hcount₁]; exact min_le_right _ _
  obtain ⟨s₂, h₂, hat₂, -, hwindow₂, hcount₂, -, hwritten⟩ := exists_phase hms hquiet [f.1] hat₁ hwithin₁ hwindow₁
  have hwithin₂ : ∀ p, s₂.view.count p ≤ (State.members J p).length := by
    intro p
    rw [hcount₂]; exact min_le_right _ _
  obtain ⟨s₃, h₃, hat₃, hreturned, -, hcount₃, ⟨writes, hlog⟩, -⟩ :=
    exists_phase hms hquiet (allPaths J) hat₂ hwithin₂ hwindow₂
  have hrun : State.run cfg J (apart J f.1 k) = s₃ := by
    rw [State.run, apart, foldl_append, foldl_append, h₁, h₂, h₃]
  rw [hrun]
  refine ⟨consumesAll_of_at hreturned hat₃ (count_eq_length hcount₃), ?_⟩
  intro r hr label rows hs hmin
  rw [hlog]
  apply Written.append
  -- the second cycle reads the member and nothing else
  have hzero : ∀ p, (State.init R.toCodec).view.count p = 0 := fun _ => rfl
  have hself : ∀ f' ∈ J.files, f'.1 = f.1 → f'.2 = f.2 := by
    intro f' hf' heq
    rw [← members_eq hf', heq, members_eq hf]
  have hread : ∀ f' ∈ J.files, ∀ m, m ∈ (f'.2.take (s₂.view.count f'.1)).drop (s₁.view.count f'.1) ↔
      f'.1 = f.1 ∧ m = f.2[k] := by
    intro f' hf' m
    by_cases hp : f'.1 = f.1
    · have h1 : s₁.view.count f'.1 = k := by
        rw [hcount₁, hp, members_eq hf, count_replicate_self, hzero f.1]; omega
      have h2 : s₂.view.count f'.1 = k + 1 := by
        rw [hcount₂, h1, hp, members_eq hf, count_singleton_self]; omega
      rw [h1, h2, hself f' hf' hp, drop_take, Nat.add_sub_cancel_left, drop_eq_getElem_cons hk,
        take_succ_cons]
      simp [hp]
    · have h1 : s₁.view.count f'.1 = 0 := by
        rw [hcount₁, count_replicate, if_neg (by simpa using fun h => hp h.symm), hzero f'.1]
        omega
      have h2 : s₂.view.count f'.1 = 0 := by
        rw [hcount₂, count_eq_zero.mpr (by simpa using hp)]; omega
      simp [h1, h2, hp]
  refine hwritten f hf f.2[k] ((hread f hf _).mpr ⟨rfl, rfl⟩) r hr label rows hs ?_
  intro f' hf' m' hm' r' hr' rows' hs'
  obtain ⟨-, rfl⟩ := (hread f' hf' m').mp hm'; exact hmin r' hr' rows' hs'

theorem redundant_of_agree (hms : DistinctReceipts cfg J) (hquiet : Quiet cfg J)
    (hagree : ∀ actions actions', ConsumesAll J (State.run cfg J actions) →
      ConsumesAll J (State.run cfg J actions') →
      ∀ stream, table (State.run cfg J actions) stream = table (State.run cfg J actions') stream) :
    Redundant cfg J := by
  rintro r label rows hs ⟨f, hf, m, hm, hrm, hmin⟩ row hrow
  obtain ⟨k, hk, rfl⟩ := mem_iff_getElem.mp hm
  obtain ⟨hall, hwritten⟩ := drained_apart hms hquiet hf hk
  obtain ⟨honce, hfirst⟩ := drained_at_once hquiet
  have hr : r ∈ J.records := ⟨f, hf, _, hm, hrm⟩
  -- the row, or an earlier one of its key, is in the table of the first schedule
  obtain ⟨row', hmem, hkey, hle⟩ := exists_table_row_le (rest_holds cfg J _).ok
    (hwritten r hrm label rows hs hmin row hrow)
  rw [hagree _ _ hall honce, table_eq hms (rest_holds cfg J _).ok] at hmem
  obtain ⟨r', hr', label', rows', hs', hfirst', hstream, hrow'⟩ := hfirst label.1 hmem.1
  refine ⟨r', hr', label', rows', hs', hfirst', hstream, ?_, row', hrow', hkey⟩
  obtain ⟨gridNs, -, hresp⟩ := hs.response
  obtain ⟨gridNs', -, hresp'⟩ := hs'.response
  rw [hresp.receipt row hrow, hresp'.receipt row' hrow'] at hle
  have hdiv : recvOf r' / 10 ^ 6 ≤ recvOf r / 10 ^ 6 := by exact_mod_cast hle
  rcases hdiv.lt_or_eq with hlt | heq
  · omega
  · rw [hms r' hr' r hr label' label rows' rows hs' hs heq]

end Schedules

/-! # Main result -/

def SchedulesAgree (cfg : Config) (J : Journal R.toCodec) : Prop :=
  ∀ actions actions', ConsumesAll J (State.run cfg J actions) → ConsumesAll J (State.run cfg J actions') →
    ∀ stream, table (State.run cfg J actions) stream = table (State.run cfg J actions') stream

/-- **The snapshot tables depend only on the journal exactly when its twins are redundant.** -/
theorem snapshot_tables_agree_iff (cfg : Config) (J : Journal R.toCodec) (hms : DistinctReceipts cfg J) :
    (Redundant cfg J → SchedulesAgree cfg J) ∧ (Quiet cfg J → SchedulesAgree cfg J → Redundant cfg J) := by
  refine ⟨?_, fun hquiet hagree => redundant_of_agree hms hquiet hagree⟩
  intro hredundant actions actions' hall hall' stream
  rw [table_eq_firstRows hms hredundant hall, table_eq_firstRows hms hredundant hall']

/-! # Twins of one grid -/

def bookItem (symbol : String) : Json :=
  .obj [("symbol", .str symbol), ("bidPrice", .str "1"), ("bidQty", .str "1"), ("askPrice", .str "1"),
    ("askQty", .str "1"), ("time", .int 1700000000000)]

def twinGrid : String := "2023-11-14T22:13:20+00:00"

def twinRecord (slot : String) (recvNs : ℤ) (symbols : List String) : Record :=
  [("v", .int 1), ("stream", .str "book_ticker"), ("slot", .str slot), ("kind", .str "rest"),
    ("recv_ns", .int recvNs),
    ("grid", .str twinGrid), ("status", .int 200), ("body", .str (Json.text (.arr (symbols.map bookItem))))]

def blueTwin : Record := twinRecord "blue" 1700000000100000000 ["A"]

def greenTwin (symbols : List String) : Record := twinRecord "green" 1700000000200000000 symbols

def twinRuntime (symbols : List String) : Runtime :=
  knownRuntime [.obj blueTwin, .obj (greenTwin symbols), .arr (["A"].map bookItem), .arr (symbols.map bookItem)]
    [(twinGrid, 1700000000000000000)] []

/-- A blue and a green response to one grid, each in a member of its own. -/
def twinFiles (symbols : List String) : List (SegmentPath × List (List Record)) :=
  [(⟨.bookTicker, .blue, 472222⟩, [[blueTwin]]), (⟨.bookTicker, .green, 472222⟩, [[greenTwin symbols]])]

def equalTwins : Journal (twinRuntime ["A"]).toCodec :=
  journalOf _ (twinFiles ["A"]) (by decide +kernel) (by decide +kernel)

def unequalTwins : Journal (twinRuntime ["A", "B"]).toCodec :=
  journalOf _ (twinFiles ["A", "B"]) (by decide +kernel) (by decide +kernel)

def twinRow (recvMs : ℤ) (symbol : String) : Row :=
  ⟨1700000000000000000, symbol, 1700000000000, recvMs, .book (.fin 1) (.fin 1) (.fin 1) (.fin 1)⟩

def twinRows (symbols : List String) (r : Record) : List Row :=
  if r = blueTwin then [twinRow 1700000000100 "A"] else symbols.map (twinRow 1700000000200)

variable {symbols : List String} {r : Record}

theorem mem_twins (h : ∃ f ∈ twinFiles symbols, ∃ rs ∈ f.2, r ∈ rs) : r = blueTwin ∨ r = greenTwin symbols := by
  simpa [twinFiles] using h

theorem sampleOf_twins (hsymbols : symbols = ["A"] ∨ symbols = ["A", "B"])
    (h : r = blueTwin ∨ r = greenTwin symbols) :
    sampleOf (twinRuntime symbols) Config.default (.bookTicker, twinGrid) r = .ok (some (twinRows symbols r)) := by
  rcases hsymbols with rfl | rfl <;> rcases h with rfl | rfl <;> decide +kernel

theorem labelOf_twins (h : r = blueTwin ∨ r = greenTwin symbols) : labelOf r = some (.bookTicker, twinGrid) := by
  rcases h with rfl | rfl <;> rfl

theorem isSample_twins (hsymbols : symbols = ["A"] ∨ symbols = ["A", "B"])
    (h : r = blueTwin ∨ r = greenTwin symbols) {label : Label} {rows : List Row} :
    IsSample (twinRuntime symbols) Config.default r label rows ↔
      label = (.bookTicker, twinGrid) ∧ rows = twinRows symbols r := by
  constructor
  · intro hs; exact hs.label_eq ⟨labelOf_twins h, sampleOf_twins hsymbols h⟩
  · rintro ⟨rfl, rfl⟩; exact ⟨labelOf_twins h, sampleOf_twins hsymbols h⟩

theorem recvOf_blueTwin : recvOf blueTwin = 1700000000100000000 := by decide +kernel

theorem recvOf_greenTwin (symbols : List String) : recvOf (greenTwin symbols) = 1700000000200000000 := by rfl

variable {J : Journal (twinRuntime symbols).toCodec}

theorem distinctReceipts_twins (hJ : ∀ r ∈ J.records, r = blueTwin ∨ r = greenTwin symbols) :
    DistinctReceipts Config.default J := by
  intro r hr r' hr' _ _ _ _ _ _ heq
  rcases hJ r hr with rfl | rfl <;> rcases hJ r' hr' with rfl | rfl <;>
    simp only [recvOf_blueTwin, recvOf_greenTwin] at heq ⊢ <;> omega

theorem quiet_twins (hsymbols : symbols = ["A"] ∨ symbols = ["A", "B"])
    (hJ : ∀ r ∈ J.records, r = blueTwin ∨ r = greenTwin symbols) :
    Quiet Config.default J := by
  intro r hr
  refine ⟨?_, ?_⟩
  · rcases hJ r hr with rfl | rfl <;> exact nofun
  · intro label hlabel
    obtain rfl := Option.some.inj ((labelOf_twins (hJ r hr)).symm.trans hlabel)
    exact ⟨_, sampleOf_twins hsymbols (hJ r hr)⟩

theorem mem_equalTwins (hr : r ∈ equalTwins.records) : r = blueTwin ∨ r = greenTwin ["A"] :=
  mem_twins (mem_records_journalOf.mp hr)

theorem snapshot_tables_agree_equal_twins : SchedulesAgree Config.default equalTwins := by
  have hJ : ∀ r ∈ equalTwins.records, r = blueTwin ∨ r = greenTwin ["A"] := fun _ => mem_equalTwins
  refine (snapshot_tables_agree_iff Config.default equalTwins (distinctReceipts_twins hJ)).1 ?_
  intro r label rows hs hfirst row hrow
  obtain ⟨rfl, rfl⟩ := (isSample_twins (Or.inl rfl) (hJ r hfirst.mem_records)).mp hs
  have hblue : blueTwin ∈ equalTwins.records := mem_records_journalOf.mpr (by simp [twinFiles])
  refine ⟨blueTwin, hblue, _, _, (isSample_twins (Or.inl rfl) (Or.inl rfl)).mpr ⟨rfl, rfl⟩, ?_, rfl, ?_,
    twinRow 1700000000100 "A", by simp [twinRows], ?_⟩
  · intro r' hr' _ _
    rcases hJ r' hr' with rfl | rfl <;> simp only [recvOf_blueTwin, recvOf_greenTwin] <;> omega
  · rcases hJ r hfirst.mem_records with rfl | rfl <;> simp only [recvOf_blueTwin, recvOf_greenTwin] <;> omega
  · unfold twinRows at hrow
    split at hrow
    · rw [mem_singleton.mp hrow]
    · rw [mem_singleton.mp hrow]; rfl

theorem mem_unequalTwins (hr : r ∈ unequalTwins.records) : r = blueTwin ∨ r = greenTwin ["A", "B"] :=
  mem_twins (mem_records_journalOf.mp hr)

theorem isSample_unequalTwins (h : r = blueTwin ∨ r = greenTwin ["A", "B"]) :
    IsSample (twinRuntime ["A", "B"]) Config.default r (.bookTicker, twinGrid) (twinRows ["A", "B"] r) :=
  (isSample_twins (Or.inr rfl) h).mpr ⟨rfl, rfl⟩

theorem quiet_unequalTwins : Quiet Config.default unequalTwins := quiet_twins (Or.inr rfl)
    (fun _ => mem_unequalTwins)

theorem symbol_ne_of_drained_at_once {row : Row} (hrow : row ∈ table (State.run Config.default unequalTwins
    ((allPaths unequalTwins).map .append ++ [drain unequalTwins])) .bookTicker) : row.symbol ≠ "B" := by
  rw [table_eq (distinctReceipts_twins (fun _ => mem_unequalTwins)) (rest_holds _ _ _).ok] at hrow
  obtain ⟨r, hr, label, rows, hs, hleast, -, hmem⟩ := (drained_at_once quiet_unequalTwins).2 _ hrow.1
  obtain ⟨rfl, rfl⟩ := (isSample_twins (Or.inr rfl) (mem_unequalTwins hr)).mp hs
  have hblue : blueTwin ∈ unequalTwins.records := mem_records_journalOf.mpr (by simp [twinFiles])
  have hle := hleast blueTwin hblue _ (isSample_unequalTwins (Or.inl rfl))
  rcases mem_unequalTwins hr with rfl | rfl
  · rw [mem_singleton.mp hmem]; decide
  · rw [recvOf_blueTwin, recvOf_greenTwin] at hle; omega

/-- **Whether a symbol reaches the table depends on the schedule.**  Read in one cycle the later
twin is dropped as a duplicate; read in a cycle of its own it brings the symbol that the earlier one
lacks. -/
theorem unequal_twins_disagree :
    DistinctReceipts Config.default unequalTwins ∧
      ConsumesAll unequalTwins (State.run Config.default unequalTwins ((allPaths unequalTwins).map .append ++
        [drain unequalTwins])) ∧
      ConsumesAll unequalTwins (State.run Config.default unequalTwins
        (apart unequalTwins ⟨.bookTicker, .green, 472222⟩ 0)) ∧
      (∀ row ∈ table (State.run Config.default unequalTwins ((allPaths unequalTwins).map .append ++
        [drain unequalTwins])) .bookTicker, row.symbol ≠ "B") ∧
      ∃ row ∈ table (State.run Config.default unequalTwins
        (apart unequalTwins ⟨.bookTicker, .green, 472222⟩ 0)) .bookTicker, row.symbol = "B" := by
  have hms : DistinctReceipts Config.default unequalTwins := distinctReceipts_twins (fun _ => mem_unequalTwins)
  have hgreen : (⟨.bookTicker, .green, 472222⟩,
    [memberOf (twinRuntime ["A", "B"]).toCodec [greenTwin ["A", "B"]]]) ∈
      unequalTwins.files := mem_cons_of_mem _ mem_cons_self
  obtain ⟨hapart, hwritten⟩ := drained_apart hms quiet_unequalTwins hgreen Nat.zero_lt_one
  refine ⟨hms, (drained_at_once quiet_unequalTwins).1, hapart, fun row => symbol_ne_of_drained_at_once, ?_⟩
  have hrow := hwritten (greenTwin ["A", "B"]) (mem_singleton_self _) _ _ (isSample_unequalTwins (Or.inr rfl)) (by
    intro r' hr' _ _
    rw [mem_singleton.mp hr']) (twinRow 1700000000200 "B") (by decide +kernel)
  obtain ⟨row, hmem, hkey, -⟩ := exists_table_row_le (rest_holds _ _ _).ok hrow
  exact ⟨row, hmem, congrArg Prod.fst hkey⟩

end CryptoPilot.Streams
