/- # GridSamplerRuns — one outcome for each grid point.

The records that a sampler has added are labelled with consecutive grid points from the first one
after its start (`Sampled`), whatever the clock, the replies and the shutdown. -/
import CryptoPilot.Capture.GridSampler
import Mathlib.Tactic.Ring

namespace CryptoPilot.Capture

open CryptoPilot.Lib (Proc)
open CryptoPilot.Lib.Proc List

variable {env : Surroundings} {config : GridConfig}

/-! ## The invariant -/

/-- The records are of the grid points from `first` on, each once, received at or after their
points; the fetches were admitted by a clock read at or within the lag after theirs. -/
structure Sampled (first step lag : ℤ) (s : GridSampler) : Prop where
  labels : ∀ i (hi : i < s.added.length), s.added[i].grid = first + i * step
  received : ∀ r ∈ s.added, r.grid ≤ r.recvNs
  admitted : ∀ f ∈ s.started, f.grid ≤ f.admitted ∧ f.admitted - f.grid ≤ lag

section Invariant

variable {first step lag : ℤ} {s s' : GridSampler}

def nextPoint (first step : ℤ) (s : GridSampler) : ℤ := first + s.added.length * step

section

variable (h : Sampled first step lag s)

include h

theorem Sampled.kept (hadded : s'.added = s.added) (hstarted : s'.started = s.started) :
    Sampled first step lag s' := by
  obtain ⟨hlabels, hreceived, hadmitted⟩ := h
  refine ⟨?_, hadded ▸ hreceived, hstarted ▸ hadmitted⟩
  intro i hi
  have hi' : i < s.added.length := hadded ▸ hi
  rw [← hlabels i hi']; simp only [hadded]

theorem Sampled.write {record : GridRecord} (hgrid : record.grid = nextPoint first step s)
    (hrecv : record.grid ≤ record.recvNs) (hadded : s'.added = s.added ++ [record])
    (hstarted : s'.started = s.started) : Sampled first step lag s' := by
  obtain ⟨hlabels, hreceived, hadmitted⟩ := h
  refine ⟨?_, ?_, hstarted ▸ hadmitted⟩
  · intro i hi
    simp only [hadded, length_append, length_singleton] at hi
    simp only [hadded]
    rcases Nat.lt_or_ge i s.added.length with hlt | hge
    · rw [getElem_append_left hlt]; exact hlabels i hlt
    · obtain rfl : i = s.added.length := by omega
      simpa [nextPoint] using hgrid
  · intro r hr
    rw [hadded] at hr
    rcases mem_append.mp hr with hr | hr
    · exact hreceived r hr
    · rw [mem_singleton.mp hr]; exact hrecv

theorem Sampled.start {f : FetchStart} (hin : f.grid ≤ f.admitted)
    (hlag : f.admitted - f.grid ≤ lag) (hadded : s'.added = s.added)
    (hstarted : s'.started = s.started ++ [f]) :
    Sampled first step lag s' := by
  have hkept : Sampled first step lag { s' with started := s.started } := h.kept hadded rfl
  obtain ⟨hlabels, hreceived, hadmitted⟩ := hkept
  refine ⟨hlabels, hreceived, ?_⟩
  intro g hg
  rw [hstarted] at hg
  rcases mem_append.mp hg with hg | hg
  · exact h.admitted g hg
  · rw [mem_singleton.mp hg]; exact ⟨hin, hlag⟩

end

end Invariant

def Past (env : Surroundings) (t : ℤ) (s : GridSampler) : Prop := t ≤ env.clock s.clockReads

theorem Past.later {t : ℤ} {s s' : GridSampler} (h : Past env t s) (hle : s.clockReads ≤ s'.clockReads) :
    Past env t s' := le_trans (show t ≤ env.clock s.clockReads from h) (env.clock_mono hle)

/-! ## Reads -/

section Reads

variable {s : GridSampler}

variable {E : SamplerError → GridSampler → Prop}

@[simp] theorem wp_readClock {Q : ℤ → GridSampler → Prop} :
    wp (readClock env) Q E s ↔ Q (env.clock s.clockReads) { s with clockReads := s.clockReads + 1 } := Iff.rfl

@[simp] theorem wp_readShutdown {Q : Bool → GridSampler → Prop} :
    wp (readShutdown env) Q E s ↔
      Q (env.shutdown s.shutdownReads) { s with shutdownReads := s.shutdownReads + 1 } := Iff.rfl

@[simp] theorem wp_blockedUntil {now : ℤ} {Q : Option ℚ → GridSampler → Prop} :
    wp (blockedUntil env config now) Q E s ↔
      Q (((env.blocks s.inquiries).foldl (fun gate b => gate.block config.rateLimitCooldownS b.1 b.2)
          s.gate).blockedUntil (seconds now))
        { s with
          gate := (env.blocks s.inquiries).foldl (fun gate b => gate.block config.rateLimitCooldownS b.1 b.2) s.gate
          inquiries := s.inquiries + 1 } := Iff.rfl

def SameHistory (s s' : GridSampler) : Prop :=
  s'.added = s.added ∧ s'.started = s.started ∧ s'.clockReads = s.clockReads

theorem wp_sleep : wp (sleep env) (fun _ s' => SameHistory s s') (fun _ s' => SameHistory s s') s := by
  unfold wp sleep
  cases env.sleepCancelled s.sleeps <;> exact ⟨rfl, rfl, rfl⟩

theorem wp_flushBestEffort :
    wp (flushBestEffort env config) (fun _ s' => SameHistory s s') (fun _ s' => SameHistory s s') s := by
  unfold wp flushBestEffort
  dsimp only
  cases env.flush (s.flushes + 1 - 1) <;> exact ⟨rfl, rfl, rfl⟩

theorem wp_fail : wp fail (fun _ s' => SameHistory s s') E s :=
  ⟨rfl, rfl, rfl⟩

theorem wp_noteResponse {status : ℕ} {recvNs : ℤ} :
    wp (noteResponse status recvNs) (fun _ s' => SameHistory s s') E s := by
  rw [noteResponse, wp_ite]; exact ⟨fun _ => ⟨rfl, rfl, rfl⟩, fun _ => wp_fail⟩

end Reads

/-! ## Writes -/

section Writes

variable {first step lag : ℤ} {s : GridSampler}

/-- What a write of a grid point leaves: one more record, and no clock put back. -/
def Extended (first step lag : ℤ) (s s' : GridSampler) : Prop :=
  Sampled first step lag s' ∧ s'.added.length = s.added.length + 1 ∧ s.clockReads ≤ s'.clockReads

theorem Extended.same {s' s'' : GridSampler} (h : Extended first step lag s s') (hsame : SameHistory s' s'') :
    Extended first step lag s s'' := by
  obtain ⟨hsampled, hlength, hclock⟩ := h
  obtain ⟨hadded, hstarted, hreads⟩ := hsame
  exact ⟨hsampled.kept hadded hstarted, hadded ▸ hlength, hreads ▸ hclock⟩

theorem extended_add (h : Sampled first step lag s) (record : GridRecord)
    (hgrid : record.grid = nextPoint first step s)
    (hpast : Past env record.grid s) (hrecv : record.recvNs = env.clock s.clockReads) (s' : GridSampler)
    (hadded : s'.added = s.added ++ [record]) (hstarted : s'.started = s.started)
    (hclock : s'.clockReads = s.clockReads + 1) : Extended first step lag s s' := by
  refine ⟨h.write hgrid (hrecv ▸ hpast) hadded hstarted, ?_, by omega⟩
  rw [hadded, length_append, length_singleton]

theorem wp_flush_extended {s' : GridSampler} (hext : Extended first step lag s s') :
    wp (flushBestEffort env config) (fun _ s'' => Extended first step lag s s'')
      (fun _ s'' => Sampled first step lag s'') s' :=
  wp_mono wp_flushBestEffort (fun _ _ hsame => hext.same hsame) (fun _ _ hsame => (hext.same hsame).1)

variable (h : Sampled first step lag s) {grid : ℤ} (hgrid : grid = nextPoint first step s) (hpast : Past env grid s)

include h hgrid hpast

theorem wp_writeSkip (cause : String) :
    wp (writeSkip env cause grid) (fun _ s' => Extended first step lag s s')
      (fun _ s' => Sampled first step lag s') s := by
  let record : GridRecord :=
    { kind := .restError, recvNs := env.clock s.clockReads, grid := grid, status := none
      text := "skipped:" ++ cause }
  exact extended_add h record hgrid hpast rfl _ rfl rfl rfl

theorem wp_writeRestError (status : Option ℕ) (error : String) :
    wp (writeRestError env config grid status error) (fun _ s' => Extended first step lag s s')
      (fun _ s' => Sampled first step lag s') s := by
  rw [writeRestError, wp_bind, wp_readClock]
  let record : GridRecord :=
    { kind := .restError, recvNs := env.clock s.clockReads, grid := grid, status := status, text := error }
  have hext := extended_add h record hgrid hpast rfl
    { s with clockReads := s.clockReads + 1, added := s.added ++ [record], pending := s.pending + 1 } rfl rfl rfl
  rw [wp_bind, add, wp_modify, wp_bind]
  refine wp_mono wp_fail (fun _ s' hsame => ?_) (fun _ _ hfalse => hfalse)
  exact wp_flush_extended (hext.same hsame)

theorem wp_writeRest (status : ℕ) (body : String) :
    wp (writeRest env config grid status body) (fun _ s' => Extended first step lag s s')
      (fun _ s' => Sampled first step lag s') s := by
  rw [writeRest, wp_bind, wp_readClock]
  let record : GridRecord :=
    { kind := .rest, recvNs := env.clock s.clockReads, grid := grid, status := some status, text := body }
  have hext := extended_add h record hgrid hpast rfl
    { s with clockReads := s.clockReads + 1, added := s.added ++ [record], pending := s.pending + 1 } rfl rfl rfl
  rw [wp_bind, add, wp_modify, wp_bind]
  refine wp_mono wp_noteResponse (fun _ s' hsame => ?_) (fun _ _ hfalse => hfalse)
  exact wp_flush_extended (hext.same hsame)

theorem wp_writeRateLimited (status : ℕ) (retryAfter : Option ℚ) :
    wp (writeRateLimited env config grid status retryAfter) (fun _ s' => Extended first step lag s s')
      (fun _ s' => Sampled first step lag s') s := by
  let s₁ : GridSampler := { s with
    clockReads := s.clockReads + 1
    gate := s.gate.block config.rateLimitCooldownS (seconds (env.clock s.clockReads)) retryAfter }
  have hs₁ : Sampled first step lag s₁ := h.kept rfl rfl
  have hpast₁ : Past env grid s₁ := hpast.later (Nat.le_succ _)
  refine wp_mono (wp_writeRestError hs₁ hgrid hpast₁ (some status) (rateLimitedText status)) ?_ (fun _ _ hE => hE)
  rintro - s' ⟨hsampled, hlength, hclock⟩; exact ⟨hsampled, hlength, (Nat.le_succ _).trans hclock⟩

end Writes

/-! ## Sampling a point -/

section Slots

variable {first step : ℤ} {s : GridSampler}

theorem extended_of_later {lag : ℤ} {s₁ s' : GridSampler} (hlength : s₁.added.length = s.added.length)
    (hclock : s.clockReads ≤ s₁.clockReads) (hext : Extended first step lag s₁ s') : Extended first step lag s s' :=
  ⟨hext.1, hext.2.1.trans (congrArg (· + 1) hlength), hclock.trans hext.2.2⟩

theorem wp_attempt (h : Sampled first step (lagNs config) s) {grid admitted : ℤ} (hin : grid ≤ admitted)
    (hlag : admitted - grid ≤ lagNs config) {Q : Attempt → GridSampler → Prop}
    (hQ : ∀ answer s', Sampled first step (lagNs config) s' → s'.added = s.added → s'.clockReads = s.clockReads →
      Q answer s') :
    wp (attempt env grid admitted) Q (fun _ s' => Sampled first step (lagNs config) s') s := by
  let s' : GridSampler :=
    { s with fetches := s.fetches + 1, started := s.started ++ [{ grid := grid, admitted := admitted }] }
  have hs' : Sampled first step (lagNs config) s' :=
    h.start (f := { grid := grid, admitted := admitted }) hin hlag rfl rfl
  unfold wp attempt
  cases env.fetch s.fetches with
  | response status body retryAfter =>
    dsimp only
    split_ifs
    all_goals exact hQ _ s' hs' rfl rfl
  | raised error => exact hQ _ s' hs' rfl rfl
  | cancelled => exact hs'

variable (h : Sampled first step (lagNs config) s) {grid : ℤ} (hgrid : grid = nextPoint first step s)
  (hpast : Past env grid s)

include h hgrid hpast

theorem wp_retry (error : String) :
    wp (retry env config grid error) (fun _ s' => Extended first step (lagNs config) s s')
      (fun _ s' => Sampled first step (lagNs config) s') s := by
  rw [retry, wp_bind]
  refine wp_mono wp_sleep (fun _ s₁ hsame => ?_) (fun _ s₁ hsame => h.kept hsame.1 hsame.2.1)
  obtain ⟨hadded, hstarted, hreads⟩ := hsame
  have hs₁ : Sampled first step (lagNs config) s₁ := h.kept hadded hstarted
  rw [wp_bind, wp_readShutdown, wp_ite]
  refine ⟨fun _ => ?_, fun _ => ?_⟩
  · let s₂ : GridSampler := { s₁ with shutdownReads := s₁.shutdownReads + 1 }
    have hs₂ : Sampled first step (lagNs config) s₂ := hs₁.kept rfl rfl
    have hgrid₂ : grid = nextPoint first step s₂ := by rw [hgrid, nextPoint, nextPoint, ← hadded]
    have hpast₂ : Past env grid s₂ := hpast.later hreads.ge
    refine wp_mono (wp_writeRestError hs₂ hgrid₂ hpast₂ none error) (fun _ s' hext => ?_) (fun _ _ hE => hE)
    exact extended_of_later (congrArg List.length hadded) hreads.ge hext
  · rw [wp_bind, wp_readClock]
    let s₂ : GridSampler := { s₁ with shutdownReads := s₁.shutdownReads + 1, clockReads := s₁.clockReads + 1 }
    have hs₂ : Sampled first step (lagNs config) s₂ := hs₁.kept rfl rfl
    have hgrid₂ : grid = nextPoint first step s₂ := by rw [hgrid, nextPoint, nextPoint, ← hadded]
    have hlength₂ : s₂.added.length = s.added.length := congrArg List.length hadded
    have hclock₂ : s.clockReads ≤ s₂.clockReads := hreads.ge.trans (Nat.le_succ _)
    have hpast₂ : Past env grid s₂ := hpast.later hclock₂
    have hin : grid ≤ env.clock s₁.clockReads := hpast.later hreads.ge
    rw [wp_ite]
    refine ⟨fun _ => ?_, fun hadmit => ?_⟩
    · refine wp_mono (wp_writeRestError hs₂ hgrid₂ hpast₂ none error) (fun _ s' hext => ?_) (fun _ _ hE => hE)
      exact extended_of_later hlength₂ hclock₂ hext
    · rw [wp_bind]
      refine wp_attempt hs₂ hin (not_lt.mp hadmit) fun answer s₃ hs₃ hadded₃ hreads₃ => ?_
      have hlength₃ : s₃.added.length = s.added.length :=
        (congrArg List.length hadded₃).trans (congrArg List.length hadded)
      have hgrid₃ : grid = nextPoint first step s₃ := by rw [hgrid, nextPoint, nextPoint, hlength₃]
      have hclock₃ : s.clockReads ≤ s₃.clockReads := hclock₂.trans hreads₃.ge
      have hpast₃ : Past env grid s₃ := hpast.later hclock₃
      have hlater : ∀ s', Extended first step (lagNs config) s₃ s' → Extended first step (lagNs config) s s' :=
        fun s' hext => extended_of_later hlength₃ hclock₃ hext
      cases answer with
      | response status body =>
        exact wp_mono (wp_writeRest hs₃ hgrid₃ hpast₃ status body) (fun _ s' hext => hlater s' hext)
          (fun _ _ hE => hE)
      | rateLimited status retryAfter =>
        exact wp_mono (wp_writeRateLimited hs₃ hgrid₃ hpast₃ status retryAfter) (fun _ s' hext => hlater s' hext)
          (fun _ _ hE => hE)
      | raised error' =>
        exact wp_mono (wp_writeRestError hs₃ hgrid₃ hpast₃ none error') (fun _ s' hext => hlater s' hext)
          (fun _ _ hE => hE)

/-- **A sampled point gets one record.** -/
theorem wp_sampleSlot {admitted : ℤ} (hin : grid ≤ admitted) (hlag : admitted - grid ≤ lagNs config) :
    wp (sampleSlot env config grid admitted) (fun _ s' => Extended first step (lagNs config) s s')
      (fun _ s' => Sampled first step (lagNs config) s') s := by
  rw [sampleSlot, wp_bind]
  refine wp_attempt h hin hlag fun answer s₁ hs₁ hadded hreads => ?_
  have hlength : s₁.added.length = s.added.length := congrArg List.length hadded
  have hgrid₁ : grid = nextPoint first step s₁ := by rw [hgrid, nextPoint, nextPoint, hlength]
  have hpast₁ : Past env grid s₁ := hpast.later hreads.ge
  have hlater : ∀ s', Extended first step (lagNs config) s₁ s' → Extended first step (lagNs config) s s' :=
    fun s' hext => extended_of_later hlength hreads.ge hext
  cases answer with
  | response status body =>
    exact wp_mono (wp_writeRest hs₁ hgrid₁ hpast₁ status body) (fun _ s' hext => hlater s' hext) (fun _ _ hE => hE)
  | rateLimited status retryAfter =>
    exact wp_mono (wp_writeRateLimited hs₁ hgrid₁ hpast₁ status retryAfter) (fun _ s' hext => hlater s' hext)
      (fun _ _ hE => hE)
  | raised error =>
    exact wp_mono (wp_retry hs₁ hgrid₁ hpast₁ error) (fun _ s' hext => hlater s' hext) (fun _ _ hE => hE)

end Slots

/-! ## Skips -/

section Skips

variable {first step lag : ℤ}

def PointsFrom (step : ℤ) : ℤ → List ℤ → Prop
  | _, [] => True
  | point, p :: rest => p = point ∧ PointsFrom step (point + step) rest

theorem PointsFrom.append {point : ℤ} {l m : List ℤ} (hl : PointsFrom step point l)
    (hm : PointsFrom step (point + l.length * step) m) : PointsFrom step point (l ++ m) := by
  induction l generalizing point with
  | nil => simpa using hm
  | cons p l ih =>
    refine ⟨hl.1, ih hl.2 ?_⟩
    have hpoint : point + step + l.length * step = point + (p :: l).length * step := by
      rw [length_cons, Nat.cast_add]; ring
    rwa [hpoint]

theorem pointsBefore_spec (hstep : 0 < step) {grid : ℤ} : ∀ (m : ℕ) (point : ℤ), grid = point + m * step →
    PointsFrom step point (pointsBefore step grid point) ∧ (pointsBefore step grid point).length = m ∧
      ∀ p ∈ pointsBefore step grid point, p ≤ grid
  | 0, point, hgrid => by
    have hstop : ¬ (0 < step ∧ point < grid) := by
      rintro ⟨-, hlt⟩; omega
    rw [pointsBefore, if_neg hstop]; exact ⟨trivial, rfl, nofun⟩
  | m + 1, point, hgrid => by
    have hnext : grid = point + step + m * step := by
      rw [hgrid, Nat.cast_add]; ring
    have hpos : 0 ≤ (m : ℤ) * step := mul_nonneg (Int.natCast_nonneg m) hstep.le
    obtain ⟨hpoints, hlength, hle⟩ := pointsBefore_spec hstep m (point + step) hnext
    rw [pointsBefore, if_pos ⟨hstep, by omega⟩]
    refine ⟨⟨rfl, hpoints⟩, by rw [length_cons, hlength], ?_⟩
    intro p hp
    rcases mem_cons.mp hp with rfl | hp
    · omega
    · exact hle p hp

def ExtendedBy (first step lag : ℤ) (n : ℕ) (s s' : GridSampler) : Prop :=
  Sampled first step lag s' ∧ s'.added.length = s.added.length + n ∧ s.clockReads ≤ s'.clockReads

theorem wp_forEach_writeSkip (cause : String) : ∀ {points : List ℤ} {s : GridSampler}, Sampled first step lag s →
    PointsFrom step (nextPoint first step s) points → (∀ p ∈ points, Past env p s) →
    wp (forEach points (writeSkip env cause)) (fun _ s' => ExtendedBy first step lag points.length s s')
      (fun _ s' => Sampled first step lag s') s
  | [], s, h, _, _ => ⟨h, rfl, le_rfl⟩
  | p :: rest, s, h, hpoints, hpast => by
    obtain ⟨rfl, hrest⟩ := hpoints
    rw [forEach, wp_bind]
    refine wp_mono (wp_writeSkip h rfl (hpast _ mem_cons_self) cause) (fun _ s₁ hext => ?_) (fun _ _ hE => hE)
    obtain ⟨hs₁, hlength, hclock⟩ := hext
    have hnext : nextPoint first step s₁ = nextPoint first step s + step := by
      rw [nextPoint, nextPoint, hlength, Nat.cast_add]; ring
    refine wp_mono (wp_forEach_writeSkip cause hs₁ (hnext ▸ hrest)
      fun p hp => (hpast p (mem_cons_of_mem _ hp)).later hclock) (fun _ s' hext => ?_) (fun _ _ hE => hE)
    obtain ⟨hs', hlength', hclock'⟩ := hext
    exact ⟨hs', by rw [length_cons]; omega, hclock.trans hclock'⟩

variable {s : GridSampler} (h : Sampled first step lag s) {points : List ℤ}
  (hpoints : PointsFrom step (nextPoint first step s) points) (hpast : ∀ p ∈ points, Past env p s)

include h hpoints hpast

theorem wp_skipAll (cause : String) :
    wp (skipAll env config cause points) (fun _ s' => ExtendedBy first step lag points.length s s')
      (fun _ s' => Sampled first step lag s') s := by
  rw [skipAll, wp_bind]
  refine wp_mono (wp_forEach_writeSkip cause h hpoints hpast) (fun _ s₁ hext => ?_) (fun _ _ hE => hE)
  obtain ⟨hs₁, hlength, hclock⟩ := hext
  refine wp_mono wp_flushBestEffort ?_ (fun _ s' hsame => hs₁.kept hsame.1 hsame.2.1)
  rintro - s' ⟨hadded, hstarted, hreads⟩
  exact ⟨hs₁.kept hadded hstarted, hadded ▸ hlength, hreads ▸ hclock⟩

theorem wp_skipLate :
    wp (skipLate env config points) (fun _ s' => ExtendedBy first step lag points.length s s')
      (fun _ s' => Sampled first step lag s') s := by
  rw [skipLate, wp_ite]
  refine ⟨?_, fun _ => wp_skipAll h hpoints hpast "late"⟩
  rintro rfl; exact ⟨h, rfl, le_rfl⟩

end Skips

/-! ## Turns and runs -/

section Runs

variable {first step : ℤ} {intervalS : ℕ}

/-- **The point of a clock read and the points missed before it get one record each.** -/
theorem wp_takePoint {s : GridSampler} (h : Sampled first step (lagNs config) s) {now grid : ℤ} {skipped : List ℤ}
    (hpoints : PointsFrom step (nextPoint first step s) skipped)
    (hgrid : grid = nextPoint first step s + skipped.length * step) (hle : ∀ p ∈ skipped, p ≤ grid)
    (hnow : grid ≤ now)
    (hpast : Past env now s) :
    wp (takePoint env config now grid skipped)
      (fun _ s' => ExtendedBy first step (lagNs config) (skipped.length + 1) s s')
      (fun _ s' => Sampled first step (lagNs config) s') s := by
  rw [takePoint, wp_bind, wp_blockedUntil]
  generalize hs₁ : ({ s with
    gate := (env.blocks s.inquiries).foldl (fun gate b => gate.block config.rateLimitCooldownS b.1 b.2) s.gate
    inquiries := s.inquiries + 1 } : GridSampler) = s₁
  have hadded : s₁.added = s.added := by rw [← hs₁]
  have hreads : s₁.clockReads = s.clockReads := by rw [← hs₁]
  have hsampled₁ : Sampled first step (lagNs config) s₁ := h.kept hadded (by rw [← hs₁])
  have hnext₁ : nextPoint first step s₁ = nextPoint first step s := by rw [nextPoint, nextPoint, hadded]
  have hpast₁ : ∀ p, p ≤ grid → Past env p s₁ := by
    intro p hp
    rw [Past, hreads]; exact (hp.trans hnow).trans hpast
  have hall : PointsFrom step (nextPoint first step s₁) (skipped ++ [grid]) :=
    (hnext₁ ▸ hpoints).append ⟨by rw [hnext₁, hgrid], trivial⟩
  have hallPast : ∀ p ∈ skipped ++ [grid], Past env p s₁ := by
    intro p hp
    rcases mem_append.mp hp with hp | hp
    · exact hpast₁ p (hle p hp)
    · exact hpast₁ p (mem_singleton.mp hp).le
  have hskip : ∀ cause, wp (skipAll env config cause (skipped ++ [grid]))
      (fun _ s' => ExtendedBy first step (lagNs config) (skipped.length + 1) s s')
      (fun _ s' => Sampled first step (lagNs config) s') s₁ := by
    intro cause
    refine wp_mono (wp_skipAll hsampled₁ hall hallPast cause) ?_ (fun _ _ hE => hE)
    rintro - s' ⟨hs', hlength, hclock⟩
    rw [length_append, hadded] at hlength; exact ⟨hs', hlength, hreads.ge.trans hclock⟩
  rw [wp_ite]
  refine ⟨fun _ => hskip _, fun _ => ?_⟩
  rw [wp_ite]
  refine ⟨fun _ => hskip _, fun hlag => ?_⟩
  rw [wp_bind]
  refine wp_mono (wp_skipLate hsampled₁ (hnext₁ ▸ hpoints) fun p hp => hpast₁ p (hle p hp)) ?_ (fun _ _ hE => hE)
  rintro - s₂ ⟨hsampled₂, hlength₂, hclock₂⟩
  have hgrid₂ : grid = nextPoint first step s₂ := by
    rw [hgrid, nextPoint, nextPoint, hlength₂, hadded, Nat.cast_add]; ring
  have hpast₂ : Past env grid s₂ := (hpast₁ grid le_rfl).later hclock₂
  refine wp_mono (wp_sampleSlot hsampled₂ hgrid₂ hpast₂ hnow (not_lt.mp hlag)) ?_ (fun _ _ hE => hE)
  rintro - s' ⟨hs', hlength', hclock'⟩
  refine ⟨hs', ?_, (hreads.ge.trans hclock₂).trans hclock'⟩
  rw [hlength', hlength₂, hadded]; rfl

structure OnGrid (intervalS : ℕ) (first : ℤ) : Prop where
  positive : 0 < intervalNs intervalS
  multiple : ∃ q, first = q * intervalNs intervalS

/-- **A turn leaves the target behind the records it adds.** -/
theorem wp_turn {s : GridSampler} (hgrid : OnGrid intervalS first)
    (h : Sampled first (intervalNs intervalS) (lagNs config) s) :
    wp (turn env config intervalS (nextPoint first (intervalNs intervalS) s))
      (fun target s' => Sampled first (intervalNs intervalS) (lagNs config) s' ∧
        target = nextPoint first (intervalNs intervalS) s')
      (fun _ s' => Sampled first (intervalNs intervalS) (lagNs config) s') s := by
  obtain ⟨hstep, q, hfirst⟩ := hgrid
  set step := intervalNs intervalS with hinterval
  have htarget : nextPoint first step s = (q + s.added.length) * step := by
    rw [nextPoint, hfirst]; ring
  rw [turn, wp_bind, wp_readClock, wp_ite]
  refine ⟨fun _ => ?_, fun hdue => ?_⟩
  · rw [wp_bind]
    refine wp_mono wp_sleep (fun _ s' hsame => ?_) (fun _ s' hsame => h.kept hsame.1 hsame.2.1)
    obtain ⟨hadded, hstarted, -⟩ := hsame
    refine ⟨h.kept hadded hstarted, ?_⟩
    exact congrArg (fun l : List GridRecord => first + (l.length : ℤ) * step) hadded.symm
  · rw [wp_bind, wp_readClock, wp_bind]
    generalize hs₁ : ({ s with clockReads := s.clockReads + 1 + 1 } : GridSampler) = s₁
    have hadded : s₁.added = s.added := by rw [← hs₁]
    have hreads : s₁.clockReads = s.clockReads + 2 := by rw [← hs₁]
    have hsampled₁ : Sampled first step (lagNs config) s₁ := h.kept hadded (by rw [← hs₁])
    have hnext₁ : nextPoint first step s₁ = nextPoint first step s := by rw [nextPoint, nextPoint, hadded]
    obtain ⟨now, hnow⟩ : ∃ now, env.clock (s.clockReads + 1) = now := ⟨_, rfl⟩
    have hafter : nextPoint first step s ≤ now := hnow ▸ (not_lt.mp hdue).trans (env.clock_mono (Nat.le_succ _))
    have hpast : Past env now s₁ := by
      rw [Past, hreads, ← hnow]; exact env.clock_mono (Nat.le_succ _)
    have hq : q + s.added.length ≤ now / step := by
      rw [Int.le_ediv_iff_mul_le hstep, ← htarget]; exact hafter
    obtain ⟨m, hm⟩ : ∃ m : ℕ, now / step = q + s.added.length + m :=
      ⟨(now / step - (q + s.added.length)).toNat, by omega⟩
    have hpoint : floorGrid now step = nextPoint first step s + m * step := by
      rw [floorGrid, hm, htarget]; ring
    obtain ⟨hpoints, hlength, hle⟩ := pointsBefore_spec hstep m _ hpoint
    have hfloor : floorGrid now step ≤ now := Int.ediv_mul_le now hstep.ne'
    change wp (takePoint env config (env.clock (s.clockReads + 1)) (floorGrid (env.clock (s.clockReads + 1)) step)
      (pointsBefore step (floorGrid (env.clock (s.clockReads + 1)) step) (nextPoint first step s))) _ _ s₁
    rw [hnow]
    refine wp_mono (wp_takePoint hsampled₁ (hnext₁ ▸ hpoints) (by rw [hnext₁, hlength, hpoint]) hle hfloor hpast) ?_
      (fun _ _ hE => hE)
    rintro - s' ⟨hs', hlength', -⟩
    refine ⟨hs', ?_⟩
    have hdiv : floorGrid now step / step = q + s.added.length + m := by
      rw [floorGrid, hm, Int.mul_ediv_cancel _ hstep.ne']
    rw [nextTarget, hdiv, nextPoint, hlength', hadded, hlength, hfirst]
    push_cast; ring

theorem wp_loop (hgrid : OnGrid intervalS first) : ∀ (n : ℕ) {s : GridSampler},
    Sampled first (intervalNs intervalS) (lagNs config) s →
    wp (loop env config intervalS n (nextPoint first (intervalNs intervalS) s))
      (fun _ s' => Sampled first (intervalNs intervalS) (lagNs config) s')
      (fun _ s' => Sampled first (intervalNs intervalS) (lagNs config) s') s
  | 0, s, h => h
  | n + 1, s, h => by
    rw [loop, wp_bind, wp_readShutdown, wp_ite]
    have h' : Sampled first (intervalNs intervalS) (lagNs config)
        { s with shutdownReads := s.shutdownReads + 1 } := h.kept rfl rfl
    refine ⟨fun _ => h', fun _ => ?_⟩
    rw [wp_bind]
    refine wp_mono (wp_turn hgrid h') ?_ (fun _ _ hE => hE)
    rintro target s' ⟨hs', rfl⟩; exact wp_loop hgrid n hs'

end Runs

def firstPoint (env : Surroundings) (intervalS : ℕ) : ℤ := nextTarget intervalS (env.clock 0)

theorem sampled_samplerRun (env : Surroundings) (config : GridConfig) {intervalS : ℕ} (hinterval : 0 < intervalS)
    (n : ℕ) : Sampled (firstPoint env intervalS) (intervalNs intervalS) (lagNs config)
      (samplerRun env config intervalS n {}).2 := by
  have hstep : 0 < intervalNs intervalS := by
    have : (0 : ℤ) < intervalS := by exact_mod_cast hinterval
    exact mul_pos this (by norm_num)
  have hgrid : OnGrid intervalS (firstPoint env intervalS) := ⟨hstep, _, rfl⟩
  apply wp_final
  have hempty : Sampled (firstPoint env intervalS) (intervalNs intervalS) (lagNs config)
      { clockReads := 0 + 1 } := ⟨nofun, nofun, nofun⟩
  have hloop : wp (loop env _ _ _ _) _ _ _ := wp_loop hgrid n hempty
  have hnext : nextPoint (firstPoint env intervalS) (intervalNs intervalS) { clockReads := 0 + 1 } =
      nextTarget intervalS (env.clock 0) := by
    rw [nextPoint, firstPoint]; simp
  rwa [hnext] at hloop

theorem intOf_le (x : ℚ) : (intOf x : ℚ) ≤ max x 0 := by
  unfold intOf
  split
  · exact (Int.floor_le x).trans (le_max_left _ _)
  · next hneg =>
    have hle : ⌈x⌉ ≤ 0 := Int.ceil_le.mpr (by exact_mod_cast (not_le.mp hneg).le)
    exact le_trans (by exact_mod_cast hle) (le_max_right _ _)

/-- **Every grid point from the first one on gets one outcome, in order, and none is sampled late.**
-/
theorem samplerRun_gapless (env : Surroundings) (config : GridConfig) {intervalS : ℕ} (hinterval : 0 < intervalS)
    (n : ℕ) :
    env.clock 0 < firstPoint env intervalS ∧ firstPoint env intervalS ≤ env.clock 0 + intervalNs intervalS ∧
    intervalNs intervalS ∣ firstPoint env intervalS ∧
    ((samplerRun env config intervalS n {}).2.added.map GridRecord.grid =
      (List.range (samplerRun env config intervalS n {}).2.added.length).map
        fun (i : ℕ) => firstPoint env intervalS + i * intervalNs intervalS) ∧
    (∀ r ∈ (samplerRun env config intervalS n {}).2.added, r.grid ≤ r.recvNs) ∧
    ∀ f ∈ (samplerRun env config intervalS n {}).2.started, f.grid ≤ f.admitted ∧
      seconds (f.admitted - f.grid) ≤ max config.gridMaxStartLagS 0 := by
  obtain ⟨hlabels, hreceived, hadmitted⟩ := sampled_samplerRun env config hinterval n
  have hstep : 0 < intervalNs intervalS := by
    have : (0 : ℤ) < intervalS := by exact_mod_cast hinterval
    exact mul_pos this (by norm_num)
  have hmod := Int.emod_nonneg (env.clock 0) hstep.ne'
  have hlt := Int.emod_lt_of_pos (env.clock 0) hstep
  have hdiv := Int.mul_ediv_add_emod (env.clock 0) (intervalNs intervalS)
  have hfirst : firstPoint env intervalS =
      intervalNs intervalS * (env.clock 0 / intervalNs intervalS) + intervalNs intervalS := by
    rw [firstPoint, nextTarget]; ring
  refine ⟨by omega, by omega, Dvd.intro_left _ rfl, ?_, hreceived, ?_⟩
  · refine ext_getElem (by simp) ?_
    intro i hi hi'; simp only [getElem_map, getElem_range]; exact hlabels i (by simpa using hi)
  · intro f hf
    obtain ⟨hin, hlag⟩ := hadmitted f hf
    refine ⟨hin, ?_⟩
    have hlagQ : ((f.admitted - f.grid : ℤ) : ℚ) ≤ max (config.gridMaxStartLagS * 10 ^ 9) 0 :=
      le_trans (by exact_mod_cast hlag) (intOf_le _)
    rw [seconds, div_le_iff₀ (by norm_num)]
    rcases le_total 0 config.gridMaxStartLagS with hnonneg | hneg
    · rw [max_eq_left hnonneg]; rwa [max_eq_left (mul_nonneg hnonneg (by norm_num))] at hlagQ
    · rw [max_eq_right hneg, zero_mul]
      rwa [max_eq_right (mul_nonpos_of_nonpos_of_nonneg hneg (by norm_num))] at hlagQ

/-- A clock that goes on by 25 seconds, and a venue that fails every other fetch. -/
def slowSurroundings : Surroundings where
  clock := fun k => k * (25 * 10 ^ 9)
  clock_mono := by
    intro a b hab; exact mul_le_mul_of_nonneg_right (by exact_mod_cast hab) (by norm_num)
  shutdown := fun _ => false
  fetch := fun k => if k % 2 = 0 then .raised "ConnectionError: reset" else .response 200 "[]" none
  flush := fun _ => .written
  sleepCancelled := fun _ => false
  blocks := fun _ => []

def quickConfig : GridConfig where
  gridMaxStartLagS := 20
  rateLimitCooldownS := 60
  restMaxPendingRecords := 100

theorem firstPoint_slow : firstPoint slowSurroundings 60 = 60 * 10 ^ 9 := by
  norm_num [firstPoint, nextTarget, intervalNs, slowSurroundings]

theorem samplerRun_gapless_slow :
    ((samplerRun slowSurroundings quickConfig 60 5 {}).2.added.map GridRecord.grid =
      (List.range (samplerRun slowSurroundings quickConfig 60 5 {}).2.added.length).map
        fun (i : ℕ) => 60 * 10 ^ 9 + i * intervalNs 60) ∧
      ∀ f ∈ (samplerRun slowSurroundings quickConfig 60 5 {}).2.started, f.grid ≤ f.admitted ∧
        seconds (f.admitted - f.grid) ≤ max quickConfig.gridMaxStartLagS 0 := by
  obtain ⟨-, -, -, hlabels, -, hstarted⟩ :=
    samplerRun_gapless slowSurroundings quickConfig (show 0 < 60 by decide) 5
  rw [firstPoint_slow] at hlabels; exact ⟨hlabels, hstarted⟩

end CryptoPilot.Capture
