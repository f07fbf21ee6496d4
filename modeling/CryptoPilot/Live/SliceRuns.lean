/-
# SliceRuns — an intent executed slice by slice.

An order is sized from what is left of its intent, at the price the rules find.  When every order of
an intent fills completely, what the intent has executed is what it has posted, so the posted sizes
are the slices of its quantity, one after the other: they fill the whole quantity exactly if the
slicing does not strand, in every run that does not cut the intent off.
-/
import CryptoPilot.Lib.Slices
import CryptoPilot.Live.ExecutorSafety
import CryptoPilot.Live.ExecutorLabels

namespace CryptoPilot.Live

open CryptoPilot.Lib Proc List

/-! ## Sizes in steps -/

/-- How many slices a rest of `units` steps is cut into. -/
def sliceCount (filters : SymbolFilters) (maxSlices : ℤ) (price : ℚ) (units : ℕ) : ℕ :=
  if price ≤ 0 then 1
  else (max 1 (min maxSlices (max 1 ⌈toFloat (filters.stepSize * units * price / maxSliceNotional)⌉))).toNat

/-- A head slice of `units` steps may be posted. -/
def Postable (filters : SymbolFilters) (price : ℚ) (units : ℕ) : Prop :=
  filters.minQty ≤ filters.stepSize * units ∧ filters.minNotional ≤ filters.stepSize * units * price

/-- A rest of `units` steps may be posted; a reduction is exempt from the minimum notional. -/
def Admissible (filters : SymbolFilters) (reduceOnly : Bool) (price : ℚ) (units : ℕ) : Prop :=
  filters.minQty ≤ filters.stepSize * units ∧
    (reduceOnly = true ∨ filters.minNotional ≤ filters.stepSize * units * price)

instance (filters : SymbolFilters) (price : ℚ) : DecidablePred (Postable filters price) := fun _ =>
  inferInstanceAs (Decidable (_ ∧ _))

section Sizes

variable {filters : SymbolFilters} {maxSlices : ℤ} {reduceOnly : Bool} {price : ℚ} {units : ℕ}

theorem one_le_sliceCount : 1 ≤ sliceCount filters maxSlices price units := by
  unfold sliceCount
  split_ifs
  · exact le_rfl
  · omega

theorem price_pos_of_sliceCount (h : 1 < sliceCount filters maxSlices price units) : 0 < price := by
  by_contra hprice
  rw [sliceCount, if_pos (not_lt.mp hprice)] at h; exact absurd h (lt_irrefl 1)

theorem sliceQuantities_head {count : ℤ} (hcount : 1 ≤ count) (hstep : 0 < filters.stepSize) (hunits : 1 ≤ units) :
    ∃ rest, sliceQuantities (filters.stepSize * units) count filters.stepSize =
      .ok (filters.stepSize * sliceHead count.toNat units :: rest) := by
  have htotal : toIntegralValue .down (filters.stepSize * units / filters.stepSize) = (units : ℤ) := by
    rw [mul_div_cancel_left₀ _ hstep.ne']; simp [toIntegralValue]
  obtain ⟨k, rfl⟩ : ∃ k : ℕ, count = k := ⟨count.toNat, (Int.toNat_of_nonneg (by omega)).symm⟩
  have hk : 1 ≤ k := by omega
  have hhead : ((units : ℤ) / k + if ((0 : ℕ) : ℤ) < (units : ℤ) % k then 1 else 0) = (sliceHead k units : ℤ) := by
    unfold sliceHead
    by_cases hrest : 0 < units % k
    · rw [if_pos (by omega), if_pos hrest]; rfl
    · rw [if_neg (by omega), if_neg hrest]; rfl
  have hpos : 0 < (sliceHead k units : ℤ) := by exact_mod_cast sliceHead_pos hk hunits
  obtain ⟨n, hn⟩ : ∃ n, (min (k : ℤ) units).toNat = n + 1 := ⟨(min (k : ℤ) units).toNat - 1, by omega⟩
  unfold sliceQuantities
  simp only [htotal]
  rw [if_neg (by omega), if_neg (not_le.mpr hstep), if_neg (by rw [mul_comm]; exact fun h => h rfl),
    if_neg (by omega), hn, List.range_succ_eq_map, List.filterMap_cons]
  simp only [hhead, if_pos hpos]; exact ⟨_, rfl⟩

/-- **The head slice in steps.** -/
theorem postQuantity_units (hstep : 0 < filters.stepSize) (hunits : 1 ≤ units) :
    postQuantity (filters.stepSize * units) price filters.stepSize maxSlices =
      .ok (filters.stepSize * sliceHead (sliceCount filters maxSlices price units) units) := by
  unfold postQuantity sliceCount
  by_cases hprice : price ≤ 0
  · rw [if_pos hprice, if_pos hprice, sliceHead_one]
  · rw [if_neg hprice, if_neg hprice]
    set count := min maxSlices (max 1 ⌈toFloat (filters.stepSize * units * price / maxSliceNotional)⌉) with hcount
    by_cases hone : count ≤ 1
    · rw [if_pos hone, max_eq_left hone]; simp [sliceHead_one]
    · rw [if_neg hone, max_eq_right (by omega)]
      obtain ⟨rest, hslices⟩ := @sliceQuantities_head filters units count (by omega) hstep hunits
      rw [hslices]; rfl

/-- **The size of an order in steps**: the next slice of an admissible rest. -/
theorem sizeAt_units (hstep : 0 < filters.stepSize) (hunits : 1 ≤ units) :
    (Admissible filters reduceOnly price units →
      sizeAt filters maxSlices reduceOnly (filters.stepSize * units) price =
        .ok (some (filters.stepSize * nextSlice (sliceCount filters maxSlices price)
          (Postable filters price) units))) ∧
    (¬ Admissible filters reduceOnly price units →
      sizeAt filters maxSlices reduceOnly (filters.stepSize * units) price = .ok none) := by
  have hpost := @postQuantity_units filters maxSlices price units hstep hunits
  set head := sliceHead (sliceCount filters maxSlices price units) units with hhead
  have hhead_le : head ≤ units := sliceHead_le one_le_sliceCount
  constructor
  · rintro ⟨hqty, hnotional⟩
    rw [sizeAt, if_neg (not_lt.mpr hqty), hpost]
    show (if _ then _ else _ : Except Exc (Option ℚ)) = _
    by_cases hp : Postable filters price head
    · rw [if_neg (by rw [not_or, not_lt, not_lt]; exact hp), nextSlice, if_pos hp]; rfl
    · have hsmall : filters.stepSize * head < filters.minQty ∨ filters.stepSize * head * price <
        filters.minNotional := by
        rw [Postable, not_and_or, not_le, not_le] at hp; exact hp
      have hfits : ¬ (filters.stepSize * units * price < filters.minNotional ∧ reduceOnly = false) := by
        rintro ⟨hlow, hopen⟩
        rcases hnotional with hreduce | hnotional
        · rw [hopen] at hreduce; cases hreduce
        · exact absurd hnotional (not_le.mpr hlow)
      rw [if_pos hsmall, if_neg hfits, nextSlice, if_neg hp]; rfl
  · intro hnot
    rw [Admissible, not_and_or, not_or, not_le, not_le] at hnot
    rw [sizeAt]
    by_cases hqty : filters.stepSize * units < filters.minQty
    · rw [if_pos hqty]
    · rw [if_neg hqty, hpost]
      obtain ⟨hopen, hlow⟩ := hnot.resolve_left hqty
      show (if _ then _ else _ : Except Exc (Option ℚ)) = _
      -- a head of a rest under the minimum notional is under it too
      have hsmall : filters.stepSize * head * price < filters.minNotional := by
        rcases le_or_gt price 0 with hprice | hprice
        · have hall : head = units := by rw [hhead, sliceCount, if_pos hprice, sliceHead_one]
          rw [hall]; exact hlow
        · refine lt_of_le_of_lt ?_ hlow; gcongr
      rw [if_pos (Or.inr hsmall), if_pos ⟨hlow, by simpa using hopen⟩]
      rfl

end Sizes

def SlicingStrands (c : ExecConfig) (filters : SymbolFilters) (reduceOnly : Bool) (price : ℚ)
    (units : ℕ) : Prop :=
  Strands (sliceCount filters c.policy.maxSlices price) (Postable filters price)
    (Admissible filters reduceOnly price) units

/-! ## Orders that fill completely -/

/-- The order that an event posts for the intent at `owner`. -/
def Event.postedBy (owner : ℕ) (e : Event) : Option OrderParams :=
  match e.call with
  | .newOrder tag params => if tag.owner = owner then some params else none
  | _ => none

/-- The sizes posted for the intent at `owner`, the newest first. -/
def sizesOf (owner : ℕ) (trace : List Event) : List ℚ :=
  (trace.filterMap (Event.postedBy owner)).map OrderParams.quantity

/-- The reply accepts the order, or leaves its fate open. -/
def Reply.accepts : Reply → Bool
  | .error exc => decide (exc = .orderStatusUnknown)
  | .shadow => false
  | _ => true

/-- The simulated execution of the whole order is journaled. -/
def Simulated (trace : List Event) (params : OrderParams) : Prop :=
  ∃ e ∈ trace, ∃ f : JournalFill, e.Logs (.fill f) ∧ f.simulated = true ∧
    f.clientOrderId = some params.newClientOrderId ∧ f.quantity = params.quantity

/-- A post after which not every order fills completely at `price`. -/
inductive Spoils (c : ExecConfig) (price : ℚ) (k : Core) (trace : List Event) (p : Event)
    (params : OrderParams) : Prop where
  | mispriced (elsewhere : params.price ≠ price)
  | refused (refused : p.reply.accepts = false)
  | missed {e : Event} (mem : e ∈ trace) (misses : e.Misses params.newClientOrderId)
      (late : unknownOutcomeHorizonS c ≤ e.reading - p.reading)
  | short {e : Event} {x : ℚ} (live : p.reply ≠ .paper) (mem : e ∈ trace)
      (closed : e.ReportsClosed params.newClientOrderId x) (short : x < params.quantity)
  | unfilled (paper : p.reply = .paper) (never : ¬ Simulated trace params)
      (gone : ¬ k.Holds params.newClientOrderId)

def Spoilt (c : ExecConfig) (price : ℚ) (k : Core) (trace : List Event) : Prop :=
  ∃ p params, Posted trace k.index p params ∧ Spoils c price k trace p params

/-- **Where the newest order of an intent stands**, all the older ones having filled completely:
what is executed is what was posted, but for the rest of the newest. -/
inductive Out (k : Core) (t : List Event) : Prop where
  | idle (free : k.Free) (notPaper : k.paperActive = false)
      (sum : k.filledTotal = (sizesOf k.index t).sum)
  | active {p : Event} {params : OrderParams} (posted : Posted t k.index p params)
      (active : k.activeId = some params.newClientOrderId) (noUnresolved : k.unresolvedId = none)
      (kind : k.paperActive = true ↔ p.reply = .paper) (qty : k.activePostQty = params.quantity)
      (le : k.reportedExecuted ≤ k.activePostQty)
      (unfilled : p.reply = .paper → k.reportedExecuted = k.activePostQty ∨ ¬ Simulated t params)
      (sum : k.filledTotal - k.reportedExecuted + k.activePostQty = (sizesOf k.index t).sum)
  | unresolved {p : Event} {params : OrderParams} (posted : Posted t k.index p params)
      (noActive : k.activeId = none) (unresolved : k.unresolvedId = some params.newClientOrderId)
      (notPaper : k.paperActive = false) (live : p.reply ≠ .paper)
      (dated : p.reading = k.unresolvedAt) (qty : k.unresolvedPostQty = params.quantity)
      (pos : 0 < params.quantity) (sum : k.filledTotal + params.quantity = (sizesOf k.index t).sum)

section Orders

variable {c : ExecConfig} {timed : Bool} {price : ℚ} {k : Core} {t : List Event} {e p : Event}
  {params : OrderParams} {owner : ℕ} {a a' : Abs} {orderId : String}

theorem sizesOf_cons_quiet (h : e.PostsNothing) : sizesOf owner (e :: t) = sizesOf owner t := by
  have hnone : e.postedBy owner = none := by
    unfold Event.postedBy
    cases hcall : e.call with
    | newOrder tag params => rw [Event.PostsNothing, hcall] at h; cases h
    | _ => rfl
  rw [sizesOf, filterMap_cons_none hnone, sizesOf]

theorem Simulated.of_cons (h : Simulated (e :: t) params)
    (he : ∀ f : JournalFill, e.Logs (.fill f) → f.simulated = true →
      f.clientOrderId ≠ some params.newClientOrderId) : Simulated t params := by
  obtain ⟨e', hmem, f, hlogs, hsim, hid, hqty⟩ := h
  rcases mem_cons.mp hmem with rfl | hmem
  · exact absurd hid (he f hlogs hsim)
  · exact ⟨e', hmem, f, hlogs, hsim, hid, hqty⟩

/-- An event posts nothing for the intent, and simulates none of its orders. -/
structure Aside (k : Core) (e : Event) (t : List Event) : Prop where
  quiet : sizesOf k.index (e :: t) = sizesOf k.index t
  others : ∀ p params, Posted t k.index p params → ∀ f : JournalFill, e.Logs (.fill f) →
    f.simulated = true → f.clientOrderId ≠ some params.newClientOrderId

/-- **A spoilt run stays so**, as long as only orders that are held are simulated. -/
theorem Spoilt.cons (h : Spoilt c price k t) (he : ∀ p params, Posted t k.index p params →
      ∀ f : JournalFill, e.Logs (.fill f) → f.simulated = true →
      f.clientOrderId = some params.newClientOrderId → k.Holds params.newClientOrderId) :
    Spoilt c price k (e :: t) := by
  obtain ⟨p, params, hposted, hspoils⟩ := h
  refine ⟨p, params, hposted.cons, ?_⟩
  cases hspoils with
  | mispriced elsewhere => exact .mispriced elsewhere
  | refused refused => exact .refused refused
  | missed mem misses late => exact .missed (mem_cons_of_mem e mem) misses late
  | short live mem closed short => exact .short live (mem_cons_of_mem e mem) closed short
  | unfilled paper never gone =>
    refine .unfilled paper (fun hsim => never (hsim.of_cons fun f hlogs hf hid => ?_)) gone
    exact gone (he p params hposted f hlogs hf hid)

theorem Spoilt.core {k' : Core} (h : Spoilt c price k t) (hindex : k'.index = k.index)
    (hholds : ∀ orderId, (∃ p ∈ t, p.PostsOrder orderId) → k'.Holds orderId → k.Holds orderId) :
    Spoilt c price k' t := by
  obtain ⟨p, params, hposted, hspoils⟩ := h
  refine ⟨p, params, hindex ▸ hposted, ?_⟩
  cases hspoils with
  | mispriced elsewhere => exact .mispriced elsewhere
  | refused refused => exact .refused refused
  | missed mem misses late => exact .missed mem misses late
  | short live mem closed short => exact .short live mem closed short
  | unfilled paper never gone =>
    obtain ⟨hmem, tag, hcall, -⟩ := hposted
    exact .unfilled paper never fun h => gone (hholds _ ⟨p, hmem, tag, params, hcall, rfl⟩ h)

theorem Spoilt.aside (h : Spoilt c price k t) (he : Aside k e t) : Spoilt c price k (e :: t) :=
  h.cons fun p params hposted f hlogs hsim hid => absurd hid (he.others p params hposted f hlogs hsim)

theorem Out.cons (h : Out k t) (he : Aside k e t) : Out k (e :: t) := by
  cases h with
  | idle free notPaper sum => exact .idle free notPaper (by rw [he.quiet]; exact sum)
  | active posted active noUnresolved kind qty le unfilled sum =>
    refine .active posted.cons active noUnresolved kind qty le (fun hpaper => ?_)
      (by rw [he.quiet]; exact sum)
    refine (unfilled hpaper).imp_right fun hnever hsim => hnever ?_
    exact hsim.of_cons (he.others _ _ posted)
  | unresolved posted noActive unresolved notPaper live dated qty pos sum =>
    exact .unresolved posted.cons noActive unresolved notPaper live dated qty pos
      (by rw [he.quiet]; exact sum)

theorem Aside.of_noFill (he : e.PostsNothing)
    (hno : ∀ f : JournalFill, e.Logs (.fill f) → f.simulated ≠ true) : Aside k e t :=
  ⟨sizesOf_cons_quiet he, fun _ _ _ f hlogs hsim => absurd hsim (hno f hlogs)⟩

theorem Aside.of_logs {record : Record} (hlogs : e.Logs record)
    (hno : ∀ f : JournalFill, record = .fill f → f.simulated ≠ true) : Aside k e t :=
  .of_noFill hlogs.postsNothing fun f hfill =>
    hno f (Call.append.inj (hlogs.1.symm.trans hfill.1))

theorem Out.annotate (h : Out k t) (phase : Phase) (q : ℚ) (status : Option OutcomeStatus)
    (reason : Option BlockReason) :
    Out { k with phase := phase, passiveQuote := q, terminalStatus := status,
                 blockReason := reason } t := by
  cases h with
  | idle h₁ h₂ h₃ => exact .idle h₁ h₂ h₃
  | active h₁ h₂ h₃ h₄ h₅ h₆ h₇ h₈ => exact .active h₁ h₂ h₃ h₄ h₅ h₆ h₇ h₈
  | unresolved h₁ h₂ h₃ h₄ h₅ h₆ h₇ h₈ h₉ => exact .unresolved h₁ h₂ h₃ h₄ h₅ h₆ h₇ h₈ h₉

theorem Out.book {q cumulative : ℚ} (h : Out k t) (hactive : k.activeId = some orderId)
    (hsum : cumulative - k.reportedExecuted = q) (hle : cumulative ≤ k.activePostQty)
    (hwhole : k.paperActive = true → cumulative = k.activePostQty) : Out (k.book q cumulative) t := by
  cases h with
  | idle free => rw [free.1] at hactive; cases hactive
  | unresolved _ noActive => rw [noActive] at hactive; cases hactive
  | active posted active noUnresolved kind qty le unfilled sum =>
    refine .active posted active noUnresolved kind qty hle
      (fun hpaper => .inl (hwhole (kind.mpr hpaper))) ?_
    show k.filledTotal + q - cumulative + k.activePostQty = (sizesOf k.index t).sum; linarith

/-- **An order is let go executed completely**, or it spoils the run. -/
theorem Out.release (h : Out a.core a.trace) (hactive : a.core.activeId = some orderId)
    (hwhy : a.core.paperActive = true ∨ a.Settles orderId)
    (hfits : (sizesOf a.core.index a.trace).sum ≤ a.core.intent.quantity) :
    Out a.core.release a.trace ∨ Spoilt c price a.core.release a.trace := by
  cases h with
  | idle free => rw [free.1] at hactive; cases hactive
  | unresolved _ noActive => rw [noActive] at hactive; cases hactive
  | @active p params posted active noUnresolved kind qty le unfilled sum =>
    obtain rfl := Option.some.inj (hactive.symm.trans active)
    by_cases hall : a.core.reportedExecuted = a.core.activePostQty
    · refine .inl (.idle ⟨rfl, noUnresolved⟩ rfl ?_)
      show a.core.filledTotal = (sizesOf a.core.index a.trace).sum; linarith
    · have hrest : a.core.reportedExecuted < a.core.activePostQty := lt_of_le_of_ne le hall
      refine .inr ⟨p, params, posted, ?_⟩
      by_cases hpaper : p.reply = .paper
      · refine .unfilled hpaper ((unfilled hpaper).resolve_left hall) ?_
        rintro (hheld | hheld)
        · cases hheld
        · rw [show a.core.release.unresolvedId = none from noUnresolved] at hheld; cases hheld
      · have hlive : a.core.paperActive ≠ true := fun h => hpaper (kind.mp h)
        rcases hwhy.resolve_left hlive with ⟨e, mem, x, closed, hx⟩ | hfull | hfilled
        · exact .short hpaper mem closed (by linarith)
        · exact absurd hfull (not_le.mpr hrest)
        · linarith

theorem Out.adopt (h : Out k t) (hunresolved : k.unresolvedId = some orderId) : Out k.adopt t := by
  cases h with
  | idle free => rw [free.2] at hunresolved; cases hunresolved
  | active _ _ noUnresolved => rw [noUnresolved] at hunresolved; cases hunresolved
  | unresolved posted noActive unresolved notPaper live dated qty pos sum =>
    refine .active posted unresolved rfl ?_ qty ?_ (fun hpaper => absurd hpaper live) ?_
    · rw [show k.adopt.paperActive = false from notPaper]; exact ⟨nofun, fun h => absurd h live⟩
    · show (0 : ℚ) ≤ k.unresolvedPostQty
      rw [qty]; exact pos.le
    · show k.filledTotal - 0 + k.unresolvedPostQty = _
      rw [sub_zero, qty]; exact sum

theorem Out.writeOff (h : Out a.core a.trace) (hunresolved : a.core.unresolvedId = some orderId)
    (hlast : lastAnswer a.trace orderId = some e) (hlate : a.MissedLate c orderId e) :
    Spoilt c price { a.core with unresolvedId := none } a.trace := by
  cases h with
  | idle free => rw [free.2] at hunresolved; cases hunresolved
  | active _ _ noUnresolved => rw [noUnresolved] at hunresolved; cases hunresolved
  | unresolved posted noActive unresolved notPaper live dated qty pos sum =>
    obtain rfl := Option.some.inj (hunresolved.symm.trans unresolved)
    refine ⟨_, _, posted, .missed (mem_of_find?_eq_some hlast) hlate.1 ?_⟩
    rw [dated]; exact hlate.2

/-- **A move of the intent, short of posting**, leaves its newest order so, or spoils the run. -/
theorem Step.out (hs : Step c timed a a') (h : Out a.core a.trace)
    (hfits : (sizesOf a.core.index a.trace).sum ≤ a.core.intent.quantity) :
    Out a'.core a'.trace ∨ Spoilt c price a'.core a'.trace := by
  cases hs with
  | heard quiet =>
    refine .inl (h.cons (.of_noFill (Event.postsNothing_of_quiet quiet) fun f hlogs => ?_))
    exact absurd hlogs (not_logs_of_quiet quiet _)
  | failedAppend call failed =>
    exact .inl (h.cons (.of_noFill (Event.postsNothing_of_call call rfl)
      fun f hlogs => absurd hlogs.2 failed))
  | tick call =>
    refine .inl (h.cons (.of_noFill (Event.postsNothing_of_call call rfl) fun f hlogs => ?_))
    rw [hlogs.1] at call; cases call
  | schema logs | submit logs | terminal cause logs =>
    exact .inl (h.cons (.of_logs logs (by rintro f ⟨⟩)))
  | @bookFill e r f orderId x active live mem report new bounded logs id qty cumulative real =>
    have haside : Aside a.core e a.trace := .of_logs logs fun f' hf => by
      rw [← Record.fill.inj hf, real]; nofun
    refine .inl ((h.cons haside).book active rfl bounded fun hpaper => ?_)
    rw [live] at hpaper; cases hpaper
  | @paperFill e f orderId q active paper pos whole logs =>
    have hbook : Out (a.core.book q (a.core.reportedExecuted + q)) a.trace :=
      h.book active (by ring) whole.le fun _ => whole
    have hsizes : sizesOf a.core.index (e :: a.trace) = sizesOf a.core.index a.trace :=
      sizesOf_cons_quiet logs.postsNothing
    left
    cases hbook with
    | idle free => exact absurd free.1 (by rw [show (a.core.book _ _).activeId = _ from active]; nofun)
    | unresolved _ noActive =>
      exact absurd noActive (by rw [show (a.core.book _ _).activeId = _ from active]; nofun)
    | active h₁ h₂ h₃ h₄ h₅ h₆ _ h₈ =>
      refine .active h₁.cons h₂ h₃ h₄ h₅ h₆ (fun _ => .inl whole) ?_
      exact h₈.trans (congrArg sum hsizes.symm)
  | release active why => exact h.release active why hfits
  | adopt unresolved => exact .inl (h.adopt unresolved)
  | writeOff unresolved last late => exact .inr (h.writeOff unresolved last late)
  | repeg inBand | escalate | finish running | block blocked => exact .inl (h.annotate _ _ _ _)

/-- **A move of the intent does not mend a spoilt run.** -/
theorem Step.spoilt (hs : Step c timed a a') (h : Spoilt c price a.core a.trace) :
    Spoilt c price a'.core a'.trace := by
  have hlonger : Spoilt c price a.core a'.trace := by
    rcases hs.journals with heq | ⟨e, heq, -, hfill⟩ <;> rw [heq]
    · exact h
    · refine h.cons fun p params hposted f hlogs hf hid => ?_
      obtain ⟨orderId, hid', hholds, -⟩ := hfill f hlogs
      exact Option.some.inj (hid'.symm.trans hid) ▸ hholds
  exact hlonger.core hs.index_eq fun orderId _ => hs.holds

theorem Out.of_free (h : Out k t) (hfree : k.Free) :
    k.paperActive = false ∧ k.filledTotal = (sizesOf k.index t).sum := by
  cases h with
  | idle free notPaper sum => exact ⟨notPaper, sum⟩
  | active _ active => rw [hfree.1] at active; cases active
  | unresolved _ _ unresolved => rw [hfree.2] at unresolved; cases unresolved

theorem SendReady.sizesOf_cons {tag : OrderTag} (hready : SendReady c a e tag params) :
    sizesOf a.core.index (e :: t) = params.quantity :: sizesOf a.core.index t := by
  have hpost : e.postedBy a.core.index = some params := by
    simp only [Event.postedBy, hready.call, hready.owner, if_true]
  rw [sizesOf, filterMap_cons_some hpost, map_cons, ← sizesOf]

/-- **Posting an order**: it becomes the newest one, or it is refused. -/
theorem Send.out (hs : Send c e a a') (h : Out a.core a.trace)
    (hfresh : ∀ params : OrderParams, (∀ p ∈ a.trace, ¬ p.PostsOrder params.newClientOrderId) →
      ¬ Simulated a.trace params) (hids : IdsKept a.sys) :
    Out a'.core a'.trace ∧ a'.core.terminalStatus = none ∨ Spoilt c price a'.core a'.trace := by
  obtain ⟨tag, params, hready, rfl⟩ := hs
  obtain ⟨hpaper, hsum⟩ := h.of_free ⟨hready.noActive, hready.noUnresolved⟩
  have hposted : Posted (e :: a.trace) a.core.index e params :=
    ⟨mem_cons_self, tag, hready.call, hready.owner⟩
  have hsizes : (sizesOf a.core.index (e :: a.trace)).sum = a.core.filledTotal + params.quantity := by
    rw [hready.sizesOf_cons, sum_cons, ← hsum]; ring
  have hrefused : ∀ k : Core, k.index = a.core.index → e.reply.accepts = false →
      Spoilt c price k (e :: a.trace) :=
    fun k hk hreply => ⟨e, params, hk ▸ hposted, .refused hreply⟩
  have hactivate : ∀ paper : Bool, (paper = true ↔ e.reply = .paper) →
      Out (a.core.activate params.newClientOrderId params.quantity paper) (e :: a.trace) := by
    intro paper hkind
    refine .active hposted rfl hready.noUnresolved ?_ rfl hready.qty_pos.le (fun _ => .inr ?_) ?_
    · show (if paper = true then true else a.core.paperActive) = true ↔ _
      rw [hpaper, ← hkind]
      cases paper <;> simp
    · intro hsim
      refine hfresh params (hready.fresh hids).1 (hsim.of_cons fun f hlogs _ => ?_)
      exact absurd hlogs (not_logs_of_newOrder hready.call _)
    · show a.core.filledTotal - 0 + params.quantity = (sizesOf a.core.index (e :: a.trace)).sum
      rw [hsizes, sub_zero]
  show Out (a.core.afterReply _ params.quantity a.reading e.reply) (e :: a.trace) ∧
    (a.core.afterReply _ params.quantity a.reading e.reply).terminalStatus = none ∨
    Spoilt c price (a.core.afterReply _ params.quantity a.reading e.reply) (e :: a.trace)
  cases hreply : e.reply with
  | error exc =>
    by_cases hunknown : exc = .orderStatusUnknown
    · subst hunknown
      exact .inl ⟨.unresolved hposted hready.noActive rfl hpaper (by rw [hreply]; nofun) hready.dated
        rfl hready.qty_pos hsizes.symm, hready.running⟩
    · exact .inr (hrefused _ (Core.afterReply_index ..)
        (by rw [hreply]; exact decide_eq_false hunknown))
  | shadow => exact .inr (hrefused _ rfl (by rw [hreply]; rfl))
  | paper => exact .inl ⟨hactivate true (by simp [hreply]), hready.running⟩
  | _ => exact .inl ⟨hactivate false (by simp [hreply]), hready.running⟩

theorem Step.remaining_le (hs : Step c timed a a') : a'.core.remaining ≤ a.core.remaining := by
  have hbook : ∀ {q cumulative : ℚ}, 0 ≤ q →
      (a.core.book q cumulative).remaining ≤ a.core.remaining := by
    intro q cumulative hq
    show a.core.intent.quantity - (a.core.filledTotal + q) ≤
      a.core.intent.quantity - a.core.filledTotal
    linarith
  cases hs with
  | bookFill active live mem report new => exact hbook (sub_nonneg.mpr new.le)
  | paperFill active paper pos => exact hbook pos.le
  | _ => exact le_rfl

theorem Step.ends (hs : Step c timed a a') : a'.core.terminalStatus = a.core.terminalStatus ∨
    (a.core.terminalStatus = none ∧ ∃ status, a'.core.terminalStatus = some status ∧
      Ending a status ∧ a'.core.remaining = a.core.remaining ∧ (a.core.Free ↔ a'.core.Free)) ∨
    gateState a.closeLeg = .blocked ∧ a' = a.block := by
  cases hs with
  | finish running ending => exact .inr (.inl ⟨running, _, rfl, ending, rfl, Iff.rfl⟩)
  | block blocked => exact .inr (.inr ⟨blocked, rfl⟩)
  | _ => exact .inl rfl

theorem Abs.Refused.spoilt (h : a.Refused) (hs : Step c timed a a') :
    Spoilt c price a'.core a'.trace := by
  obtain ⟨e, he, tag, params, exc, hcall, howner, hreply, hknown⟩ := h
  refine ⟨e, params, ⟨hs.trace_suffix.subset he, tag, hcall, howner.trans hs.index_eq.symm⟩,
    .refused ?_⟩
  rw [hreply]; exact decide_eq_false hknown

end Orders

/-! ## Runs -/

/-- One move of a run: around the intents, or of one of them. -/
inductive RunMove {n : ℕ} (c : ExecConfig) (r r' : AbsRun n) : Prop where
  | around (move : Ambient r r')
  | step {i : Fin n} (move : r.Moves (Step c true) i r')
  | send {i : Fin n} {e : Event} (move : r.Moves (Send c e) i r')

abbrev RunReach {n : ℕ} (c : ExecConfig) : AbsRun n → AbsRun n → Prop :=
  Relation.ReflTransGen (RunMove c)

/-- What is left of the intent is too small to be posted at the price. -/
def TooSmall (c : ExecConfig) (k : Core) (price : ℚ) : Prop :=
  k.Free ∧ ∃ filters, k.filters = some filters ∧ k.sizeAt c filters price = .ok none

/-- **A move that cuts the intent off.** -/
inductive CutsOff (c : ExecConfig) (price : ℚ) (a a' : Abs) : Prop where
  /-- it ends the intent on a rest that is not too small: the window is over, a shutdown, an abort,
  the IOC attempts are used up, or increases are frozen -/
  | early (move : Step c true a a') (running : a.core.terminalStatus = none)
      (ended : a'.core.terminalStatus ≠ none) (left : 0 < a.core.remaining)
      (postable : ¬ TooSmall c a.core price)
  /-- the close leg is lost -/
  | blocked (gate : gateState a.closeLeg = .blocked) (block : a' = a.block)

/-- **The run cuts the intent off** on its way from `start` to `final`. -/
def CutShort {n : ℕ} (c : ExecConfig) (start final : AbsRun n) (i : Fin n) (price : ℚ) : Prop :=
  ∃ r r', RunReach c start r ∧ r.Moves (CutsOff c price) i r' ∧ RunReach c r' final

/-- **An intent of `units` steps sliced down to `left`**: the rest was posted and has filled, but
for the newest order, and the quantity strands exactly if what is left is stranded or strands. -/
structure Sliced {n : ℕ} (c : ExecConfig) (intents : Fin n → OrderIntent) (filters : SymbolFilters)
    (price : ℚ) (units : ℕ) (start r : AbsRun n) (i : Fin n) (left : ℕ) : Prop where
  out : Out (r.cores i) r.trace
  rest : (intents i).quantity - (sizesOf i r.trace).sum = filters.stepSize * left
  strands : SlicingStrands c filters (intents i).reduceOnly price units ↔
    (0 < left ∧ ¬ Admissible filters (intents i).reduceOnly price left) ∨
      SlicingStrands c filters (intents i).reduceOnly price left
  ended : ∀ status, (r.cores i).terminalStatus = some status →
    (status = .filled ∧ (r.cores i).remaining ≤ 0) ∨
      (0 < left ∧ ¬ Admissible filters (intents i).reduceOnly price left) ∨
      CutShort c start r i price

/-- **A run of full fills of intent `i`**, unless it is spoilt. -/
structure FillRun {n : ℕ} (c : ExecConfig) (intents : Fin n → OrderIntent) (filters : SymbolFilters)
    (price : ℚ) (units : ℕ) (start : AbsRun n) (i : Fin n) (r : AbsRun n) : Prop where
  labelled : Labelled r
  reach : RunReach c start r
  sliced : Spoilt c price (r.cores i) r.trace ∨
    ∃ left, Sliced c intents filters price units start r i left

/-- The intent has ended, and not FILLED. -/
def Core.Short (k : Core) : Prop := ∃ status, k.terminalStatus = some status ∧ status ≠ .filled

section Runs

variable {n : ℕ} {c : ExecConfig} {intents : Fin n → OrderIntent} {filters : SymbolFilters}
  {price : ℚ} {units left : ℕ} {start r r' : AbsRun n} {i j : Fin n} {e : Event}

theorem CutShort.later (h : CutShort c start r i price) (hmove : RunMove c r r') :
    CutShort c start r' i price := by
  obtain ⟨r₀, r₁, hbefore, hcut, hafter⟩ := h; exact ⟨r₀, r₁, hbefore, hcut, hafter.tail hmove⟩

/-- An end is final, but for a lost close leg. -/
theorem RunMove.short (hmove : RunMove c r r') (h : (r.cores i).Short) : (r'.cores i).Short := by
  have hown : ∀ {R : Abs → Abs → Prop} {j : Fin n}, r.Moves R j r' →
      (R (r.view j) (r'.view j) → (r.cores j).Short → (r'.cores j).Short) → (r'.cores i).Short := by
    intro R j hmoves hkeeps
    by_cases hij : i = j
    · subst hij; exact hkeeps hmoves.own h
    · rw [hmoves.others i hij]; exact h
  cases hmove with
  | around move =>
    have hcores : r'.cores = r.cores := by cases move <;> rfl
    rwa [hcores]
  | @step j move =>
    refine hown move fun hs hshort => ?_
    obtain ⟨status, hended, hne⟩ := hshort
    rcases hs.ends with hsame | ⟨hrunning, -⟩ | ⟨-, hblock⟩
    · exact ⟨status, hsame.trans hended, hne⟩
    · cases hrunning.symm.trans hended
    · exact ⟨.residual, congrArg (fun a => a.core.terminalStatus) hblock, nofun⟩
  | @send j e move =>
    refine hown move fun hs hshort => ?_
    obtain ⟨tag, params, hready, -⟩ := hs
    obtain ⟨status, hended, -⟩ := hshort; cases hready.running.symm.trans hended

theorem CutShort.short (h : CutShort c start r i price) : (r.cores i).Short := by
  obtain ⟨r₀, r₁, -, hcut, hafter⟩ := h
  have hshort : (r₁.cores i).Short := by
    cases hcut.own with
    | early move running ended left =>
      rcases move.ends with hsame | ⟨-, status, hended, hending, -⟩ | ⟨-, hblock⟩
      · exact absurd (hsame.trans running) ended
      · cases hending with
        | whole filled => exact absurd filled (not_le.mpr left)
        | early _ short | refused _ short => exact ⟨status, hended, short⟩
      · exact ⟨.residual, congrArg (fun a => a.core.terminalStatus) hblock, nofun⟩
    | blocked gate block => exact ⟨.residual, congrArg (fun a => a.core.terminalStatus) block, nofun⟩
  induction hafter with
  | refl => exact hshort
  | tail _ hmove ih => exact hmove.short ih

variable {params : OrderParams}

/-- An order posted for one intent is not held by another. -/
theorem Labelled.apart (h : Labelled r) (hwired : Wired c intents r) {orderId : String} {p : Event}
    (hholds : (r.cores j).Holds orderId) (hposted : Posted r.trace i p params)
    (hid : params.newClientOrderId = orderId) : j = i := by
  obtain ⟨q, hq, tag, params', hcall, howner, hid', -⟩ := h.held j orderId hholds
  obtain ⟨hp, tag', hcall', howner'⟩ := hposted
  obtain rfl := h.ids.post_unique hq hp ⟨tag, params', hcall, hid'⟩ ⟨tag', params, hcall', hid⟩
  obtain ⟨rfl, -⟩ := Call.newOrder.inj (hcall.symm.trans hcall')
  rw [hwired.index] at howner; exact Fin.ext (howner.symm.trans howner')

theorem Labelled.posted_of_simulated (h : Labelled r) (hsim : Simulated r.trace params) :
    ∃ p ∈ r.trace, p.PostsOrder params.newClientOrderId := by
  obtain ⟨e, he, f, hlogs, -, hid, -⟩ := hsim
  rcases h.booked e he f hlogs with ⟨-, hnone⟩ | ⟨_, orderId, _, hid',
    ⟨p, hp, tag, params', hcall, -, hposted, -⟩, -⟩
  · cases hnone.symm.trans hid
  · exact ⟨p, hp, tag, params', hcall, hposted.trans (Option.some.inj (hid'.symm.trans hid))⟩

/-- What the other intents do, and what happens around them. -/
theorem FillRun.aside (h : FillRun c intents filters price units start i r)
    (hlabelled : Labelled r') (hmove : RunMove c r r') (hwired : Wired c intents r)
    (hcore : r'.cores i = r.cores i) (htrace : r'.trace = r.trace ∨
      ∃ e, r'.trace = e :: r.trace ∧ Aside (r.cores i) e r.trace) :
    FillRun c intents filters price units start i r' := by
  refine ⟨hlabelled, h.reach.tail hmove, ?_⟩
  rcases h.sliced with hspoilt | ⟨left, hsliced⟩
  · left
    rw [hcore]
    rcases htrace with heq | ⟨e, heq, haside⟩ <;> rw [heq]
    · exact hspoilt
    · exact hspoilt.aside haside
  · refine .inr ⟨left, ?_, ?_, hsliced.strands, fun status hstatus => ?_⟩
    · rw [hcore]
      rcases htrace with heq | ⟨e, heq, haside⟩ <;> rw [heq]
      · exact hsliced.out
      · exact hsliced.out.cons haside
    · rw [← hsliced.rest]
      rcases htrace with heq | ⟨e, heq, haside⟩ <;> rw [heq]
      rw [← hwired.index i, haside.quiet]
    · rw [hcore] at hstatus ⊢
      exact (hsliced.ended status hstatus).imp_right (Or.imp_right fun h => h.later hmove)

theorem FillRun.around (h : FillRun c intents filters price units start i r) (hmove : Ambient r r')
    (hwired : Wired c intents r) : FillRun c intents filters price units start i r' := by
  obtain ⟨e, htrace, hquiet, hfill, -⟩ := hmove.journals
  refine h.aside (h.labelled.ambient hmove) (.around hmove) hwired (by cases hmove <;> rfl)
    (.inr ⟨e, htrace, sizesOf_cons_quiet hquiet, fun p params _ f hlogs _ hid => ?_⟩)
  rw [(hfill f hlogs).2] at hid; cases hid

section

variable (h : Sliced c intents filters price units start r i left)

include h

theorem Sliced.fits (hstep : 0 < filters.stepSize) (hwired : Wired c intents r) :
    (sizesOf (r.cores i).index r.trace).sum ≤ (r.cores i).intent.quantity := by
  rw [hwired.index i, hwired.intent i]
  have hnonneg : 0 ≤ filters.stepSize * (left : ℚ) := by positivity
  linarith [h.rest]

/-- What is left of an intent with no order out is what is left to be posted. -/
theorem Sliced.remaining_eq (hwired : Wired c intents r) (hfree : (r.cores i).Free) :
    (r.cores i).remaining = filters.stepSize * left := by
  rw [← h.rest, Core.remaining, hwired.intent i, (h.out.of_free hfree).2, hwired.index i]

/-- A rest that is too small to be posted is inadmissible. -/
theorem Sliced.tooSmall (hstep : 0 < filters.stepSize)
    (hfilters : c.filters.lookup (intents i).symbol = some filters) (hwired : Wired c intents r)
    (hleft : 0 < (r.cores i).remaining) (hsmall : TooSmall c (r.cores i) price) :
    0 < left ∧ ¬ Admissible filters (intents i).reduceOnly price left := by
  obtain ⟨hfree, filters', hlookup, hsize⟩ := hsmall
  obtain rfl := Option.some.inj (hlookup.symm.trans ((hwired.filters i).trans hfilters))
  rw [Core.sizeAt, h.remaining_eq hwired hfree, hwired.intent i] at hsize
  rw [h.remaining_eq hwired hfree] at hleft
  have hunits : 1 ≤ left := by exact_mod_cast (mul_pos_iff_of_pos_left hstep).mp hleft
  refine ⟨hunits, fun hadm => ?_⟩
  rw [(sizeAt_units hstep hunits).1 hadm] at hsize; cases hsize

end

/-- **A move of the intent itself.** -/
theorem Sliced.step (h : Sliced c intents filters price units start r i left)
    (hmoves : r.Moves (Step c true) i r') (hstep : 0 < filters.stepSize)
    (hfilters : c.filters.lookup (intents i).symbol = some filters) (hwired : Wired c intents r)
    (hreach : RunReach c start r) :
    Spoilt c price (r'.cores i) r'.trace ∨ Sliced c intents filters price units start r' i left := by
  have hs := hmoves.own
  rcases (hs.out h.out (h.fits hstep hwired) : _ ∨ Spoilt c price _ _) with hout | hspoilt
  swap
  · exact .inl hspoilt
  have hsizes : sizesOf i r'.trace = sizesOf i r.trace := by
    rcases hs.journals with heq | ⟨e, heq, hquiet, -⟩
    · rw [show r'.trace = r.trace from heq]
    · rw [show r'.trace = e :: r.trace from heq, sizesOf_cons_quiet hquiet]
  have hnow : (∀ status, (r'.cores i).terminalStatus = some status →
      (status = .filled ∧ (r'.cores i).remaining ≤ 0) ∨
        (0 < left ∧ ¬ Admissible filters (intents i).reduceOnly price left) ∨
        CutShort c start r' i price) → Sliced c intents filters price units start r' i left :=
    fun hended => ⟨hout, by rw [hsizes]; exact h.rest, h.strands, hended⟩
  have hcut : CutsOff c price (r.view i) (r'.view i) → CutShort c start r' i price := fun hcut =>
    ⟨r, r', hreach, ⟨hcut, hmoves.others, hmoves.deps⟩, .refl⟩
  rcases hs.ends with hsame | ⟨hrunning, status, hended, hending, hremaining, -⟩ | ⟨hgate, hblock⟩
  · refine .inr (hnow fun status hstatus => ?_)
    exact (h.ended status (hsame.symm.trans hstatus)).imp
      (fun hfilled => ⟨hfilled.1, hs.remaining_le.trans hfilled.2⟩)
      (Or.imp_right fun h => h.later (.step hmoves))
  · cases hending with
    | whole filled =>
      refine .inr (hnow fun status' hstatus => .inl ⟨?_, hremaining.trans_le filled⟩)
      exact Option.some.inj (hstatus.symm.trans hended)
    | early hleft =>
      refine .inr (hnow fun _ _ => .inr ?_)
      by_cases hsmall : TooSmall c (r.cores i) price
      · exact .inl (h.tooSmall hstep hfilters hwired hleft hsmall)
      · refine .inr (hcut (.early hs hrunning (fun hnone => ?_) hleft hsmall))
        cases hnone.symm.trans hended
    | refused refused => exact .inl (refused.spoilt hs)
  · exact .inr (hnow fun _ _ => .inr (.inr (hcut (.blocked hgate hblock))))

theorem FillRun.step (h : FillRun c intents filters price units start i r)
    (hmoves : r.Moves (Step c true) j r') (hstep : 0 < filters.stepSize)
    (hfilters : c.filters.lookup (intents i).symbol = some filters) (hwired : Wired c intents r) :
    FillRun c intents filters price units start i r' := by
  by_cases hij : j = i
  · subst hij
    refine ⟨h.labelled.step hmoves, h.reach.tail (.step hmoves), ?_⟩
    rcases h.sliced with hspoilt | ⟨left, hsliced⟩
    · exact .inl (hmoves.own.spoilt hspoilt)
    · exact (hsliced.step hmoves hstep hfilters hwired h.reach).imp_right fun h => ⟨left, h⟩
  · refine h.aside (h.labelled.step hmoves) (.step hmoves) hwired (hmoves.others i (Ne.symm hij)) ?_
    rcases hmoves.own.journals with heq | ⟨e, heq, hquiet, hfill⟩
    · exact .inl heq
    · refine .inr ⟨e, heq, sizesOf_cons_quiet hquiet, fun p params hposted f hlogs _ hid => hij ?_⟩
      -- what another intent simulates is its own order
      obtain ⟨orderId, hid', hholds, -⟩ := hfill f hlogs
      exact h.labelled.apart hwired hholds (hwired.index i ▸ hposted)
        (Option.some.inj (hid.symm.trans hid'))

/-- **The next slice.** -/
theorem Sliced.send (h : Sliced c intents filters price units start r i left)
    (hmoves : r.Moves (Send c e) i r') (hstep : 0 < filters.stepSize)
    (hfilters : c.filters.lookup (intents i).symbol = some filters) (hwired : Wired c intents r)
    (hlabelled : Labelled r) : Spoilt c price (r'.cores i) r'.trace ∨
      ∃ left', Sliced c intents filters price units start r' i left' := by
  have hfresh : ∀ params : OrderParams, (∀ p ∈ r.trace, ¬ p.PostsOrder params.newClientOrderId) →
      ¬ Simulated r.trace params := fun params hfree hsim =>
    let ⟨p, hp, hpost⟩ := hlabelled.posted_of_simulated hsim
    hfree p hp hpost
  rcases (hmoves.own.out h.out hfresh hlabelled.ids : _ ∨ Spoilt c price _ _) with ⟨hout, hrunning⟩ | hspoilt
  swap
  · exact .inl hspoilt
  obtain ⟨tag, params, hready, hafter⟩ := hmoves.own
  have htrace : r'.trace = e :: r.trace := congrArg Abs.trace hafter
  by_cases hprice : params.price = price
  swap
  · refine .inl ⟨e, params, ⟨htrace ▸ mem_cons_self, tag, hready.call, ?_⟩, .mispriced hprice⟩
    exact hready.owner.trans hmoves.own.anchored.index.symm
  have hsizes : sizesOf i r'.trace = params.quantity :: sizesOf i r.trace := by
    rw [htrace, ← hwired.index i]; exact hready.sizesOf_cons
  have hremaining : (r.cores i).remaining = filters.stepSize * left :=
    h.remaining_eq hwired ⟨hready.noActive, hready.noUnresolved⟩
  have hsize : sizeAt filters c.policy.maxSlices (intents i).reduceOnly
      (filters.stepSize * left) price = .ok (some params.quantity) := by
    have hsized := hready.sized filters ((hwired.filters i).trans hfilters)
    rw [Core.sizeAt, show (r.view i).core = r.cores i from rfl, hremaining, hwired.intent i, hprice] at hsized
    exact hsized
  have hunits : 1 ≤ left := by
    have hpos : 0 < (r.cores i).remaining := hready.qty_pos.trans_le hready.qty_le
    rw [hremaining] at hpos; exact_mod_cast (mul_pos_iff_of_pos_left hstep).mp hpos
  obtain ⟨hadmits, hrefuses⟩ :=
    @sizeAt_units filters c.policy.maxSlices (intents i).reduceOnly price left hstep hunits
  by_cases hadm : Admissible filters (intents i).reduceOnly price left
  swap
  · rw [hrefuses hadm] at hsize; cases hsize
  rw [hadmits hadm] at hsize
  set count := sliceCount filters c.policy.maxSlices price with hcount
  set next := nextSlice count (Postable filters price) left with hnext
  have hqty : params.quantity = filters.stepSize * next :=
    (Option.some.inj (Except.ok.inj hsize)).symm
  have hle : next ≤ left := by
    rw [hnext, nextSlice]
    split_ifs
    · exact sliceHead_le one_le_sliceCount
    · exact le_rfl
  refine .inr ⟨left - next, hout, ?_, ?_, fun status hstatus => ?_⟩
  · rw [hsizes, sum_cons, Nat.cast_sub hle]; linarith [h.rest]
  · -- more of what may be posted may be posted
    have hlarger : 1 < count left → ∀ a b, Postable filters price a → a ≤ b →
        Admissible filters (intents i).reduceOnly price b := by
      intro hmany a b ha hab
      have hpos : 0 < price := price_pos_of_sliceCount hmany
      exact ⟨ha.1.trans (by gcongr), .inr (ha.2.trans (by gcongr))⟩
    have hone : SlicingStrands c filters (intents i).reduceOnly price left ↔ _ :=
      strands_iff one_le_sliceCount hlarger
    exact (h.strands.trans (or_iff_right fun hbad => hbad.2 hadm)).trans hone
  · cases hrunning.symm.trans hstatus

theorem FillRun.send (h : FillRun c intents filters price units start i r)
    (hmoves : r.Moves (Send c e) j r') (hstep : 0 < filters.stepSize)
    (hfilters : c.filters.lookup (intents i).symbol = some filters) (hwired : Wired c intents r) :
    FillRun c intents filters price units start i r' := by
  obtain ⟨tag, params, hready, hafter⟩ := hmoves.own
  have htrace : r'.trace = e :: r.trace := congrArg Abs.trace hafter
  have hnot : ∀ record, ¬ e.Logs record := not_logs_of_newOrder hready.call
  by_cases hij : j = i
  · subst hij
    refine ⟨h.labelled.send hmoves, h.reach.tail (.send hmoves), ?_⟩
    rcases h.sliced with hspoilt | ⟨left, hsliced⟩
    · left
      have hcore : Spoilt c price (r'.cores j) r.trace := by
        refine hspoilt.core hmoves.own.anchored.index fun orderId ⟨p, hp, hpost⟩ hholds => ?_
        rw [show r'.cores j = _ from congrArg Abs.core hafter] at hholds
        rcases Core.afterReply_holds hholds with rfl | hbefore
        · exact absurd hpost ((hready.fresh h.labelled.ids).1 p hp)
        · exact hbefore
      rw [htrace]; exact hcore.cons fun _ _ _ f hlogs => absurd hlogs (hnot _)
    · exact hsliced.send hmoves hstep hfilters hwired h.labelled
  · refine h.aside (h.labelled.send hmoves) (.send hmoves) hwired (hmoves.others i (Ne.symm hij))
      (.inr ⟨e, htrace, ?_, fun _ _ _ f hlogs => absurd hlogs (hnot _)⟩)
    have hnone : e.postedBy (r.cores i).index = none := by
      have hne : tag.owner ≠ (r.cores i).index := by
        rw [hready.owner, hwired.index i]
        exact fun heq => hij (Fin.ext ((hwired.index j).symm.trans heq))
      simp only [Event.postedBy, hready.call, hne, if_false]
    rw [sizesOf, filterMap_cons_none hnone, ← sizesOf]

end Runs

end CryptoPilot.Live
