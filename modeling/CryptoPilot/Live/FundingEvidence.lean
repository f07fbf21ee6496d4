/- # FundingEvidence — funding settlements in the tax ledger.

A settlement appends the FUNDING_FEE records of its accrual and then saves the ledger with the new
watermarks.  After a death in between the next settlement accrues the same epochs again, and as the
id of a record holds the run id, it recognises them only under the same one
(`funding_recorded_twice`). -/
import CryptoPilot.Live.BookInvariants

namespace CryptoPilot.Live

open CryptoPilot.Lib List

/-! ## Runs that meet a condition -/

def BookSys.Meets (st : LiveSettings) (cond : BookSys → BookActivity → Prop) :
    BookSys → List (BookActivity × List IoStep) → Prop
  | _, [] => True
  | sys, a :: rest => cond sys a.1 ∧ BookSys.Meets st cond (BookSys.step st sys a) rest

instance instDecidableMeets (st : LiveSettings) (cond : BookSys → BookActivity → Prop)
    [∀ sys, DecidablePred (cond sys)] :
    ∀ (sys : BookSys) (acts : List (BookActivity × List IoStep)),
      Decidable (BookSys.Meets st cond sys acts)
  | _, [] => isTrue trivial
  | sys, a :: rest =>
    have := instDecidableMeets st cond (BookSys.step st sys a) rest
    inferInstanceAs (Decidable (_ ∧ _))

variable {st : LiveSettings} {rows batch : List TaxRecord} {base : LedgerState}

theorem BookSys.Meets.invariant {cond : BookSys → BookActivity → Prop} {Inv : BookSys → Prop}
    (hstep : ∀ sys a, cond sys a.1 → Inv sys → Inv (BookSys.step st sys a)) :
    ∀ {acts : List (BookActivity × List IoStep)} {sys : BookSys}, BookSys.Meets st cond sys acts →
      Inv sys → Inv (BookSys.run st sys acts) := by
  intro acts
  induction acts with
  | nil =>
    intro sys _ h; exact h
  | cons a rest ih =>
    intro sys hmeets h; exact ih hmeets.2 (hstep sys a hmeets.1 h)

/-! ## One record for an epoch -/

def fundingRecordsAt (rows : List TaxRecord) (symbol : String) (epoch : ℚ) : List TaxRecord :=
  rows.filter fun r => decide (r.kind = "FUNDING_FEE" ∧ r.symbol = symbol ∧ r.eventTime = epoch)

/-- Two funding records, one after the other, are of different epochs or symbols. -/
def FundingOnce (rows : List TaxRecord) : Prop :=
  rows.Pairwise fun r r' => r.kind = "FUNDING_FEE" → r'.kind = "FUNDING_FEE" → r.symbol = r'.symbol →
    r.eventTime ≠ r'.eventTime

theorem FundingOnce.length_le_one {rows : List TaxRecord} (h : FundingOnce rows) (symbol : String)
    (epoch : ℚ) : (fundingRecordsAt rows symbol epoch).length ≤ 1 := by
  have hpair : (fundingRecordsAt rows symbol epoch).Pairwise fun _ _ => False := by
    refine List.Pairwise.imp_of_mem ?_ (h.sublist filter_sublist)
    intro r r' hr hr' hne
    have hr := of_decide_eq_true (mem_filter.mp hr).2
    have hr' := of_decide_eq_true (mem_filter.mp hr').2
    exact hne hr.1 hr'.1 (hr.2.1.trans hr'.2.1.symm) (hr.2.2.trans hr'.2.2.symm)
  match hrows : fundingRecordsAt rows symbol epoch with
  | [] | [r] => simp
  | r :: r' :: rest =>
    rw [hrows] at hpair; exact ((pairwise_cons.mp hpair).1 r' mem_cons_self).elim

/-- **An append of funding records**: those of one run, as are the present ones of the same symbol
and epoch. -/
theorem FundingOnce.append {runId : String} (h : FundingOnce rows) (hkeys : KeysDistinct rows) (k : ℕ)
    (hbatch : ∀ r ∈ batch, r.kind = "FUNDING_FEE" →
      r.recordId = fundingRecordId runId r.symbol r.eventTime)
    (hsame : ∀ r ∈ rows, ∀ r' ∈ batch, r.kind = "FUNDING_FEE" → r'.kind = "FUNDING_FEE" →
      r.symbol = r'.symbol → r.eventTime = r'.eventTime →
      r.recordId = fundingRecordId runId r.symbol r.eventTime) :
    FundingOnce (rows ++ (rowsToAppend rows batch).take k) := by
  -- the keys of the extended ledger are distinct, and equal epochs would give equal keys
  have hdistinct := @keysDistinct_append rows batch hkeys k
  rw [KeysDistinct, map_append, nodup_append] at hdistinct
  obtain ⟨-, hnew, hdisjoint⟩ := hdistinct
  have hmem : ∀ r ∈ (rowsToAppend rows batch).take k, r ∈ batch := fun r hr =>
    mem_of_mem_rowsToAppend (mem_of_mem_take hr)
  have hkey : ∀ {r r' : TaxRecord}, r.recordId = fundingRecordId runId r.symbol r.eventTime →
      r'.recordId = fundingRecordId runId r'.symbol r'.eventTime → r.symbol = r'.symbol →
      r.eventTime = r'.eventTime → r.key = r'.key := by
    intro r r' hid hid' hsymbol htime
    rw [TaxRecord.key, TaxRecord.key, hid, hid', TaxRecord.shard, TaxRecord.shard, hsymbol, htime]
  refine pairwise_append.mpr ⟨h, ?_, fun r hr r' hr' hkind hkind' hsymbol htime => ?_⟩
  · refine List.Pairwise.imp_of_mem ?_ (pairwise_map.mp hnew)
    intro r r' hr hr' hne hkind hkind' hsymbol htime
    exact hne (hkey (hbatch r (hmem r hr) hkind) (hbatch r' (hmem r' hr') hkind') hsymbol htime)
  · have hid := hsame r hr r' (hmem r' hr') hkind hkind' hsymbol htime
    have heq := hkey hid (hbatch r' (hmem r' hr') hkind') hsymbol htime
    exact hdisjoint r.key (mem_map_of_mem hr) r'.key (mem_map_of_mem hr') heq

theorem FundingOnce.append_other (h : FundingOnce rows) (k : ℕ) (hbatch : ∀ r ∈ batch, r.kind ≠ "FUNDING_FEE") :
    FundingOnce (rows ++ (rowsToAppend rows batch).take k) := by
  have hmem : ∀ r ∈ (rowsToAppend rows batch).take k, r.kind ≠ "FUNDING_FEE" := fun r hr =>
    hbatch r (mem_of_mem_rowsToAppend (mem_of_mem_take hr))
  refine pairwise_append.mpr ⟨h, ?_, fun r hr r' hr' _ hkind' => absurd hkind' (hmem r' hr')⟩
  exact pairwise_of_forall_mem_list fun r hr r' _ hkind => absurd hkind (hmem r hr)

/-! ## The condition -/

def startsFrom (s : LedgerState) (market : Market) (symbol : String) : Option ℚ :=
  (accrualInput s market (delistedOf s market)).watermarkOf symbol

/-- The tax ledger is ahead of the ledger by records of the settlement's run id only. -/
def AheadOnlyBy (runId : String) (rows : List TaxRecord) (s : LedgerState) (market : Market) : Prop :=
  ∀ r ∈ rows, r.kind = "FUNDING_FEE" → ∀ w ∈ startsFrom s market r.symbol, w < r.eventTime →
    r.recordId = fundingRecordId runId r.symbol r.eventTime

instance (runId : String) (rows : List TaxRecord) (s : LedgerState) (market : Market) :
    Decidable (AheadOnlyBy runId rows s market) := by
  unfold AheadOnlyBy
  infer_instance

/-- A settlement is in step with the tax ledger; every other activity is. -/
def InStep (st : LiveSettings) (sys : BookSys) : BookActivity → Prop
  | .settlePaper i market runId => ∀ b ∈ sys.known[i]?,
      AheadOnlyBy (st.runIdFor runId) sys.disk.taxRows b.state market
  | _ => True

instance (st : LiveSettings) (sys : BookSys) : DecidablePred (InStep st sys) := fun act => by
  cases act <;> unfold InStep <;> infer_instance

theorem Accrues.above_watermark {market : Market} {accrual : FundingAccrual}
    (h : Accrues base market accrual) {ev : FundingEvent} (hev : ev ∈ accrual.events) :
    ∃ w, startsFrom base market ev.symbol = some w ∧ w < ev.epoch := by
  obtain ⟨turns, rfl, -, hturns, -⟩ := accrueFundingByWatermark_eq_ok h.1
  obtain ⟨t, ht, hev⟩ := mem_flatMap.mp hev
  obtain ⟨hsymbol, w, hw, hwalk, -⟩ := accrueSymbol_eq_ok (hturns t ht).2
  have hwindow : ∀ p ∈ (accrualInput base market (delistedOf base market)).window t.symbol w,
      w < p.1 := fun p hp => (AccrualInput.mem_window hp).1
  obtain ⟨-, -, hevents⟩ := accrueWindow_eq_ok (fun p hp => (hwindow p hp).le)
    (AccrualInput.window_sorted _ _ _) hwalk
  obtain ⟨hs, hepoch, -⟩ := hevents ev hev
  obtain ⟨p, hp, hpe⟩ := mem_map.mp hepoch
  rw [hs]; exact ⟨w, hw, hpe ▸ hwindow p hp⟩

structure FundingInv (rows : List TaxRecord) : Prop where
  once : FundingOnce rows
  keys : KeysDistinct rows

theorem FundingInv.settleWrites {market : Market}
    {runId : String} {d d' : Disk} (hstep : AheadOnlyBy (st.runIdFor runId) d.taxRows base market)
    (h : SettleWrites st base market runId d d') (hd : FundingInv d.taxRows) : FundingInv d'.taxRows := by
  -- what a settlement appends keeps the tax ledger ahead only by its own run id
  have hboth : FundingInv d'.taxRows ∧ AheadOnlyBy (st.runIdFor runId) d'.taxRows base market := by
    induction h with
    | refl => exact ⟨hd, hstep⟩
    | @tail d₁ d₂ _ hw ih =>
      obtain ⟨hinv, hahead⟩ := ih
      cases hw with
      | io script | accrue haccrues recorded | settle haccrues books => exact ⟨hinv, hahead⟩
      | @funding accrual haccrues k =>
        have hid : ∀ r ∈ fundingRecordsOf st runId accrual,
            r.recordId = fundingRecordId (st.runIdFor runId) r.symbol r.eventTime := by
          intro r hr
          obtain ⟨ev, -, rfl⟩ := mem_map.mp hr; rfl
        refine ⟨⟨hinv.once.append hinv.keys k (fun r hr _ => hid r hr) ?_, keysDistinct_append hinv.keys k⟩, ?_⟩
        · intro r hr r' hr' hkind _ hsymbol htime
          obtain ⟨ev, hev, rfl⟩ := mem_map.mp hr'
          obtain ⟨w, hw, hlt⟩ := haccrues.above_watermark hev
          exact hahead r hr hkind w (hsymbol ▸ hw) (htime ▸ hlt)
        · intro r hr hkind w hw hlt
          rcases mem_append.mp hr with hold | hnew
          · exact hahead r hold hkind w hw hlt
          · exact hid r (mem_of_mem_rowsToAppend (mem_of_mem_take hnew))
      | @settlement accrual settled booked haccrues books k =>
        have hother : ∀ r ∈ delistingSettlementTaxRecords booked st.mode.value,
            r.kind ≠ "FUNDING_FEE" := by
          intro r hr
          obtain ⟨b, -, hb⟩ := mem_filterMap.mp hr
          obtain ⟨price, -, rfl⟩ := Option.map_eq_some_iff.mp hb; simp
        refine ⟨⟨hinv.once.append_other k hother, keysDistinct_append hinv.keys k⟩, ?_⟩
        intro r hr hkind w hw hlt
        rcases mem_append.mp hr with hold | hnew
        · exact hahead r hold hkind w hw hlt
        · exact absurd hkind (hother r (mem_of_mem_rowsToAppend (mem_of_mem_take hnew)))
  exact hboth.1

theorem FundingInv.bookWrites {call : CommitCall} {j : Journal}
    {d d' : Disk} (h : BookWrites st base call j d d') (hd : FundingInv d.taxRows) : FundingInv d'.taxRows := by
  induction h with
  | refl => exact hd
  | tail _ hw ih =>
    cases hw with
    | trades hs simulated built k =>
      refine ⟨ih.once.append_other k fun r hr => ?_, keysDistinct_append ih.keys k⟩
      obtain ⟨f, -, j', fallback, seq, mode, rfl⟩ := tradeOf_mem built hr
      simp [simulatedTradeRecord]
    | _ => exact ih

theorem FundingInv.step {sys sys' : BookSys} {act : BookActivity}
    (hact : InStep st sys act) (h : FundingInv sys.disk.taxRows) (hm : Moves st sys act sys') :
    FundingInv sys'.disk.taxRows := by
  cases hm with
  | fill recorded new simulated | attempt a | idle script | loads loaded script => exact h
  | saves base derives writes known =>
    obtain ⟨-, -, htax, -⟩ := writes.frame
    rw [htax]; exact h
  | books base calls writes known => exact FundingInv.bookWrites writes h
  | @settles i b market runId io sys' posts chosen writes known =>
    subst posts
    have hahead : AheadOnlyBy (st.runIdFor runId) ({ sys.disk with script := io } : Disk).taxRows
        b.state market := hact b chosen
    exact FundingInv.settleWrites hahead writes h

/-- **Funding evidence at most once.**  In every run from a fresh installation whose settlements are
all in step with the tax ledger, each epoch of a symbol has at most one FUNDING_FEE record. -/
theorem funding_recorded_at_most_once (st : LiveSettings) (acts : List (BookActivity × List IoStep))
    (hacts : BookSys.Meets st (InStep st) {} acts) (symbol : String) (epoch : ℚ) :
    (fundingRecordsAt (BookSys.run st {} acts).disk.taxRows symbol epoch).length ≤ 1 := by
  have hinit : FundingInv ({} : BookSys).disk.taxRows := ⟨List.Pairwise.nil, nodup_nil⟩
  have hrun := BookSys.Meets.invariant
    (fun sys a hcond h => FundingInv.step hcond h (BookSys.step_moves a)) hacts hinit
  exact hrun.once.length_le_one symbol epoch

def fundedMarket (now : ℚ) : Market where
  listing := [⟨"BTCUSDT", "TRADING", none⟩]
  funding := Dict.ofPairs [("BTCUSDT", [(1036800, some (1 / 10000))])]
  closes := Dict.ofPairs [("BTCUSDT", [(1036800, some 120)])]
  settlementPrices := ∅
  now := now

/-- The settlement of a day dies between its tax append and its ledger save; another follows. -/
def cutOffRun (retryRunId : String) : List (BookActivity × List IoStep) :=
  [(.recordFill (paperFill "BUY" 3 100), []),
   (.loadLedger, allDone),
   (.commitAndRecord 0 paperAttempt none none, allDone),
   (.settlePaper 0 (fundedMarket 1040000) "19700113", [⟨0, .done⟩, ⟨0, .done⟩, ⟨0, .killed⟩]),
   (.loadLedger, allDone),
   (.settlePaper 0 (fundedMarket 1045000) retryRunId, allDone)]

/-- The retry on the next decision day writes a second record of the epoch. -/
theorem funding_recorded_twice :
    (fundingRecordsAt (BookSys.run paperSettings {} (cutOffRun "19700114")).disk.taxRows "BTCUSDT"
      1036800).length = 2 := by
  decide +kernel

theorem funding_recorded_at_most_once_retried :
    (fundingRecordsAt (BookSys.run paperSettings {} (cutOffRun "19700113")).disk.taxRows "BTCUSDT"
      1036800).length ≤ 1 := by
  have hstep : BookSys.Meets paperSettings (InStep paperSettings) {} (cutOffRun "19700113") := by
    decide +kernel
  exact funding_recorded_at_most_once paperSettings (cutOffRun "19700113") hstep "BTCUSDT" 1036800

end CryptoPilot.Live
