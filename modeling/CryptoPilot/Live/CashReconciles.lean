/- # CashReconciles — the two computations of a cycle's cash agree.

The ledger moves its cash fill by fill when it commits; the reconciliation recomputes the move from
the trade records that the journal's fresh fills are turned into.  `reconcileBatch_difference`: with
exact arithmetic the difference is zero, for every committed state whose base is explained by the
call's other records. -/
import CryptoPilot.Live.PaperCycle

namespace CryptoPilot.Live

open CryptoPilot.Lib List

def flowOf (r : TaxRecord) : ℚ := (tradeFlow r).toOption.getD 0

variable {records : List TaxRecord} {base s : LedgerState} {call : CommitCall} {st : LiveSettings}

theorem mapM_tradeFlow (h : ∀ r ∈ records, ∃ flow, tradeFlow r = .ok flow) :
    records.mapM tradeFlow = .ok (records.map flowOf) := by
  induction records with
  | nil => rfl
  | cons r rest ih =>
    obtain ⟨flow, hflow⟩ := h r mem_cons_self
    have hflowOf : flowOf r = flow := by rw [flowOf, hflow]; rfl
    rw [mapM_cons, hflow, ih fun r' hr' => h r' (mem_cons_of_mem r hr'), map_cons, hflowOf]
    rfl

theorem freshJournalFills_eq (j : Journal) (s : LedgerState) :
    freshJournalFills j s = between s.journalRecordedFillSeq s.journalAppliedFillSeq j.fills := by
  rw [freshJournalFills, Journal.fillsAfter, filter_filter]
  refine filter_congr fun f _ => ?_
  rw [← Bool.decide_and]; exact decide_eq_decide.mpr and_comm

theorem cashMove_of_signedQty_eq_zero {f : JournalFill} (h : f.signedQty = 0) : f.cashMove = 0 := by
  have hqty : f.quantity = 0 := by
    unfold JournalFill.signedQty at h
    split at h
    · exact h
    · exact neg_eq_zero.mp h
  rw [JournalFill.cashMove, fillCashDelta, hqty]; simp

section Flows

variable {j : Journal} {fallback : AttemptContext} {mode : String}

variable {fills : List JournalFill} {results : List (Option TaxRecord)}

section

variable (h : List.Forall₂ (fun f r => simulatedTaxRecord mode (fillEventOf j fallback f) = .ok r) fills results)
  (hev : ∀ f ∈ fills, f.evidenced)

include h hev

/-- **Record by record**: each record is of one of the fills, and implies the cash that the fill
moved. -/
theorem record_of_fill :
    ∀ r ∈ results.filterMap id, ∃ f ∈ fills, r.recordId = simulatedTradeId f.fillSeq ∧
      tradeFlow r = .ok f.cashMove := by
  induction h with
  | nil => exact forall_mem_nil _
  | @cons f ro fills results hf _ ih =>
    intro r hr
    have hrest := ih fun g hg => hev g (mem_cons_of_mem f hg)
    rcases simulatedTaxRecord_fillEventOf hf with ⟨-, rfl⟩ | ⟨hqty, hprice, seq, rfl⟩
    · obtain ⟨g, hg, hid, hflow⟩ := hrest r (by simpa using hr)
      exact ⟨g, mem_cons_of_mem f hg, hid, hflow⟩
    · rcases mem_cons.mp hr with rfl | hr
      · exact ⟨f, mem_cons_self, rfl,
          tradeFlow_simulated hqty hprice (hev f mem_cons_self)⟩
      · obtain ⟨g, hg, hid, hflow⟩ := hrest r hr; exact ⟨g, mem_cons_of_mem f hg, hid, hflow⟩

theorem sum_flows (p : String → Bool) :
    (((results.filterMap id).filter fun r => p r.recordId).map flowOf).sum
      = ((fills.filter fun f => p (simulatedTradeId f.fillSeq)).map JournalFill.cashMove).sum := by
  induction h with
  | nil => rfl
  | @cons f ro fills results hf _ ih =>
    have hrest := ih fun g hg => hev g (mem_cons_of_mem f hg)
    rcases simulatedTaxRecord_fillEventOf hf with ⟨hqty, rfl⟩ | ⟨hqty, hprice, seq, rfl⟩
    · rw [filterMap_cons_none rfl, hrest, filter_cons]
      split
      · rw [map_cons, sum_cons, cashMove_of_signedQty_eq_zero hqty, zero_add]
      · rfl
    · have hflow := @tradeFlow_simulated fallback mode j f seq hqty hprice (hev f mem_cons_self)
      rw [filterMap_cons_some (f := id) rfl, filter_cons, filter_cons]
      by_cases hp : p (simulatedTradeId f.fillSeq)
      · have hp' : p (simulatedTradeRecord (fillEventOf j fallback f) (journalFillId f.fillSeq) seq
            mode).recordId = true := hp
        rw [if_pos hp', if_pos hp, map_cons, sum_cons, hrest, flowOf, hflow]; rfl
      · have hp' : ¬ p (simulatedTradeRecord (fillEventOf j fallback f) (journalFillId f.fillSeq) seq
            mode).recordId = true := hp
        rw [if_neg hp', if_neg hp, hrest]

end

end Flows

theorem sum_evidenced (fills : List JournalFill) :
    ((fills.filter JournalFill.evidenced).map JournalFill.cashMove).sum = cashMove fills := by
  induction fills with
  | nil => rfl
  | cons f rest ih =>
    have hcons : cashMove (f :: rest) = f.cashMove + cashMove rest := sum_cons
    rw [filter_cons, hcons]
    by_cases hev : f.evidenced
    · rw [if_pos hev, map_cons, sum_cons, ih]
    · have hkind : f.kind = .operatorResync := by simpa [JournalFill.evidenced] using hev
      have hzero : f.cashMove = 0 := if_pos hkind
      rw [if_neg hev, ih, hzero, zero_add]

variable {j : Journal}

theorem mapM_reconciledTrades {mode : String} (hrec : s.journalRecordedFillSeq ≤ base.journalAppliedFillSeq)
    (hbuilt : simulatedTaxRecords (evidenceEvents call j s) mode = .ok records) :
    ∃ flows, (reconciledTrades base (freshJournalFills j s) records).mapM tradeFlow = .ok flows ∧
      flows.sum
        = cashMove (between base.journalAppliedFillSeq s.journalAppliedFillSeq j.fills) := by
  set fresh := freshJournalFills j s with hfresh
  obtain ⟨results, hresults, hsorted⟩ := bind_eq_ok.mp hbuilt
  have hall := forall₂_map_left_iff.mp (forall₂_of_mapM_eq_ok hresults)
  have hev : ∀ f ∈ fresh.filter JournalFill.evidenced, f.evidenced := fun f hf =>
    (mem_filter.mp hf).2
  have hperm : records.Perm (results.filterMap id) := by
    rw [← Except.ok.inj hsorted]; exact perm_insertionSort _ _
  set before := (fresh.filter fun f => decide (f.fillSeq ≤ base.journalAppliedFillSeq)).map
    fun f => simulatedTradeId f.fillSeq with hbefore
  have hform : reconciledTrades base fresh records
      = records.filter fun r => !decide (r.recordId ∈ before) := rfl
  refine ⟨_, mapM_tradeFlow fun r hr => ?_, ?_⟩
  · obtain ⟨f, -, -, hflow⟩ := record_of_fill hall hev r (hperm.mem_iff.mp (mem_filter.mp hr).1)
    exact ⟨_, hflow⟩
  · -- an id is left out exactly when its fill was applied before
    have hclass : ∀ f ∈ fresh, (!decide (simulatedTradeId f.fillSeq ∈ before))
        = decide (base.journalAppliedFillSeq < f.fillSeq) := by
      intro f hf
      by_cases hle : f.fillSeq ≤ base.journalAppliedFillSeq
      · have hmem : simulatedTradeId f.fillSeq ∈ before :=
          mem_map.mpr ⟨f, mem_filter.mpr ⟨hf, decide_eq_true hle⟩, rfl⟩
        simp [hmem, hle]
      · have hmem : simulatedTradeId f.fillSeq ∉ before := by
          intro hmem
          obtain ⟨g, hg, hid⟩ := mem_map.mp hmem
          have hgle := of_decide_eq_true (mem_filter.mp hg).2
          exact hle (simulatedTradeId_injective hid ▸ hgle)
        simp [hmem, not_le.mp hle]
    have hrange : (fresh.filter fun f => !decide (simulatedTradeId f.fillSeq ∈ before))
        = between base.journalAppliedFillSeq s.journalAppliedFillSeq j.fills := by
      rw [filter_congr hclass, hfresh, freshJournalFills_eq, between, filter_filter]
      refine filter_congr fun f _ => ?_
      rw [← Bool.decide_and]
      refine decide_eq_decide.mpr ?_; omega
    rw [hform, ((hperm.filter _).map flowOf).sum_eq,
      sum_flows hall hev (fun fid => !decide (fid ∈ before)), filter_filter, ← hrange,
      ← sum_evidenced, filter_filter]
    congr 2
    refine filter_congr fun f _ => ?_
    rw [Bool.and_comm]

section

variable (h : Committed st base call j s)

include h

theorem Committed.cash_eq (hmode : st.mode.suppressesMutations) {before : ℚ}
    (hbase : base.cashUsdt = some before) :
    s.cashUsdt = some (before
      + cashMove (between base.journalAppliedFillSeq s.journalAppliedFillSeq j.fills)) := by
  cases h with
  | kept => rw [between_self, cashMove_nil, add_zero, hbase]
  | stamped =>
    have hsame : (stampExecuted base call).journalAppliedFillSeq = base.journalAppliedFillSeq := rfl
    have hcash : (stampExecuted base call).cashUsdt = base.cashUsdt := rfl
    rw [hsame, between_self, cashMove_nil, add_zero, hcash, hbase]
  | folded hc =>
    have htrack : (call.config st).trackCash = true := hmode
    rw [hc.cash, if_pos htrack, hbase, Option.getD_some]
    -- the pending fills are the journal's fills above the watermark, none of them beyond the new one
    have hperm : (pendingFills base.journalAppliedFillSeq
        (j.fillsAfter base.journalAppliedFillSeq)).Perm
        (between base.journalAppliedFillSeq s.journalAppliedFillSeq j.fills) := by
      have hsort := perm_insertionSort (fun a b : JournalFill => a.fillSeq ≤ b.fillSeq)
        ((j.fillsAfter base.journalAppliedFillSeq).filter
          fun f => decide (base.journalAppliedFillSeq < f.fillSeq))
      have hsame : (j.fillsAfter base.journalAppliedFillSeq).filter
          (fun f => decide (base.journalAppliedFillSeq < f.fillSeq))
          = between base.journalAppliedFillSeq s.journalAppliedFillSeq j.fills := by
        rw [Journal.fillsAfter, filter_filter]
        refine filter_congr fun f hf => ?_
        rw [Bool.and_self]
        exact decide_eq_decide.mpr ⟨fun hlt => ⟨hlt, hc.caughtUp f hf⟩, And.left⟩
      rw [← hsame]; exact hsort
    rw [cashMove, cashMove, (hperm.map _).sum_eq]

theorem Committed.recorded_eq : s.journalRecordedFillSeq = base.journalRecordedFillSeq := by
  cases h with
  | kept | stamped => rfl
  | folded hc => exact hc.recorded

/-- **The reconciliation is exact.** -/
theorem reconcileBatch_difference {r : CashReconciliation} (hmode : st.mode.suppressesMutations)
    (hle : base.journalRecordedFillSeq ≤ base.journalAppliedFillSeq)
    (hexplained : Explained base call.reconcileCashBefore call.fundingRecords call.settlementRecords)
    (hbuilt : simulatedTaxRecords (evidenceEvents call j s) st.mode.value = .ok records)
    (hr : reconcileBatch st base s call (freshJournalFills j s) records = .ok (some r)) :
    r.difference = 0 := by
  unfold reconcileBatch at hr
  cases hbase : base.cashUsdt with
  | none =>
    rw [hbase] at hr; simp at hr
  | some baseCash =>
    have hcash := h.cash_eq hmode hbase
    rw [hbase, hcash] at hr
    obtain ⟨fundingFlows, settlementFlows, hfunding, hsettlement, hbalance⟩ := hexplained
    obtain ⟨flows, hflows, hsum⟩ := mapM_reconciledTrades (h.recorded_eq.trans_le hle) hbuilt
    have htrades : (reconciledTrades base (freshJournalFills j s) records
        ++ call.settlementRecords).mapM tradeFlow = .ok (flows ++ settlementFlows) := by
      rw [mapM_append, hflows, hsettlement]; rfl
    unfold reconcileCycleCash at hr
    rw [hfunding, htrades] at hr
    obtain rfl := Option.some.inj (Except.ok.inj hr)
    have hstart := hbalance baseCash hbase
    change baseCash + cashMove _ - call.reconcileCashBefore.getD baseCash
      - (fundingFlows.sum + (flows ++ settlementFlows).sum) = 0
    rw [sum_append]; linarith

end

end CryptoPilot.Live
