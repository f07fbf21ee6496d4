/- # Levels — the inventory of a window from its fills.

Three readings of the same fills: the running units, the post-fill level of the last fill in bar
order, and the sum of the quantities.  They agree when the fills of each symbol are booked in bar
order (`lastLevel_eq_sum`). -/
import CryptoPilot.Engine.WindowLedger

namespace CryptoPilot.Engine

open List

open CryptoPilot.Live (Exc)

def Fill.unlabelled (f : Fill) : Fill := { f with reason := .passiveFill }

def traded (fills : List Fill) (s : String) :
    ℚ := ((fills.filter (fun f => decide (f.symbol = s))).map Fill.quantity).sum

inductive Levels (start : String → ℚ) : List Fill → Prop
  | nil : Levels start []
  | snoc {fills : List Fill} {f : Fill} (h : Levels start fills)
      (hf : f.postUnits = start f.symbol + traded fills f.symbol + f.quantity) : Levels start (fills ++ [f])

def BarOrdered (fills : List Fill) : Prop := fills.Pairwise (fun f g => f.symbol = g.symbol → f.bar ≤ g.bar)

section Levels

variable {start : String → ℚ} {fills : List Fill} {s : String}

@[simp] theorem traded_nil : traded [] s = 0 := rfl

theorem traded_append (fs gs : List Fill) (s : String) : traded (fs ++ gs) s = traded fs s + traded gs s := by
  simp [traded]

theorem traded_singleton (f : Fill) (s : String) : traded [f] s = if f.symbol = s then f.quantity else 0 := by
  unfold traded
  by_cases h : f.symbol = s <;> simp [h]

/-- **The last level is the sum.**  `cut` keeps everything up to some bar. -/
theorem lastLevel_eq_sum {cut : ℤ → Bool} (hcut : ∀ b c, b ≤ c → cut c = true → cut b = true)
    (hlevels : Levels start fills) (hordered : BarOrdered fills) :
    lastLevel fills s (start s) cut =
      start s + ((fills.filter (fun f => decide (f.symbol = s) && cut f.bar)).map Fill.quantity).sum := by
  induction hlevels with
  | nil => simp [lastLevel]
  | @snoc fs f _ hf ih =>
    have hsplit := pairwise_append.mp hordered
    by_cases hlast : (decide (f.symbol = s) && cut f.bar) = true
    · -- the new fill is the last one, and everything of the symbol before it passes the cut
      have hsame : fs.filter (fun g => decide (g.symbol = s) && cut g.bar) =
          fs.filter (fun g => decide (g.symbol = s)) := by
        apply filter_congr
        intro g hg
        simp only [Bool.and_eq_true, decide_eq_true_eq] at hlast
        by_cases hs : g.symbol = s
        · have hle := hsplit.2.2 g hg f (by simp) (hs.trans hlast.1.symm)
          simp [hs, hcut _ _ hle hlast.2]
        · simp [hs]
      have hsorted : ((fs ++ [f]).filter (fun g => decide (g.symbol = s) && cut g.bar)).Pairwise
          (fun a b => a.bar ≤ b.bar) := by
        refine List.Pairwise.imp_of_mem ?_ (hordered.filter _)
        intro g g' hg hg' hle
        simp only [mem_filter, Bool.and_eq_true, decide_eq_true_eq] at hg hg'
        exact hle (hg.2.1.trans hg'.2.1.symm)
      unfold lastLevel
      rw [hsorted.insertionSort_eq, filter_append, filter_cons, if_pos hlast, filter_nil, getLast?_concat, hsame]
      simp only [Bool.and_eq_true, decide_eq_true_eq] at hlast
      rw [Option.map_some, hf, hlast.1]; simp [traded, add_assoc]
    · have hsame : (fs ++ [f]).filter (fun g => decide (g.symbol = s) && cut g.bar) =
          fs.filter (fun g => decide (g.symbol = s) && cut g.bar) := by
        rw [filter_append, filter_cons, if_neg hlast, filter_nil, append_nil]
      have hih := ih hsplit.1
      unfold lastLevel at hih ⊢
      rw [hsame]; exact hih

theorem lastLevel_eq_zero {level : ℚ} {cut : ℤ → Bool}
    (hstart : level = 0 ∨ ∃ f ∈ fills, f.symbol = s ∧ cut f.bar = true)
    (hfills : ∀ g ∈ fills, g.symbol = s → g.postUnits = 0 ∨ ∃ f ∈ fills, f.symbol = s ∧ cut f.bar =
      true ∧ g.bar < f.bar) :
    lastLevel fills s level cut = 0 := by
  have hmem : ∀ f, f ∈ (fills.filter (fun f => decide (f.symbol = s) && cut f.bar)).insertionSort
      (fun a b => a.bar ≤ b.bar) ↔ f ∈ fills ∧ f.symbol = s ∧ cut f.bar = true := by
    intro f; simp [mem_insertionSort]
  have hsorted := pairwise_insertionSort (fun a b : Fill => a.bar ≤ b.bar)
    (fills.filter (fun f => decide (f.symbol = s) && cut f.bar))
  unfold lastLevel
  cases hlast : ((fills.filter (fun f => decide (f.symbol = s) && cut f.bar)).insertionSort
      (fun a b => a.bar ≤ b.bar)).getLast? with
  | none =>
    rw [getLast?_eq_none_iff] at hlast
    rcases hstart with hstart | ⟨f, hf, hs, hcut⟩
    · exact hstart
    · have := (hmem f).mpr ⟨hf, hs, hcut⟩
      rw [hlast] at this; simp at this
  | some g =>
    obtain ⟨hg, hs, -⟩ := (hmem g).mp (mem_of_getLast? hlast)
    show g.postUnits = 0
    rcases hfills g hg hs with hzero | ⟨f, hf, hfs, hcut, hlt⟩
    · exact hzero
    · -- the last of the sorted fills is not before any other
      have hf' := (hmem f).mpr ⟨hf, hfs, hcut⟩
      obtain ⟨init, hinit⟩ := getLast?_eq_some_iff.mp hlast
      rw [hinit] at hsorted hf'
      rcases mem_append.mp hf' with hf' | hf'
      · have := (pairwise_append.mp hsorted).2.2 f hf' g (by simp); omega
      · rw [mem_singleton.mp hf'] at hlt; omega

theorem lastLevel_unlabelled (level : ℚ) (cut : ℤ → Bool) :
    lastLevel (fills.map Fill.unlabelled) s level cut = lastLevel fills s level cut := by
  unfold lastLevel
  rw [filter_map, ← map_insertionSort (fun a b : Fill => a.bar ≤ b.bar) (fun a b : Fill => a.bar ≤ b.bar),
    getLast?_map, Option.map_map]
  · rfl
  · intro a _ b _; exact Iff.rfl

theorem sum_unlabelled {p : Fill → Bool} {v : Fill → ℚ} (hp : ∀ f : Fill, p f.unlabelled = p f)
    (hv : ∀ f : Fill, v f.unlabelled = v f) (fills : List Fill) :
    (((fills.map Fill.unlabelled).filter p).map v).sum = ((fills.filter p).map v).sum := by
  rw [filter_map, map_map]
  have hp' : p ∘ Fill.unlabelled = p := funext hp
  have hv' : v ∘ Fill.unlabelled = v := funext hv
  rw [hp', hv']

end Levels

end CryptoPilot.Engine
