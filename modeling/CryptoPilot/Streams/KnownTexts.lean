/- # KnownTexts — a runtime for concrete journals.

A runtime that decodes the texts of some values, stores without compression, and knows some labels
and digests.  On journals of these values it behaves as Python does, and it can be evaluated. -/
import CryptoPilot.Capture.CrashSafety
import CryptoPilot.Streams.Gathering

namespace CryptoPilot.Streams

open CryptoPilot.Lib CryptoPilot.Capture List

def decimal (s : String) : Option ℚ :=
  if s ≠ "" ∧ s.toList.all Char.isDigit then
    some ((s.toList.foldl (fun n c => 10 * n + (c.toNat - 48)) 0 : ℕ) : ℚ)
  else none

/-- The runtime that knows the texts of `values`, the grids and the digests. -/
def knownRuntime (values : List Json) (grids : List (String × ℤ)) (digests : List (String × String)) : Runtime where
  gzip := storedGzip
  dumps r := Json.text (.obj r)
  loads s := values.find? (fun v => v.text = s)
  parseFloat s := (decimal s).map .fin
  str _ := ""
  gridNs s := (grids.find? (fun e => e.1 = s)).map Prod.snd
  dumpsOrder r := some (Json.text (.obj r))
  sha256 s := ((digests.find? (fun e => e.1 = s)).map Prod.snd).getD ""

def memberOf (C : Codec) (records : List Record) : Member := ⟨memberBytes C 0 (records.map (Item.mk 0)), records⟩

variable {C : Codec}

theorem memberOf_valid {records : List Record} (h : ∀ r ∈ records, Journalable C r) :
    (memberOf C records).Valid C := by
  have hitems : ∀ i ∈ records.map (Item.mk 0), Journalable C i.record := by
    intro i hi
    obtain ⟨r, hr, rfl⟩ := mem_map.mp hi; exact h r hr
  have hvalid := valid_memberBytes hitems 0
  rwa [map_map, show Item.record ∘ Item.mk 0 = id from rfl, map_id] at hvalid

/-- A writer can journal the record; a newline is looked for among the bytes. -/
def isJournalable (C : Codec) (r : Record) : Bool :=
  requiredKeys.all (fun key => (Record.get r key).isSome) && (Record.get r "v").any isRecordVersion &&
    C.loads (C.dumps r) = some (.obj r) && (10 : UInt8) ∉ encodeUtf8 (C.dumps r) && C.dumps r ≠ ""

theorem newline_notMem {s : String} (h : (10 : UInt8) ∉ encodeUtf8 s) : '\n' ∉ s.toList := by
  intro hmem
  apply h
  rw [encodeUtf8, String.toUTF8_eq_toByteArray, ← String.utf8Encode_toList]
  simp only [utf8Encode, data_toByteArray]; exact mem_flatMap.mpr ⟨'\n', hmem, by decide⟩

theorem journalable_of_isJournalable {r : Record} (h : isJournalable C r = true) :
    Journalable C r := by
  simp only [isJournalable, Bool.and_eq_true, decide_eq_true_eq] at h
  obtain ⟨⟨⟨⟨hkeys, hversion⟩, htrip⟩, hline⟩, hblank⟩ := h
  refine ⟨?_, htrip, newline_notMem hline, hblank⟩
  intro offset
  have hfound : requiredKeys.find? (fun key => (Record.get r key).isNone) = none := by
    rw [find?_eq_none]
    intro key hkey
    have := all_eq_true.mp hkeys key hkey; simpa using Option.isSome_iff_ne_none.mp this
  unfold checkRecord; simp only [hfound, hversion, if_true]

def journalOf (C : Codec) (files : List (SegmentPath × List (List Record)))
    (hlisted : files.Pairwise (fun a b => listing a.1 < listing b.1))
    (hrecords : ∀ f ∈ files, ∀ rs ∈ f.2, rs ≠ [] ∧ ∀ r ∈ rs, isJournalable C r = true) : Journal C where
  files := files.map (fun f => (f.1, f.2.map (memberOf C)))
  listed := pairwise_map.mpr hlisted
  valid := by
    intro f hf m hm
    obtain ⟨f', hf', rfl⟩ := mem_map.mp hf
    obtain ⟨rs, hrs, rfl⟩ := mem_map.mp hm
    exact memberOf_valid (fun r hr => journalable_of_isJournalable ((hrecords f' hf' rs hrs).2 r hr))
  nonempty := by
    intro f hf m hm
    obtain ⟨f', hf', rfl⟩ := mem_map.mp hf
    obtain ⟨rs, hrs, rfl⟩ := mem_map.mp hm; exact (hrecords f' hf' rs hrs).1

theorem mem_records_journalOf {files : List (SegmentPath × List (List Record))}
    {hlisted : files.Pairwise (fun a b => listing a.1 < listing b.1)}
    {hrecords : ∀ f ∈ files, ∀ rs ∈ f.2, rs ≠ [] ∧ ∀ r ∈ rs, isJournalable C r = true} {r : Record} :
    r ∈ (journalOf C files hlisted hrecords).records ↔ ∃ f ∈ files, ∃ rs ∈ f.2, r ∈ rs := by
  constructor
  · rintro ⟨f, hf, m, hm, hr⟩
    obtain ⟨f', hf', rfl⟩ := mem_map.mp hf
    obtain ⟨rs, hrs, rfl⟩ := mem_map.mp hm; exact ⟨f', hf', rs, hrs, hr⟩
  · rintro ⟨f, hf, rs, hrs, hr⟩; exact ⟨_, mem_map_of_mem hf, _, mem_map_of_mem hrs, hr⟩

end CryptoPilot.Streams
