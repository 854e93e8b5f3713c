import NestedZip.Proofs.Directory.Soundness
import NestedZip.Proofs.InPlace.Window

/-!
# Indexing in Place

Indexing an archive where it lies and indexing a copy of it are the same, to the
letter of every failure.

Indexing reads at positions it has computed from numbers in the archive, and
each of them is checked before it is read by. So all of its reads are inside
the window, where mirrored windows cannot be told apart, and no failure of a
read, which would tell the place of the window, is ever seen. The checks are
spread over several functions: a position comes out of the search for the end
record, and the search for the ZIP64 records counts on it. Each equation
therefore has the bound on its position as a hypothesis, and the chain takes
the bound from what the step before can answer.

## Theorems

* `Index.findEndRecord_mirrors`, `Index.findZip64EndRecord_mirrors`,
  `Index.findBounds_mirrors`: The searches answer the same.
* `Index.parse_mirrors`: So does indexing.
-/

namespace NestedZip

namespace Index

variable {shift : Nat} {w v : Window}

theorem fault_mirrors (h : w.Mirrors shift v) (offset : Nat) (f : ArchiveFault) :
    fault w offset f = fault v offset f := by
  unfold fault
  rw [h.identity]

/-- The end record is found at the same position of both windows. -/
theorem findEndRecord_mirrors (h : w.Mirrors shift v) (hplain : v.inflatedSize = none) :
    findEndRecord w = findEndRecord v := by
  have hsize := Window.size_of_intact (h.intact' hplain)
  unfold findEndRecord
  simp only [h.size, fault_mirrors h]
  -- Wherever the search reads, it has made sure that the window reaches that far.
  by_cases hsmall : v.size < EndRecord.length
  · rw [if_pos hsmall, if_pos hsmall]
  · rw [if_neg hsmall, if_neg hsmall, h.readExactAt_of_fits hplain (by omega)]
    refine Metered.bind_congr_of_ok fun last _ => ?_
    rcases endRecordAtFront? EndRecord.length last with _ | record
    · simp only
      rw [h.readExactAt_of_fits hplain (by omega)]
    · rfl

/-- The positions where a wide end record may be are tried alike. -/
theorem firstZip64EndRecord_mirrors (h : w.Mirrors shift v) (hplain : v.inflatedSize = none)
    {stop : Nat} (hstop : stop ≤ v.length) (positions : List Nat) :
    firstZip64EndRecord w stop positions = firstZip64EndRecord v stop positions := by
  induction positions with
  | nil => rfl
  | cons position positions ih =>
      unfold firstZip64EndRecord
      by_cases hpast : stop < position + Zip64EndRecord.length
      · rw [if_pos hpast, if_pos hpast, ih]
      · rw [if_neg hpast, if_neg hpast, h.readExactAt_of_fits hplain (by omega), ih]

/-- So the same wide end record is found. -/
theorem findZip64EndRecord_mirrors (h : w.Mirrors shift v) (hplain : v.inflatedSize = none)
    {endOffset : Nat} (hend : endOffset ≤ v.length) :
    findZip64EndRecord w endOffset = findZip64EndRecord v endOffset := by
  unfold findZip64EndRecord
  simp only [fault_mirrors h]
  by_cases hsmall : endOffset < Zip64Locator.length
  · rw [if_pos hsmall, if_pos hsmall]
  · rw [if_neg hsmall, if_neg hsmall, h.readExactAt_of_fits hplain (by omega)]
    refine Metered.bind_congr_of_ok fun bytes _ => ?_
    rcases Zip64Locator.ofBytes? bytes with _ | locator
    · rfl
    · simp only
      rw [firstZip64EndRecord_mirrors h hplain (by omega)]

/-- The bounds of the directory count from the start of the window, so they are equal. -/
theorem findBounds_mirrors (h : w.Mirrors shift v) (hplain : v.inflatedSize = none) :
    findBounds w = findBounds v := by
  unfold findBounds
  rw [findEndRecord_mirrors h hplain]
  refine Metered.bind_congr_of_ok fun found hfound => ?_
  obtain ⟨record, endOffset⟩ := found
  -- The record that was found lies in the window, and so does all in front of it.
  have hfits := (findEndRecord_eq_ok hfound).2.1.2
  rw [Window.length_bytes (h.intact' hplain)] at hfits
  simp only
  rw [findZip64EndRecord_mirrors h hplain (by omega)]

/-- Of the window the records have only its name, in their failures. -/
theorem readEntries_mirrors (h : w.Mirrors shift v) (start base count index position : Nat)
    (bytes : Bytes) (done : List Entry) :
    readEntries w start base count index position bytes done =
      readEntries v start base count index position bytes done := by
  induction count generalizing index position bytes done with
  | zero => rfl
  | succ count ih =>
      unfold readEntries
      rcases Entry.read bytes with e | ⟨entry, span, rest⟩
      · simp only [fault_mirrors h]
      · simp only [fault_mirrors h, ih]

/-- Indexing answers the same in mirrored windows, or fails with the same words,
    for the same price. -/
theorem parse_mirrors (h : w.Mirrors shift v) (hplain : v.inflatedSize = none) :
    parse w = parse v := by
  unfold parse
  rw [findBounds_mirrors h hplain]
  refine Metered.bind_congr_of_ok fun found hfound => ?_
  obtain ⟨b, endOffset⟩ := found
  rcases findBounds_eq_ok hfound with ⟨_, r, hlast, hb⟩
  -- The directory ends in front of the end record, so it can be read as well.
  have hstop := stop_le_of_takenFrom hb
  have hfits := hlast.1.2
  rw [Window.length_bytes (h.intact' hplain)] at hfits
  simp only [fault_mirrors h]
  by_cases hlarge : b.stop < b.size
  · rw [if_pos hlarge, if_pos hlarge]
  · rw [if_neg hlarge, if_neg hlarge, h.readExactAt_of_fits hplain (by omega)]
    simp only [readEntries_mirrors h]

end Index

end NestedZip
