import NestedZip.Proofs.Directory.Soundness

/-!
# What the Bytes in Front of the Directory Can Do

How far an index depends on what stands in front of its directory.

The data of the entries stands there, and local headers, and whatever was put
in front of the archive. Two archives may be compared that have the same bytes
from the directory on. The search for the end record goes far enough back to
reach into the data. Nothing in there can win, since the later end record is
taken and that one stands behind the directory. The directory itself is read
from where its end says, and each record from where the one before ends.

One way is left. A ZIP64 locator names the place of a ZIP64 end record, and that
place is tried before the one next to the locator. It is a stale place if
something was put in front of the archive afterwards, and then it may lie in the
data. If a ZIP64 end record stands there it is believed, and another directory
is read. `Misled` is this case, and it is the only one: `parse_of_same_tail` says
that the index stays the same just if the archive is not misled.

## Main definitions

* `SameFrom`: As many bytes, and the same ones from a position on.
* `Index.Misled`: A ZIP64 end record in front of the directory is believed.

## Theorems

* `SameFrom.isLastAt`: The last end record stays the last.
* `Index.takenFrom_of_same`: The bounds stay the same, unless the archive is misled.
* `Index.parse_of_same_tail`: When an index stays the same.
-/

namespace NestedZip

/-- As many bytes, and the same ones from a position on. -/
structure SameFrom (start : Nat) (bytes other : Bytes) : Prop where
  length : other.length = bytes.length
  tail : other.drop start = bytes.drop start

namespace SameFrom

variable {start p : Nat} {bytes other : Bytes} {r : EndRecord}

theorem drop (h : SameFrom start bytes other) (hp : start ≤ p) : other.drop p = bytes.drop p := by
  rw [← Nat.add_sub_cancel' hp, ← List.drop_drop, ← List.drop_drop, h.tail]

theorem closesAt_iff (h : SameFrom start bytes other) (hp : start ≤ p) :
    r.ClosesAt other p ↔ r.ClosesAt bytes p := by
  unfold EndRecord.ClosesAt
  rw [h.drop hp, h.length]

/-- An end record in front of the position may have changed, but does not come last. -/
theorem isLastAt (h : SameFrom start bytes other) (hp : start ≤ p) (hr : r.IsLastAt bytes p) :
    r.IsLastAt other p := by
  refine ⟨(h.closesAt_iff hp).mpr hr.1, fun q later hq hcloses => ?_⟩
  have hbehind : start ≤ q := by omega
  exact hr.2 q later hq ((h.closesAt_iff hbehind).mp hcloses)

end SameFrom

namespace Index

/-- The last end record leads on to a locator that names a place in front of a
    position, and a ZIP64 end record stands there. -/
def Misled (bytes : Bytes) (start : Nat) : Prop :=
  ∃ (r : EndRecord) (position : Nat) (l : Zip64Locator) (z : Zip64EndRecord),
    r.IsLastAt bytes position ∧ r.isSaturated ∧ Zip64Locator.length ≤ position ∧
    l.toBytes <+: bytes.drop (position - Zip64Locator.length) ∧
    l.endRecordOffset.toNat < start ∧ z.toBytes <+: bytes.drop l.endRecordOffset.toNat

/-- The window matters to the records only where one of them is at fault. -/
theorem readEntries_of_window {w : Window} (w' : Window) {start base count index position : Nat}
    {bytes : Bytes} {done : List Entry} {result : List Entry × Nat}
    (h : readEntries w start base count index position bytes done = .ok result) :
    readEntries w' start base count index position bytes done = .ok result := by
  -- The window is named in failures alone, and nothing fails here.
  induction count generalizing index position bytes done with
  | zero => exact h
  | succ count ih =>
      unfold readEntries at h ⊢
      rcases hread : Entry.read bytes with fault | ⟨e, length, after⟩
      · rw [hread] at h
        exact absurd h error_ne_ok
      simp only [hread] at h ⊢
      by_cases hplace : wordLimit ≤ e.headerOffset + base
      · rw [if_pos hplace] at h
        exact absurd h error_ne_ok
      · rw [if_neg hplace] at h ⊢
        exact ih h

variable {start position : Nat} {bytes other : Bytes} {b : Bounds} {r : EndRecord}

/-- The bounds stay the same if no ZIP64 end record in front of the position is
    believed. -/
theorem takenFrom_of_same (h : SameFrom start bytes other) (hstop : start ≤ b.stop)
    (hlast : r.IsLastAt other position) (hb : b.TakenFrom r bytes position)
    (hmisled : ¬ Misled other start) : b.TakenFrom r other position := by
  unfold Bounds.TakenFrom at hb ⊢
  by_cases hwide : r.isSaturated
  · rw [if_pos hwide] at hb ⊢
    rcases hb with ⟨l, z, hroom, hl, ⟨hz, hfits, hplace⟩, hnumbers⟩
    have hlocator : l.toBytes <+: other.drop (position - Zip64Locator.length) := by
      rw [h.drop (by omega)]
      exact hl
    refine ⟨l, z, hroom, hlocator, ⟨by rw [h.drop hstop]; exact hz, hfits, ?_⟩, hnumbers⟩
    rcases hplace with hdeclared | ⟨hadjacent, hstale⟩
    · exact Or.inl hdeclared
    · refine Or.inr ⟨hadjacent, fun stray hroom' hstray => ?_⟩
      -- A record at the declared place was there before, or is the one that misleads.
      by_cases hfront : l.endRecordOffset.toNat < start
      · exact hmisled ⟨r, position, l, stray, hlast, hwide, hroom, hlocator, hfront, hstray⟩
      · rw [h.drop (Nat.le_of_not_lt hfront)] at hstray
        exact hstale stray hroom' hstray
  · rw [if_neg hwide] at hb ⊢
    exact hb

/-- An archive that is misled takes its bounds from in front of the position, if
    there is room for a ZIP64 end record behind it. -/
theorem stop_lt_of_misled (hlast : r.IsLastAt bytes position)
    (hroom : start + Zip64EndRecord.length ≤ position - Zip64Locator.length)
    (hmisled : Misled bytes start) (hb : b.TakenFrom r bytes position) : b.stop < start := by
  rcases hmisled with ⟨r', position', l, stray, hlast', hwide, _, hl, hfront, hstray⟩
  rcases EndRecord.isLastAt_unique hlast hlast' with ⟨rfl, rfl⟩
  unfold Bounds.TakenFrom at hb
  rw [if_pos hwide] at hb
  rcases hb with ⟨l', z, _, hl', ⟨_, _, hplace⟩, _⟩
  rw [← eq_of_stand Zip64Locator.ofBytes?_eq_some_iff hl hl'] at hplace
  rcases hplace with hdeclared | ⟨_, hstale⟩
  · rw [hdeclared]
    exact hfront
  · exact absurd hstray (hstale stray (by omega))

/-- Where a saturated record leads, there is room for a ZIP64 end record. -/
theorem room_of_takenFrom (hb : b.TakenFrom r bytes position) (hwide : r.isSaturated) :
    b.stop + Zip64EndRecord.length ≤ position - Zip64Locator.length := by
  unfold Bounds.TakenFrom at hb
  rw [if_pos hwide] at hb
  rcases hb with ⟨_, z, _, _, hz, _⟩
  exact hz.2.1

theorem Misled.isSaturated (hmisled : Misled bytes start) (hlast : r.IsLastAt bytes position) :
    r.isSaturated := by
  rcases hmisled with ⟨r', position', l, stray, hlast', hwide, _⟩
  rw [(EndRecord.isLastAt_unique hlast hlast').1]
  exact hwide

/-- Whatever is put in place of the bytes in front of a directory, the index stays
    the same, unless the end record is saturated, its locator names a place there,
    and what is put there is a ZIP64 end record. Then it does not stay the same. -/
theorem parse_of_same_tail {w w' : Window} {x : Index} (hparse : (parse w).outcome = .ok x)
    (hw' : w'.Intact) (hlength : w'.bytes.length = w.bytes.length)
    (htail : w'.bytes.drop x.directoryOffset = w.bytes.drop x.directoryOffset) :
    (parse w').outcome = .ok x ↔ ¬ Misled w'.bytes x.directoryOffset := by
  rcases parse_eq_ok_iff.mp hparse with
    ⟨_, r, position, b, hlast, hb, hstop, hbase, hmany, hentries⟩
  have hsame : SameFrom x.directoryOffset w.bytes w'.bytes := ⟨hlength, htail⟩
  -- The end record stands behind the directory, so both windows have the same one.
  have hle := stop_le_of_takenFrom hb
  have hlast' : r.IsLastAt w'.bytes position := hsame.isLastAt (by omega) hlast
  constructor
  · intro hparse' hmisled
    rcases parse_eq_ok_iff.mp hparse' with ⟨_, r', position', b', hr', hb', hstop', _⟩
    rcases EndRecord.isLastAt_unique hlast' hr' with ⟨rfl, rfl⟩
    -- The directory would have to end in front of where it starts.
    have hroom := room_of_takenFrom hb (hmisled.isSaturated hlast')
    have hlt := stop_lt_of_misled hlast' (by omega) hmisled hb'
    omega
  · intro hmisled
    -- With the same bounds, the directory is the same bytes, and so are the records.
    have hb' := takenFrom_of_same hsame (by omega) hlast' hb hmisled
    refine parse_eq_ok_iff.mpr ⟨hw', r, position, b, hlast', hb', hstop, hbase, hmany, ?_⟩
    rw [htail]
    exact readEntries_of_window w' hentries

/-- A record of an entry without data, whose name is one byte. -/
def bareRecord (name : UInt8) : Bytes :=
  RecordHeader.toBytes {
    madeBy := 45, needed := 45, flags := 0, method := 0, packedTime := 0, packedDate := 0
    crc := 0, compressedSize := 0, uncompressedSize := 0, nameLength := 1, extraLength := 0
    commentLength := 0, startDisk := 0, internalAttributes := 0, externalAttributes := 0
    headerOffset := 0 } ++ [name]

/-- The ZIP64 end record behind one such record. -/
def bareZip64EndRecord : Zip64EndRecord where
  recordSize := 44
  madeBy := 45
  needed := 45
  diskNumber := 0
  directoryDisk := 0
  diskEntries := 1
  totalEntries := 1
  directorySize := 47
  directoryOffset := 0

/-- The locator behind that, which does not know of anything in front of the record. -/
def bareLocator : Zip64Locator where
  endRecordDisk := 0
  endRecordOffset := 47
  totalDisks := 1

def saturatedEndRecord : EndRecord where
  diskNumber := 0
  directoryDisk := 0
  diskEntries := 0xFFFF
  totalEntries := 0xFFFF
  directorySize := 0xFFFFFFFF
  directoryOffset := 0xFFFFFFFF
  commentLength := 0

/-- A buffer with a ZIP64 archive of the entry `a`, behind some other bytes. -/
def behind (front : Bytes) : Window :=
  let bytes := front ++ bareRecord 0x61 ++ bareZip64EndRecord.toBytes ++ bareLocator.toBytes ++
    saturatedEndRecord.toBytes
  .whole (.memory "t" ⟨bytes.toArray⟩)

/-- What is found behind 103 bytes. -/
def shiftedBy103 : Index where
  entries := [{
    name := [0x61], method := .stored, compressedSize := 0, uncompressedSize := 0, crc := 0
    headerOffset := 103, packedTime := 0, packedDate := 0 }]
  baseOffset := 103
  directoryOffset := 103

/-- One launch script replaced by another one. -/
theorem parse_of_same_tail_script :
    let w := behind (List.replicate 103 0x23)
    let w' := behind (List.replicate 103 0x2A)
    (parse w).outcome = .ok shiftedBy103 ∧ w'.Intact ∧ w'.bytes.length = w.bytes.length ∧
      w'.bytes.drop 103 = w.bytes.drop 103 ∧ (parse w').outcome = .ok shiftedBy103 := by
  intro w w'
  have hparse : (parse w).outcome = .ok shiftedBy103 := by decide +kernel
  have hw' : w'.Intact := Window.intact_whole_memory _ _
  have hlength : w'.bytes.length = w.bytes.length := by decide +kernel
  have htail : w'.bytes.drop 103 = w.bytes.drop 103 := by decide +kernel
  refine ⟨hparse, hw', hlength, htail, (parse_of_same_tail hparse hw' hlength htail).mpr ?_⟩
  rintro ⟨r, position, l, z, hlast, _, _, hl, _, hz⟩
  have hend : saturatedEndRecord.IsLastAt w'.bytes (w'.bytes.length - EndRecord.length) :=
    isLastAt_of_closesAt_end ⟨by decide +kernel, by decide +kernel⟩
  rcases EndRecord.isLastAt_unique hend hlast with ⟨rfl, rfl⟩
  have hlocator : bareLocator.toBytes <+:
      w'.bytes.drop (w'.bytes.length - EndRecord.length - Zip64Locator.length) := by
    decide +kernel
  rw [← eq_of_stand Zip64Locator.ofBytes?_eq_some_iff hlocator hl] at hz
  -- The place that the locator names lies in the script, and no record stands there.
  have hnone :
      Zip64EndRecord.ofBytes? (w'.bytes.drop bareLocator.endRecordOffset.toNat) = none := by
    decide +kernel
  rw [← Zip64EndRecord.ofBytes?_eq_some_iff, hnone] at hz
  exact absurd hz (by simp only [reduceCtorEq, not_false_eq_true])

/-- A launch script replaced by a directory with the entry `x` and a ZIP64 end
    record, which stands where the locator of the archive points. -/
theorem forged_front_is_read :
    let w := behind (List.replicate 103 0x23)
    let w' := behind (bareRecord 0x78 ++ bareZip64EndRecord.toBytes)
    (parse w).outcome = .ok shiftedBy103 ∧ w'.Intact ∧ w'.identity = w.identity ∧
      w'.bytes.length = w.bytes.length ∧ w'.bytes.drop 103 = w.bytes.drop 103 ∧
      (parse w').outcome = .ok {
        entries := [{
          name := [0x78], method := .stored, compressedSize := 0, uncompressedSize := 0
          crc := 0, headerOffset := 0, packedTime := 0, packedDate := 0 }]
        baseOffset := 0
        directoryOffset := 0 } := by
  intro w w'
  exact ⟨by decide +kernel, Window.intact_whole_memory _ _, rfl, by decide +kernel,
    by decide +kernel, by decide +kernel⟩

end Index

end NestedZip
