import NestedZip.Proofs.Directory.ExtraField
import NestedZip.Proofs.Directory.Soundness

/-!
# Archives as They Are Written

The layout of an archive from its directory on, and what indexing it answers.

In front of the directory there may be anything, for indexing never looks
there. The directory is a row of records, each with a name, an extra field and
a comment of its own. Behind it stand the ZIP64 records, if the archive has
them, and last comes the end record with its comment. `PackedArchive` is this
layout with all its parts free, and `Packs` says when the parts fit each other:
declared lengths are the lengths there are, and the numbers of one of the two
end records, whichever counts, are those of the directory.

A layout is read back without loss. Only the numbers of an entry are not the
ones in its header where those are saturated and the extra field has wide ones
for them. The one condition that is not about a declared number is that no
end record closes the archive from inside the comment of the true one, since
then that one would be taken.

## Main definitions

* `PackedRecord`: A record of a directory, with all that stands in it.
* `Zip64Trailer`: The records between a directory and a saturated end record.
* `PackedArchive`: An archive, with anything in front of its directory.
* `PackedArchive.Packs`: The parts of an archive fit each other.

## Theorems

* `PackedRecord.read_toBytes`: A record is read back.
* `PackedArchive.narrow_of_lt`, `PackedArchive.last_of_no_comment`: When an archive with one
  plain end record is well laid out.
* `PackedArchive.readEntries_records`: A row of records is read back.
* `PackedArchive.parse_toBytes`: An archive is read back, in any window.
* `PackedArchive.parse_memory`: An archive in a buffer is read back.
-/

namespace NestedZip

/-- A record of a directory, with all that stands in it. -/
structure PackedRecord where
  header : RecordHeader
  name : Bytes
  blocks : List ExtraBlock := []
  /-- What is left of the extra field behind its last block. -/
  stray : Bytes := []
  comment : Bytes := []
  /-- The true numbers. Those whose narrow number is not saturated are not written. -/
  wide : WideNumbers := ⟨0, 0, 0⟩

namespace PackedRecord

def extra (r : PackedRecord) : Bytes := r.blocks.flatMap ExtraBlock.toBytes ++ r.stray

/-- The layout of a record. -/
def toBytes (r : PackedRecord) : Bytes :=
  r.header.toBytes ++ (r.name ++ (r.extra ++ r.comment))

/-- The parts of a record fit its header. The lengths are as declared, and the
    block of wide numbers, of which there is at most one, starts with those
    that are missing in the header. -/
structure Packs (r : PackedRecord) : Prop where
  nameLength : r.name.length = r.header.nameLength.toNat
  extraLength : r.extra.length = r.header.extraLength.toNat
  commentLength : r.comment.length = r.header.commentLength.toNat
  stray : r.stray.length < 4
  oneWide : r.blocks.countP (fun b => b.id = Extents.blockId) ≤ 1
  wide : ∀ b ∈ r.blocks, b.id = Extents.blockId → r.header.extents.wideBytes r.wide <+: b.data

/-- The numbers of a record: the true ones if it has a block for them. -/
def extents (r : PackedRecord) : Extents :=
  if ∃ b ∈ r.blocks, b.id = Extents.blockId then r.header.extents.widened r.wide
  else r.header.extents

/-- The entry that a record describes. -/
def entry (r : PackedRecord) : Entry := r.header.entry r.name r.extents

theorem length_toBytes {r : PackedRecord} (hr : r.Packs) : r.toBytes.length = r.header.span := by
  simp only [toBytes, List.length_append, RecordHeader.length_toBytes, hr.nameLength,
    hr.extraLength, hr.commentLength, RecordHeader.span]
  omega

theorem length_le_toBytes (r : PackedRecord) : RecordHeader.length ≤ r.toBytes.length := by
  rw [toBytes, List.length_append, RecordHeader.length_toBytes]
  omega

/-- A block takes at least one byte. -/
theorem length_blocks_le (blocks : List ExtraBlock) :
    blocks.length ≤ (blocks.flatMap ExtraBlock.toBytes).length := by
  induction blocks with
  | nil => exact Nat.le_refl 0
  | cons b blocks ih =>
      rw [List.flatMap_cons, List.length_append, ExtraBlock.length_toBytes, List.length_cons]
      omega

/-- A block is shorter than the extra field, whose length fits two bytes. -/
theorem length_data_lt {r : PackedRecord} (hr : r.Packs) {b : ExtraBlock} (hb : b ∈ r.blocks) :
    b.data.length < 2 ^ 16 := by
  have hextra := hr.extraLength
  have hnarrow : r.header.extraLength.toNat < 2 ^ 16 := r.header.extraLength.toNat_lt
  rcases List.append_of_mem hb with ⟨front, behind, hblocks⟩
  rw [extra, hblocks, List.flatMap_append, List.flatMap_cons] at hextra
  simp only [List.length_append, ExtraBlock.length_toBytes] at hextra
  omega

/-- The extra field of a record widens the numbers of its header, whatever
    follows it. -/
theorem widen_extra {r : PackedRecord} (hr : r.Packs) (more : Bytes) :
    r.header.extents.widen r.header.extraLength.toNat (r.extra ++ more) = .ok r.extents := by
  have hlength := hr.extraLength
  have hblocks := length_blocks_le r.blocks
  rw [extra, List.length_append] at hlength
  unfold Extents.widen
  rw [← hlength, extra, List.append_assoc]
  exact Extents.widenWithin_blocks r.header.extents r.wide (by omega)
    (fun b hb => length_data_lt hr hb) hr.stray hr.oneWide hr.wide

/-- A record is read back, whatever follows it. -/
theorem read_toBytes {r : PackedRecord} (hr : r.Packs) (rest : Bytes) :
    Entry.read (r.toBytes ++ rest) = .ok (r.entry, r.toBytes.length, rest) := by
  refine Entry.read_eq_ok_iff.mpr ⟨r.header, r.name, r.extra ++ r.comment, r.extents, ?_,
    hr.nameLength, ?_, ?_, rfl, length_toBytes hr⟩
  · simp only [toBytes, List.append_assoc]
  · rw [List.length_append, hr.extraLength, hr.commentLength]
  · rw [List.append_assoc]
    exact widen_extra hr _

/-- The place of an entry is a word, whether it is told in four bytes or in eight. -/
theorem headerOffset_lt (r : PackedRecord) : r.entry.headerOffset < 2 ^ 64 := by
  have hnarrow : r.header.extents.offset < 2 ^ 32 := r.header.headerOffset.toNat_lt
  change r.extents.offset < 2 ^ 64
  unfold extents
  by_cases hblock : ∃ b ∈ r.blocks, b.id = Extents.blockId
  · rw [if_pos hblock]
    exact Extents.widenedOne_lt hnarrow r.wide.offset
  · rw [if_neg hblock]
    omega

end PackedRecord

/-- The records between a directory and a saturated end record. -/
structure Zip64Trailer where
  record : Zip64EndRecord
  /-- Further data of the record, which nobody reads. -/
  extension : Bytes := []
  locator : Zip64Locator

namespace Zip64Trailer

/-- The layout of the records. -/
def toBytes (t : Zip64Trailer) : Bytes :=
  t.record.toBytes ++ (t.extension ++ t.locator.toBytes)

theorem length_toBytes (t : Zip64Trailer) :
    t.toBytes.length = Zip64EndRecord.length + t.extension.length + Zip64Locator.length := by
  simp only [toBytes, List.length_append, Zip64EndRecord.length_toBytes,
    Zip64Locator.length_toBytes]
  omega

end Zip64Trailer

/-- An archive, with anything in front of its directory. -/
structure PackedArchive where
  body : Bytes
  records : List PackedRecord
  trailer : Option Zip64Trailer := none
  endRecord : EndRecord
  comment : Bytes := []

namespace PackedArchive

def directory (p : PackedArchive) : Bytes := p.records.flatMap PackedRecord.toBytes

def trailerBytes (p : PackedArchive) : Bytes := (p.trailer.map Zip64Trailer.toBytes).getD []

/-- The position of the end record. -/
def endPosition (p : PackedArchive) : Nat :=
  p.body.length + (p.directory.length + p.trailerBytes.length)

/-- The layout of an archive. -/
def toBytes (p : PackedArchive) : Bytes :=
  p.body ++ (p.directory ++ (p.trailerBytes ++ (p.endRecord.toBytes ++ p.comment)))

/-- The numbers of a narrow end record are those of the directory. -/
structure Narrow (p : PackedArchive) : Prop where
  plain : p.endRecord.isSaturated = false
  entries : p.endRecord.totalEntries.toNat = p.records.length
  size : p.endRecord.directorySize.toNat = p.directory.length
  offset : p.endRecord.directoryOffset.toNat = p.body.length

/-- The numbers of the ZIP64 records are those of the directory. -/
structure Wide (p : PackedArchive) (t : Zip64Trailer) : Prop where
  saturated : p.endRecord.isSaturated = true
  entries : t.record.totalEntries.toNat = p.records.length
  size : t.record.directorySize.toNat = p.directory.length
  offset : t.record.directoryOffset.toNat = p.body.length
  position : t.locator.endRecordOffset.toNat = p.body.length + p.directory.length

/-- The parts of an archive fit each other, and the end record is the last
    one. -/
structure Packs (p : PackedArchive) : Prop where
  records : ∀ r ∈ p.records, r.Packs
  narrow : p.trailer = none → p.Narrow
  wide : ∀ t, p.trailer = some t → p.Wide t
  commentLength : p.comment.length = p.endRecord.commentLength.toNat
  last : ∀ (q : Nat) (other : EndRecord), p.endPosition < q → ¬ other.ClosesAt p.toBytes q

/-- Where the directory is, however the archive tells it. -/
def bounds (p : PackedArchive) : Index.Bounds where
  totalEntries := p.records.length
  size := p.directory.length
  declaredOffset := p.body.length
  stop := p.body.length + p.directory.length

/-- What indexing an archive answers. -/
def index (p : PackedArchive) : Index where
  entries := p.records.map PackedRecord.entry
  baseOffset := 0
  directoryOffset := p.body.length

theorem length_toBytes (p : PackedArchive) :
    p.toBytes.length = p.endPosition + (EndRecord.length + p.comment.length) := by
  simp only [toBytes, endPosition, List.length_append, EndRecord.length_toBytes]
  omega

theorem drop_body (p : PackedArchive) :
    p.toBytes.drop p.body.length =
      p.directory ++ (p.trailerBytes ++ (p.endRecord.toBytes ++ p.comment)) :=
  List.drop_left

theorem drop_directory (p : PackedArchive) :
    p.toBytes.drop (p.body.length + p.directory.length) =
      p.trailerBytes ++ (p.endRecord.toBytes ++ p.comment) := by
  rw [← List.drop_drop, drop_body, List.drop_left]

theorem drop_endPosition (p : PackedArchive) :
    p.toBytes.drop p.endPosition = p.endRecord.toBytes ++ p.comment := by
  rw [endPosition, ← Nat.add_assoc, ← List.drop_drop, drop_directory, List.drop_left]

/-- An end record that has the numbers of the directory is not saturated if all of them are
    below their largest values. -/
theorem narrow_of_lt {p : PackedArchive} (hcount : p.records.length < 0xFFFF)
    (hsize : p.directory.length < 0xFFFFFFFF) (hoffset : p.body.length < 0xFFFFFFFF)
    (hdisk : p.endRecord.diskEntries = .ofNat p.records.length)
    (htotal : p.endRecord.totalEntries = .ofNat p.records.length)
    (hdirectory : p.endRecord.directorySize = .ofNat p.directory.length)
    (hbody : p.endRecord.directoryOffset = .ofNat p.body.length) : p.Narrow := by
  have hcountNat : (UInt16.ofNat p.records.length).toNat = p.records.length :=
    UInt16.toNat_ofNat_of_lt' (Nat.lt_trans hcount (by decide))
  have hsizeNat : (UInt32.ofNat p.directory.length).toNat = p.directory.length :=
    UInt32.toNat_ofNat_of_lt' (Nat.lt_trans hsize (by decide))
  have hoffsetNat : (UInt32.ofNat p.body.length).toNat = p.body.length :=
    UInt32.toNat_ofNat_of_lt' (Nat.lt_trans hoffset (by decide))
  refine ⟨?_, htotal ▸ hcountNat, hdirectory ▸ hsizeNat, hbody ▸ hoffsetNat⟩
  -- None of the three numbers is the one that stands for a wide number elsewhere.
  have hcountNe : UInt16.ofNat p.records.length ≠ 0xFFFF := by
    intro heq
    rw [heq] at hcountNat
    exact absurd hcount (by rw [← hcountNat]; decide)
  have hsizeNe : UInt32.ofNat p.directory.length ≠ 0xFFFFFFFF := by
    intro heq
    rw [heq] at hsizeNat
    exact absurd hsize (by rw [← hsizeNat]; decide)
  have hoffsetNe : UInt32.ofNat p.body.length ≠ 0xFFFFFFFF := by
    intro heq
    rw [heq] at hoffsetNat
    exact absurd hoffset (by rw [← hoffsetNat]; decide)
  simp only [EndRecord.isSaturated, hdisk, htotal, hdirectory, hbody, Bool.or_eq_false_iff,
    beq_eq_false_iff_ne, ne_eq]
  exact ⟨⟨⟨hcountNe, hcountNe⟩, hsizeNe⟩, hoffsetNe⟩

/-- Without a comment there is no room for a second end record. -/
theorem last_of_no_comment {p : PackedArchive} (hcomment : p.comment = []) (q : Nat)
    (other : EndRecord) (hq : p.endPosition < q) : ¬ other.ClosesAt p.toBytes q := by
  rintro ⟨_, hlength⟩
  have hall := p.length_toBytes
  rw [hcomment, List.length_nil] at hall
  omega

/-- The end record of a packed archive is the last one in it. -/
theorem isLastAt_endPosition {p : PackedArchive} (hp : p.Packs) :
    p.endRecord.IsLastAt p.toBytes p.endPosition := by
  refine ⟨⟨?_, ?_⟩, hp.last⟩
  · rw [drop_endPosition]
    exact List.prefix_append _ _
  · rw [length_toBytes, hp.commentLength, Nat.add_assoc]

/-- The locator of a ZIP64 trailer stands in front of the end record and leads
    to the record of that trailer. -/
theorem takenFrom_of_wide {p : PackedArchive} {t : Zip64Trailer} (ht : p.trailer = some t)
    (hwide : p.Wide t) : p.bounds.TakenFrom p.endRecord p.toBytes p.endPosition := by
  have htrailer : p.trailerBytes = t.toBytes := by rw [trailerBytes, ht]; rfl
  have hlength := t.length_toBytes
  -- The locator is the last part of the trailer.
  have hposition : p.endPosition - Zip64Locator.length =
      p.body.length + p.directory.length + (Zip64EndRecord.length + t.extension.length) := by
    rw [endPosition, htrailer]
    omega
  have hlocator : p.toBytes.drop (p.endPosition - Zip64Locator.length) =
      t.locator.toBytes ++ (p.endRecord.toBytes ++ p.comment) := by
    rw [hposition, ← List.drop_drop, drop_directory, htrailer, Zip64Trailer.toBytes,
      List.append_assoc, List.append_assoc, ← List.drop_drop, ← t.record.length_toBytes,
      List.drop_left, List.drop_left]
  unfold Index.Bounds.TakenFrom
  rw [if_pos hwide.saturated]
  refine ⟨t.locator, t.record, ?_, ?_, ⟨?_, ?_, Or.inl hwide.position.symm⟩, hwide.entries.symm,
    hwide.size.symm, hwide.offset.symm⟩
  · rw [endPosition, htrailer]
    omega
  · rw [hlocator]
    exact List.prefix_append _ _
  · change t.record.toBytes <+: p.toBytes.drop (p.body.length + p.directory.length)
    rw [drop_directory, htrailer, Zip64Trailer.toBytes, List.append_assoc]
    exact List.prefix_append _ _
  · change p.body.length + p.directory.length + Zip64EndRecord.length ≤ _
    omega

/-- Without a trailer the bounds are in the end record. -/
theorem takenFrom_of_narrow {p : PackedArchive} (hnone : p.trailer = none) (hnarrow : p.Narrow) :
    p.bounds.TakenFrom p.endRecord p.toBytes p.endPosition := by
  unfold Index.Bounds.TakenFrom
  rw [if_neg (by rw [hnarrow.plain]; exact Bool.false_ne_true)]
  refine ⟨hnarrow.entries.symm, hnarrow.size.symm, hnarrow.offset.symm, ?_⟩
  rw [endPosition, trailerBytes, hnone]
  rfl

/-- Either way the bounds are found where they were put. -/
theorem takenFrom_endPosition {p : PackedArchive} (hp : p.Packs) :
    p.bounds.TakenFrom p.endRecord p.toBytes p.endPosition := by
  rcases ht : p.trailer with _ | t
  · exact takenFrom_of_narrow ht (hp.narrow ht)
  · exact takenFrom_of_wide ht (hp.wide t ht)

/-- A row of records is read back, one record after the other. Nothing is in
    front of the archive, so no place is moved and none can leave 64 bits. -/
theorem readEntries_records (w : Window) (start index position : Nat)
    {records : List PackedRecord} (hrecords : ∀ r ∈ records, r.Packs) (done : List Entry) :
    Index.readEntries w start 0 records.length index position
      (records.flatMap PackedRecord.toBytes) done =
      .ok (done.reverse ++ records.map PackedRecord.entry,
        position + (records.flatMap PackedRecord.toBytes).length) := by
  induction records generalizing index position done with
  | nil => simp only [List.length_nil, Index.readEntries, List.map_nil, List.append_nil,
      List.flatMap_nil, Nat.add_zero]
  | cons r records ih =>
      -- Nothing is in front of the archive, so the place of an entry is the one its record tells.
      have hplace : r.entry.headerOffset < wordLimit := r.headerOffset_lt
      rw [List.length_cons, List.flatMap_cons, Index.readEntries,
        PackedRecord.read_toBytes (hrecords r List.mem_cons_self)]
      simp only [Nat.add_zero]
      rw [if_neg (Nat.not_le_of_lt hplace),
        ih _ _ (fun s hs => hrecords s (List.mem_cons_of_mem r hs)), List.reverse_cons,
        List.append_assoc, List.singleton_append, List.map_cons, List.length_append,
        Nat.add_assoc]

/-- Every record takes at least the bytes of its fixed fields. -/
theorem length_records_le (records : List PackedRecord) :
    records.length * RecordHeader.length ≤ (records.flatMap PackedRecord.toBytes).length := by
  induction records with
  | nil => exact Nat.le_of_eq (Nat.zero_mul _)
  | cons r records ih =>
      have hr := r.length_le_toBytes
      rw [List.length_cons, List.flatMap_cons, List.length_append, Nat.succ_mul]
      omega

/-- An archive is read back, in any window that shows just its bytes. -/
theorem parse_toBytes {p : PackedArchive} (hp : p.Packs) {w : Window} (hw : w.Intact)
    (hbytes : w.bytes = p.toBytes) : (Index.parse w).outcome = .ok p.index := by
  -- Parsing asks for an end record, for the bounds it gives and for what lies within them.
  refine Index.parse_eq_ok_iff.mpr ⟨hw, p.endRecord, p.endPosition, p.bounds, ?_, ?_, rfl,
    Nat.zero_add _, ?_, ?_⟩
  · rw [hbytes]
    exact isLastAt_endPosition hp
  · rw [hbytes]
    exact takenFrom_endPosition hp
  · exact Nat.le_trans (Nat.min_le_left _ _) (length_records_le p.records)
  · -- Between the body and what follows the records there are just the records.
    have hdirectory : (w.bytes.drop p.index.directoryOffset).take p.bounds.size =
        p.records.flatMap PackedRecord.toBytes := by
      rw [hbytes]
      change (p.toBytes.drop p.body.length).take p.directory.length = _
      rw [drop_body, List.take_left]
      rfl
    have hread := readEntries_records w p.index.directoryOffset 0 0 hp.records []
    rw [hdirectory]
    rw [List.reverse_nil, List.nil_append, Nat.zero_add] at hread
    exact hread

/-- Indexing undoes the layout of an archive: a buffer that holds just its bytes
    has the entries of its records, in their order, and nothing in front. -/
theorem parse_memory {p : PackedArchive} (hp : p.Packs) (name : String) :
    (Index.parse (.whole (.memory name ⟨p.toBytes.toArray⟩))).outcome =
      .ok {
        entries := p.records.map PackedRecord.entry
        baseOffset := 0
        directoryOffset := p.body.length } :=
  parse_toBytes hp (Window.intact_whole_memory _ _) (Window.bytes_whole_memory _ _)

/-- A record whose size and place are wide, in the second block of its extra
    field. -/
def wideRecord : PackedRecord where
  header := {
    madeBy := 45, needed := 45, flags := 0, method := 8, packedTime := 1, packedDate := 2
    crc := 3, compressedSize := 5, uncompressedSize := 0xFFFFFFFF, nameLength := 1
    extraLength := 27, commentLength := 2, startDisk := 0, internalAttributes := 0
    externalAttributes := 0, headerOffset := 0xFFFFFFFF }
  name := [0x61]
  blocks := [⟨7, [0x2A]⟩, ⟨1, [0, 0, 0, 0, 1, 0, 0, 0, 9, 0, 0, 0, 2, 0, 0, 0]⟩]
  stray := [1, 0]
  comment := [0x21, 0x21]
  wide := { uncompressed := 0x100000000, compressed := 0, offset := 0x200000009 }

/-- An archive of this one record, with ZIP64 records and a comment. -/
def wideArchive : PackedArchive where
  body := [0x50, 0x4B, 3]
  records := [wideRecord]
  trailer := some {
    record := {
      recordSize := 45, madeBy := 45, needed := 45, diskNumber := 0, directoryDisk := 0
      diskEntries := 1, totalEntries := 1, directorySize := 76, directoryOffset := 3 }
    extension := [0xFF]
    locator := { endRecordDisk := 0, endRecordOffset := 79, totalDisks := 1 } }
  endRecord := {
    diskNumber := 0, directoryDisk := 0, diskEntries := 0xFFFF, totalEntries := 0xFFFF
    directorySize := 0xFFFFFFFF, directoryOffset := 0xFFFFFFFF, commentLength := 2 }
  comment := [0x50, 0x4B]

/-- The archive is one that can be packed. -/
theorem wideArchive_packs : wideArchive.Packs where
  records := by
    intro r hr
    rw [List.mem_singleton.mp hr]
    exact {
      nameLength := by decide
      extraLength := by decide
      commentLength := by decide
      stray := by decide
      oneWide := by decide
      wide := by decide }
  narrow := by
    intro hnone
    exact absurd hnone (by simp only [wideArchive, reduceCtorEq, not_false_eq_true])
  wide := by
    rintro t ht
    rw [← Option.some.inj ht]
    exact {
      saturated := by decide
      entries := by decide
      size := by decide
      offset := by decide
      position := by decide }
  commentLength := by decide
  last := by
    rintro q other hq ⟨hstands, hlength⟩
    have hall : wideArchive.toBytes.length = 180 := by decide +kernel
    have hend : wideArchive.endPosition = 156 := by decide +kernel
    have hfits : q + 22 + other.commentLength.toNat = 180 := by
      rw [← hall]
      exact hlength
    rw [← EndRecord.ofBytes?_eq_some_iff] at hstands
    -- Only two places behind the end record leave room for another one, and neither has one.
    have hnone : ∀ p ∈ [157, 158], EndRecord.ofBytes? (wideArchive.toBytes.drop p) = none := by
      decide +kernel
    rw [hnone q (by simp only [List.mem_cons, List.not_mem_nil, or_false]; omega)] at hstands
    exact absurd hstands (by simp only [reduceCtorEq, not_false_eq_true])

/-- The size and the place of its one entry come from its block, and the directory is found by the
    wide end record. -/
theorem parse_wideArchive :
    wideArchive.Packs ∧
    (Index.parse (.whole (.memory "wide" ⟨wideArchive.toBytes.toArray⟩))).outcome =
      .ok {
        entries := [{
          name := [0x61], method := .deflated, compressedSize := 5
          uncompressedSize := 0x100000000, crc := 3, headerOffset := 0x200000009
          packedTime := 1, packedDate := 2 }]
        baseOffset := 0
        directoryOffset := 3 } :=
  ⟨wideArchive_packs, parse_memory wideArchive_packs "wide"⟩

end PackedArchive

end NestedZip
