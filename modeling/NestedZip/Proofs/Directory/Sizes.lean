import NestedZip.Proofs.Directory.Layout

/-!
# Sizes That a Directory Can Tell

Which sizes the entries of an accepted archive have: any two words.

A header has narrow numbers for the two sizes, and wide ones may stand for them
in the extra field. Either way a size is a word. The narrow numbers are where
the blocks of an extra field start from, every block leaves words, and adding
to the place of an entry does not touch its sizes. So the invariant runs through
three loops, one inside the other, and says of an accepted archive that whoever
computes with its sizes starts with words.

Nothing else is known of them. A record can tell any two words, for the sizes
are compared neither with each other nor with the bytes there are. `ofSizes` is
an archive of such records and nothing else: the largest words that there are
can be told by an archive of ninety bytes.

## Main definitions

* `Extents.Sized`, `Entry.Sized`: The two sizes are words.
* `PackedRecord.ofSizes`, `PackedArchive.ofSizes`: Records that tell given sizes.

## Theorems

* `Extents.widenWithin_sized`: What every block of an extra field keeps.
* `Index.sized_of_parse`, `Index.length_entries_lt`: The sizes in an accepted archive are words,
  and so is the number of its entries.
* `PackedArchive.parse_ofSizes`: Any sizes can be told.
* `Index.exists_sizes_iff`: Both, for one entry.
-/

namespace NestedZip

/-- The two sizes are words. -/
structure Extents.Sized (e : Extents) : Prop where
  uncompressed : e.uncompressed < wordLimit
  compressed : e.compressed < wordLimit

/-- The two sizes are words. -/
structure Entry.Sized (e : Entry) : Prop where
  uncompressed : e.uncompressedSize < wordLimit
  compressed : e.compressedSize < wordLimit

theorem RecordHeader.sized_extents (h : RecordHeader) : h.extents.Sized where
  uncompressed := Nat.lt_trans h.uncompressedSize.toNat_lt (by decide)
  compressed := Nat.lt_trans h.compressedSize.toNat_lt (by decide)

namespace Extents

/-- A number that is looked for in a block is a word, whether it is found there or not. -/
theorem widenOne_lt {value value' room room' : Nat} {bytes bytes' : Bytes}
    (hvalue : value < wordLimit)
    (h : widenOne value room bytes = .ok (value', room', bytes')) : value' < wordLimit := by
  unfold widenOne at h
  by_cases hwide : value = saturated ∧ 8 ≤ room
  · rw [if_pos hwide] at h
    rcases hnumber : Reader.number 8 bytes with _ | ⟨wide, rest⟩
    · rw [hnumber] at h
      exact absurd h error_ne_ok
    · simp only [hnumber, Except.ok.injEq, Prod.mk.injEq] at h
      -- A number of eight bytes is a word.
      have hword : wide < 256 ^ 8 := (Reader.number_eq_some_iff.mp hnumber).1
      rw [← h.1]
      exact hword
  · rw [if_neg hwide] at h
    simp only [Except.ok.injEq, Prod.mk.injEq] at h
    rw [← h.1]
    exact hvalue

/-- Sizes that are words stay words when a block is read. -/
theorem widenFrom_sized {e e' : Extents} {room : Nat} {bytes : Bytes} (he : e.Sized)
    (h : e.widenFrom room bytes = .ok e') : e'.Sized := by
  unfold widenFrom at h
  rcases except_bind_eq_ok_iff.mp h with ⟨⟨uncompressed, room₁, bytes₁⟩, h₁, h⟩
  rcases except_bind_eq_ok_iff.mp h with ⟨⟨compressed, room₂, bytes₂⟩, h₂, h⟩
  rcases except_bind_eq_ok_iff.mp h with ⟨⟨offset, room₃, bytes₃⟩, _, h⟩
  simp only [pure, Except.pure, Except.ok.injEq] at h
  subst h
  exact ⟨widenOne_lt he.uncompressed h₁, widenOne_lt he.compressed h₂⟩

/-- Words go into every block of an extra field and words come out, whatever it declares. -/
theorem widenWithin_sized {fuel left : Nat} {bytes : Bytes} {e e' : Extents} (he : e.Sized)
    (h : widenWithin fuel left bytes e = .ok e') : e'.Sized := by
  -- The invariant: the sizes are words in front of every block.
  induction fuel generalizing left bytes e with
  | zero =>
      simp only [widenWithin, Except.ok.injEq] at h
      exact h ▸ he
  | succ fuel ih =>
      unfold widenWithin at h
      by_cases hleft : left < 4
      · rw [if_pos hleft, Except.ok.injEq] at h
        exact h ▸ he
      rw [if_neg hleft] at h
      rcases hid : Reader.u16 bytes with _ | ⟨id, afterId⟩
      · rw [hid] at h
        exact absurd h error_ne_ok
      simp only [hid] at h
      rcases hsize : Reader.u16 afterId with _ | ⟨size, inside⟩
      · rw [hsize] at h
        exact absurd h error_ne_ok
      simp only [hsize] at h
      by_cases hblock : id = blockId
      · rw [if_pos hblock] at h
        rcases except_bind_eq_ok_iff.mp h with ⟨mid, hmid, hrest⟩
        exact ih (widenFrom_sized he hmid) hrest
      · rw [if_neg hblock] at h
        exact ih he h

end Extents

theorem Entry.sized_of_read {bytes rest : Bytes} {e : Entry} {span : Nat}
    (h : Entry.read bytes = .ok (e, span, rest)) : e.Sized := by
  rcases Entry.read_eq_ok_iff.mp h with ⟨header, name, behind, x, _, _, _, hx, rfl, _⟩
  have hsized := Extents.widenWithin_sized header.sized_extents hx
  exact ⟨hsized.uncompressed, hsized.compressed⟩

namespace Index

/-- The loop over the records adds one entry after the other to those that are done. -/
theorem readEntries_sized {w : Window} {start base count index position span : Nat}
    {bytes : Bytes} {done entries : List Entry} (hdone : ∀ e ∈ done, e.Sized)
    (h : readEntries w start base count index position bytes done = .ok (entries, span)) :
    ∀ e ∈ entries, e.Sized := by
  induction count generalizing index position bytes done with
  | zero =>
      simp only [readEntries, Except.ok.injEq, Prod.mk.injEq] at h
      intro e he
      rw [← h.1, List.mem_reverse] at he
      exact hdone e he
  | succ count ih =>
      unfold readEntries at h
      rcases hread : Entry.read bytes with fault | ⟨e, length, after⟩
      · rw [hread] at h
        exact absurd h error_ne_ok
      simp only [hread] at h
      by_cases hplace : wordLimit ≤ e.headerOffset + base
      · rw [if_pos hplace] at h
        exact absurd h error_ne_ok
      rw [if_neg hplace] at h
      -- The entry is moved to its place, which leaves its sizes what they were.
      have hsized := Entry.sized_of_read hread
      have hmoved : ({ e with headerOffset := e.headerOffset + base } : Entry).Sized :=
        ⟨hsized.uncompressed, hsized.compressed⟩
      exact ih (List.forall_mem_cons.mpr ⟨hmoved, hdone⟩) h

/-- Whatever window is accepted, the sizes of all entries are words. -/
theorem sized_of_parse {w : Window} {x : Index} (h : (parse w).outcome = .ok x) :
    ∀ e ∈ x.entries, e.Sized := by
  rcases parse_eq_ok_iff.mp h with ⟨_, _, _, _, _, _, _, _, _, hentries⟩
  exact readEntries_sized (fun e he => absurd he List.not_mem_nil) hentries

/-- So is the number of entries, for an end record has told it. -/
theorem length_entries_lt {w : Window} {x : Index} (h : (parse w).outcome = .ok x) :
    x.entries.length < wordLimit := by
  rcases records_tile_directory h with ⟨r, _, b, _, _, hb, _, _, _, hcount, _⟩
  rw [hcount]
  unfold Bounds.TakenFrom at hb
  by_cases hwide : r.isSaturated
  · rw [if_pos hwide] at hb
    rcases hb with ⟨_, z, _, _, _, htotal, _⟩
    rw [htotal]
    exact z.totalEntries.toNat_lt
  · rw [if_neg hwide] at hb
    rw [hb.1]
    exact Nat.lt_trans r.totalEntries.toNat_lt (by decide)

end Index

namespace PackedRecord

/-- A header that leaves both sizes to a block of wide numbers, which is all there is in
    the extra field. -/
def saturatedHeader : RecordHeader where
  madeBy := 45
  needed := 45
  flags := 0
  method := 0
  packedTime := 0
  packedDate := 0
  crc := 0
  compressedSize := 0xFFFFFFFF
  uncompressedSize := 0xFFFFFFFF
  nameLength := 1
  extraLength := 20
  commentLength := 0
  startDisk := 0
  internalAttributes := 0
  externalAttributes := 0
  headerOffset := 0

/-- A record that tells the two sizes in wide numbers. -/
def ofSizes (compressed size : UInt64) : PackedRecord where
  header := saturatedHeader
  name := [0x61]
  blocks := [⟨Extents.blockId, .ofNatLE 8 size.toNat ++ .ofNatLE 8 compressed.toNat⟩]
  wide := { uncompressed := size, compressed, offset := 0 }

variable (compressed size : UInt64)

theorem length_extra_ofSizes : (ofSizes compressed size).extra.length = 20 := by
  simp only [extra, ofSizes, List.flatMap_cons, List.flatMap_nil, List.append_nil,
    ExtraBlock.length_toBytes, List.length_append, Bytes.length_ofNatLE]

theorem packs_ofSizes : (ofSizes compressed size).Packs where
  nameLength := rfl
  extraLength := length_extra_ofSizes compressed size
  commentLength := rfl
  stray := Nat.zero_lt_succ 3
  oneWide := by
    simp only [ofSizes, List.countP_cons, List.countP_nil, decide_true, if_true]
    exact Nat.le_refl 1
  wide := by
    intro b hb _
    rw [List.mem_singleton.mp hb]
    -- The place is not at its largest value, so no wide number stands for it.
    have hbytes : saturatedHeader.extents.wideBytes ⟨size, compressed, 0⟩ =
        .ofNatLE 8 size.toNat ++ .ofNatLE 8 compressed.toNat := congrArg _ (List.append_nil _)
    exact hbytes ▸ List.prefix_rfl

theorem length_ofSizes : (ofSizes compressed size).toBytes.length = 67 :=
  length_toBytes (packs_ofSizes compressed size)

theorem entry_ofSizes : (ofSizes compressed size).entry =
    { name := [0x61], method := .stored, compressedSize := compressed.toNat,
      uncompressedSize := size.toNat } := by
  have hblock : ∃ b ∈ (ofSizes compressed size).blocks, b.id = Extents.blockId :=
    ⟨_, List.mem_singleton.mpr rfl, rfl⟩
  rw [entry, extents, if_pos hblock]
  rfl

end PackedRecord

namespace PackedArchive

/-- An archive whose directory tells these sizes, the compressed one first in each pair. It
    has a directory and an end record, and nothing in front of them. -/
def ofSizes (sizes : List (UInt64 × UInt64)) : PackedArchive where
  body := []
  records := sizes.map fun (compressed, size) => .ofSizes compressed size
  endRecord := {
    diskNumber := 0
    directoryDisk := 0
    diskEntries := .ofNat sizes.length
    totalEntries := .ofNat sizes.length
    directorySize := .ofNat (67 * sizes.length)
    directoryOffset := 0
    commentLength := 0 }

variable {sizes : List (UInt64 × UInt64)}

/-- A record with a name of one byte and a block of two numbers takes 67 bytes. -/
theorem length_directory_ofSizes (sizes : List (UInt64 × UInt64)) :
    (ofSizes sizes).directory.length = 67 * sizes.length := by
  rw [directory, ofSizes]
  induction sizes with
  | nil => rfl
  | cons pair sizes ih =>
      rw [List.map_cons, List.flatMap_cons, List.length_append, ih, PackedRecord.length_ofSizes,
        List.length_cons]
      omega

/-- The directory is small, so the end record alone tells where it is. -/
theorem narrow_ofSizes (h : sizes.length < 0xFFFF) : (ofSizes sizes).Narrow := by
  have hcount : (ofSizes sizes).records.length = sizes.length := List.length_map _
  have hdirectory := length_directory_ofSizes sizes
  have hentries : UInt16.ofNat sizes.length = .ofNat (ofSizes sizes).records.length := by
    rw [hcount]
  have hsize : UInt32.ofNat (67 * sizes.length) = .ofNat (ofSizes sizes).directory.length := by
    rw [hdirectory]
  have hbody : (ofSizes sizes).body.length < 0xFFFFFFFF := Nat.zero_lt_succ _
  exact narrow_of_lt (hcount ▸ h) (by omega) hbody hentries hentries hsize rfl

theorem packs_ofSizes (h : sizes.length < 0xFFFF) : (ofSizes sizes).Packs where
  records := by
    intro r hr
    rcases List.mem_map.mp hr with ⟨pair, _, rfl⟩
    exact PackedRecord.packs_ofSizes pair.1 pair.2
  narrow := fun _ => narrow_ofSizes h
  wide := fun t ht => absurd ht (by simp only [ofSizes, reduceCtorEq, not_false_eq_true])
  commentLength := rfl
  last := last_of_no_comment rfl

/-- Any sizes can be told: the archive that tells them is accepted, with one entry for
    each pair. -/
theorem parse_ofSizes (h : sizes.length < 0xFFFF) (name : String) :
    (Index.parse (.whole (.memory name ⟨(ofSizes sizes).toBytes.toArray⟩))).outcome = .ok {
      entries := sizes.map fun (compressed, size) =>
        { name := [0x61], method := .stored, compressedSize := compressed.toNat,
          uncompressedSize := size.toNat }
      baseOffset := 0
      directoryOffset := 0 } := by
  rw [parse_memory (packs_ofSizes h), ofSizes, List.map_map]
  simp only [Function.comp_def, PackedRecord.entry_ofSizes, List.length_nil]

end PackedArchive

/-- The entries of accepted archives have any two words as their sizes, and nothing but
    words. -/
theorem Index.exists_sizes_iff {compressed size : Nat} :
    (∃ (w : Window) (x : Index) (e : Entry), (parse w).outcome = .ok x ∧ e ∈ x.entries ∧
      e.compressedSize = compressed ∧ e.uncompressedSize = size) ↔
      compressed < 2 ^ 64 ∧ size < 2 ^ 64 := by
  constructor
  · rintro ⟨w, x, e, h, he, rfl, rfl⟩
    have hsized := sized_of_parse h e he
    exact ⟨hsized.compressed, hsized.uncompressed⟩
  · rintro ⟨hcompressed, hsize⟩
    -- Any two words can be written into the block of an only record.
    have hone : [(UInt64.ofNat compressed, UInt64.ofNat size)].length < 0xFFFF := by
      rw [List.length_singleton]
      decide
    exact ⟨_, _, _, PackedArchive.parse_ofSizes hone "", List.mem_singleton.mpr rfl,
      UInt64.toNat_ofNat_of_lt' hcompressed, UInt64.toNat_ofNat_of_lt' hsize⟩

end NestedZip
