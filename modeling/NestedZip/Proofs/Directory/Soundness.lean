import Mathlib.Data.List.Forall2
import NestedZip.Proofs.Directory.Bounds
import NestedZip.Proofs.Directory.Record

/-!
# What an Accepted Directory Is

Indexing never guesses: whatever window it accepts, the directory it found is
a gapless row of records, and each entry says what its record says.

The loop over the records trusts nothing but the number of records. A record
may declare any lengths, and an extra field may be followed past its own end,
so no single step knows where the directory stops. What the loop keeps is
that the bytes read so far are the records read so far, one behind the other.
Only at the end the position is compared with the declared size, and that
turns the invariant into a tiling of the whole directory: nothing is left over
between records or behind the last one.

`parse_eq_ok_iff` takes indexing apart into the search for the bounds, the
checks on them, and this loop. It holds for every window, also over sources
that claim more bytes than they have, for a directory that was read was there.

## Main definitions

* `RecordHeader.Describes`: A slice of bytes that is one record, and its entry.

## Theorems

* `parse_eq_ok_iff`: When a window is accepted, and with which index.
* `readEntries_eq_ok`: The invariant of the loop over the records.
* `records_tile_directory`: The records of an accepted directory fill it.
-/

namespace NestedZip

/-- The slice is one whole record with this header, and the entry says what it
    says. Its place counts from the start of the window, in front of which
    there are `base` bytes too many. -/
structure RecordHeader.Describes (h : RecordHeader) (base : Nat) (slice : Bytes) (e : Entry) :
    Prop where
  signature : [0x50, 0x4B, 0x01, 0x02] <+: slice
  starts : h.toBytes ++ e.name <+: slice
  nameLength : e.name.length = h.nameLength.toNat
  sliceLength : slice.length =
    46 + h.nameLength.toNat + h.extraLength.toNat + h.commentLength.toNat
  method : e.method = .ofNumber h.method
  flags : e.flags = h.flags
  crc : e.crc = h.crc
  packedDate : e.packedDate = h.packedDate
  packedTime : e.packedTime = h.packedTime
  compressedSize : h.compressedSize ≠ 0xFFFFFFFF → e.compressedSize = h.compressedSize.toNat
  uncompressedSize : h.uncompressedSize ≠ 0xFFFFFFFF →
    e.uncompressedSize = h.uncompressedSize.toNat
  headerOffset : h.headerOffset ≠ 0xFFFFFFFF → e.headerOffset = h.headerOffset.toNat + base
  headerOffset_lt : e.headerOffset < 2 ^ 64

namespace Index

theorem ne_saturated {n : UInt32} (h : n ≠ 0xFFFFFFFF) : n.toNat ≠ Extents.saturated :=
  fun heq => h (UInt32.toNat_inj.mp heq)

/-- One record that was read is the slice in front of the rest, and moving the
    place of its entry by the base makes it what the slice describes. -/
theorem describes_of_read {bytes rest : Bytes} {e : Entry} {span base : Nat}
    (h : Entry.read bytes = .ok (e, span, rest)) (hplace : e.headerOffset + base < wordLimit) :
    ∃ (slice : Bytes) (header : RecordHeader), bytes = slice ++ rest ∧ slice.length = span ∧
      header.Describes base slice { e with headerOffset := e.headerOffset + base } := by
  rcases Entry.read_eq_ok_iff.mp h with
    ⟨header, name, behind, x, rfl, hname, hbehind, hx, rfl, rfl⟩
  have hkeeps := Extents.widen_keeps hx
  have hlength : (header.toBytes ++ (name ++ behind)).length =
      46 + header.nameLength.toNat + header.extraLength.toNat + header.commentLength.toNat := by
    rw [List.length_append, List.length_append, header.length_toBytes, hname, hbehind,
      RecordHeader.length]
    omega
  have hstarts : header.toBytes ++ name <+: header.toBytes ++ (name ++ behind) := by
    rw [← List.append_assoc]
    exact List.prefix_append _ _
  -- The slice is the header, the name, and all that the header declares behind it.
  refine ⟨header.toBytes ++ (name ++ behind), header, ?_, hlength, ?_⟩
  · rw [List.append_assoc, List.append_assoc]
  · exact {
      signature := header.signature_starts.trans (List.prefix_append _ _)
      starts := hstarts
      nameLength := hname
      sliceLength := hlength
      method := rfl
      flags := rfl
      crc := rfl
      packedDate := rfl
      packedTime := rfl
      compressedSize := fun hne => hkeeps.compressed (ne_saturated hne)
      uncompressedSize := fun hne => hkeeps.uncompressed (ne_saturated hne)
      headerOffset := fun hne => congrArg (· + base) (hkeeps.offset (ne_saturated hne))
      headerOffset_lt := hplace }

/-- The bytes that were read are the records that were read, one behind the
    other, and the position has moved by their length. -/
theorem readEntries_eq_ok {w : Window} {start base count index position span : Nat}
    {bytes : Bytes} {done entries : List Entry}
    (h : readEntries w start base count index position bytes done = .ok (entries, span)) :
    ∃ (slices : List Bytes) (rest : Bytes) (read : List Entry),
      bytes = slices.flatten ++ rest ∧ entries = done.reverse ++ read ∧ read.length = count ∧
      span = position + slices.flatten.length ∧
      List.Forall₂ (fun slice e => ∃ header : RecordHeader, header.Describes base slice e)
        slices read := by
  induction count generalizing index position bytes done with
  | zero =>
      simp only [readEntries, Except.ok.injEq, Prod.mk.injEq] at h
      rcases h with ⟨rfl, rfl⟩
      exact ⟨[], bytes, [], rfl, (List.append_nil _).symm, rfl, rfl, List.Forall₂.nil⟩
  | succ count ih =>
      unfold readEntries at h
      rcases hread : Entry.read bytes with fault | ⟨e, length, after⟩
      · rw [hread] at h
        exact absurd h error_ne_ok
      simp only [hread] at h
      by_cases hplace : wordLimit ≤ e.headerOffset + base
      · rw [if_pos hplace] at h
        exact absurd h error_ne_ok
      rw [if_neg hplace] at h
      rcases describes_of_read hread (Nat.lt_of_not_le hplace) with
        ⟨slice, header, rfl, rfl, hdescribes⟩
      rcases ih h with ⟨slices, rest, read, rfl, rfl, rfl, rfl, hall⟩
      -- The slice of this record goes in front of those that the rest was cut into.
      refine ⟨slice :: slices, rest, _ :: read, ?_, ?_, rfl, ?_, hall.cons ⟨header, hdescribes⟩⟩
      · rw [List.flatten_cons, List.append_assoc]
      · rw [List.reverse_cons, List.append_assoc, List.singleton_append]
      · rw [List.flatten_cons, List.length_append, Nat.add_assoc]

/-- The directory stops in front of the end record, or in front of the wide one, which is in front
    of that. -/
theorem stop_le_of_takenFrom {b : Bounds} {r : EndRecord} {bytes : Bytes} {position : Nat}
    (h : b.TakenFrom r bytes position) : b.stop ≤ position := by
  unfold Bounds.TakenFrom at h
  by_cases hwide : r.isSaturated
  · rw [if_pos hwide] at h
    rcases h with ⟨_, z, _, _, hz, _⟩
    have hfits := hz.2.1
    omega
  · rw [if_neg hwide] at h
    rcases h with ⟨_, _, _, hstop⟩
    omega

/-- A window is accepted when its bounds can be found, the directory they
    describe lies in the window and can hold its records, and the records fill
    it. -/
theorem parse_eq_ok_iff {w : Window} {x : Index} :
    (parse w).outcome = .ok x ↔
      w.Intact ∧ ∃ (r : EndRecord) (position : Nat) (b : Bounds),
        r.IsLastAt w.bytes position ∧ b.TakenFrom r w.bytes position ∧
        x.directoryOffset + b.size = b.stop ∧
        x.baseOffset + b.declaredOffset = x.directoryOffset ∧
        min (b.totalEntries * RecordHeader.length) (wordLimit - 1) ≤ b.size ∧
        readEntries w x.directoryOffset x.baseOffset b.totalEntries 0 0
          ((w.bytes.drop x.directoryOffset).take b.size) [] = .ok (x.entries, b.size) := by
  unfold parse
  constructor
  · intro h
    rcases Metered.bind_outcome_eq_ok_iff.mp h with ⟨⟨b, position⟩, hbounds, hchecks⟩
    rcases findBounds_eq_ok hbounds with ⟨hw, r, hlast, hb⟩
    refine ⟨hw, r, position, b, hlast, hb, ?_⟩
    simp only at hchecks
    -- Acceptance means that no check failed, so only one branch of each is left.
    by_cases hlarge : b.stop < b.size
    · rw [if_pos hlarge] at hchecks
      exact absurd hchecks error_ne_ok
    rw [if_neg hlarge] at hchecks
    by_cases hpast : b.stop - b.size < b.declaredOffset
    · rw [if_pos hpast] at hchecks
      exact absurd hchecks error_ne_ok
    rw [if_neg hpast] at hchecks
    by_cases hmany : b.size < min (b.totalEntries * RecordHeader.length) (wordLimit - 1)
    · rw [if_pos hmany] at hchecks
      exact absurd hchecks error_ne_ok
    rw [if_neg hmany] at hchecks
    rcases Metered.bind_outcome_eq_ok_iff.mp hchecks with ⟨directory, hread, hrest⟩
    rcases Metered.bind_outcome_eq_ok_iff.mp hrest with ⟨⟨entries, span⟩, hentries, hspan⟩
    rw [(Window.readExactAt_eq_ok hread).2.2.2, Metered.outcome_ofExcept] at hentries
    simp only at hspan
    by_cases hfills : span ≠ b.size
    · rw [if_pos hfills] at hspan
      exact absurd hspan error_ne_ok
    rw [if_neg hfills, Metered.outcome_pure, Except.ok.injEq] at hspan
    subst hspan
    rw [Decidable.not_not.mp hfills] at hentries
    exact ⟨by simp only; omega, by simp only; omega, by omega, hentries⟩
  · rintro ⟨hw, r, position, b, hlast, hb, hstop, hbase, hmany, hentries⟩
    have hbytes := Window.length_bytes hw
    have hle := stop_le_of_takenFrom hb
    have hlength := hlast.1.2
    have hdirectory : b.stop - b.size = x.directoryOffset := by omega
    have hprefix : x.directoryOffset - b.declaredOffset = x.baseOffset := by omega
    -- And where none fails, the same branches are taken.
    rw [Metered.bind_of_ok (findBounds_of_takenFrom hw hlast hb)]
    simp only [hdirectory, hprefix]
    rw [if_neg (by omega), if_neg (by omega), if_neg (by omega),
      Metered.bind_of_ok (congrArg Metered.outcome
        (Window.readExactAt_of_intact hw x.directoryOffset b.size (by omega)))]
    simp only
    rw [Metered.bind_of_ok (show (Metered.ofExcept _).outcome = .ok (x.entries, b.size) from
      hentries)]
    simp only [ne_eq, not_true, if_false, Metered.outcome_pure]

/-- Whatever window is accepted, the bounds come from its last end record, or
    from the ZIP64 end record that one leads to, and the records lie in the
    directory without a gap and without a remainder, one for each entry. -/
theorem records_tile_directory {w : Window} {x : Index} (h : (parse w).outcome = .ok x) :
    ∃ (r : EndRecord) (position : Nat) (b : Bounds) (slices : List Bytes),
      r.IsLastAt w.bytes position ∧ b.TakenFrom r w.bytes position ∧
      x.directoryOffset + b.size = b.stop ∧ b.stop ≤ w.bytes.length ∧
      x.baseOffset + b.declaredOffset = x.directoryOffset ∧
      x.entries.length = b.totalEntries ∧
      slices.flatten = (w.bytes.drop x.directoryOffset).take b.size ∧
      List.Forall₂ (fun slice e => ∃ header : RecordHeader,
        header.Describes x.baseOffset slice e) slices x.entries := by
  rcases parse_eq_ok_iff.mp h with
    ⟨hw, r, position, b, hlast, hb, hstop, hbase, _, hentries⟩
  have hle := stop_le_of_takenFrom hb
  have hlength := hlast.1.2
  rcases readEntries_eq_ok hentries with ⟨slices, rest, read, hbytes, hread, hcount, hspan, hall⟩
  rw [List.reverse_nil, List.nil_append] at hread
  -- The records span as many bytes as the directory has, so nothing is left behind them.
  have hsize : ((w.bytes.drop x.directoryOffset).take b.size).length = b.size := by
    rw [List.length_take, List.length_drop]
    omega
  have hrest : rest = [] := by
    rw [hbytes, List.length_append] at hsize
    exact List.eq_nil_of_length_eq_zero (by omega)
  rw [hrest, List.append_nil] at hbytes
  rw [← hread] at hcount hall
  exact ⟨r, position, b, slices, hlast, hb, hstop, by omega, hbase, hcount, hbytes.symm, hall⟩

/-- A directory of one record with a name and a comment, put behind one byte
    that its end record does not know of. -/
def shifted : Bytes :=
  0x23 :: [0x50, 0x4B, 0x01, 0x02, 45, 0, 45, 0, 0, 0, 8, 0, 1, 2, 3, 4, 9, 9, 9, 9,
    5, 0, 0, 0, 7, 0, 0, 0, 1, 0, 0, 0, 2, 0, 0, 0, 0, 0, 0, 0, 0, 0, 0, 0, 0, 0, 0x61, 7, 7] ++
  [0x50, 0x4B, 0x05, 0x06, 0, 0, 0, 0, 1, 0, 1, 0, 49, 0, 0, 0, 0, 0, 0, 0, 0, 0]

/-- What is found in it: the record is at 1, and its entry is moved there. -/
def shiftedIndex : Index where
  entries := [{
    name := [0x61], method := .deflated, compressedSize := 5, uncompressedSize := 7
    crc := 0x09090909, headerOffset := 1, packedTime := 0x0201, packedDate := 0x0403 }]
  baseOffset := 1
  directoryOffset := 1

/-- A directory with one byte in front of the archive, which its record is moved by. -/
theorem shifted_tiles :
    let w := Window.whole (.memory "shifted" ⟨shifted.toArray⟩)
    (parse w).outcome = .ok shiftedIndex ∧
    ∃ (r : EndRecord) (position : Nat) (b : Bounds) (slices : List Bytes),
      r.IsLastAt w.bytes position ∧ b.TakenFrom r w.bytes position ∧
      1 + b.size = b.stop ∧ b.stop ≤ w.bytes.length ∧ 1 + b.declaredOffset = 1 ∧
      1 = b.totalEntries ∧ slices.flatten = (w.bytes.drop 1).take b.size ∧
      List.Forall₂ (fun slice e => ∃ header : RecordHeader, header.Describes 1 slice e)
        slices shiftedIndex.entries := by
  intro w
  have h : (parse w).outcome = .ok shiftedIndex := by decide +kernel
  exact ⟨h, records_tile_directory h⟩

end Index

end NestedZip
