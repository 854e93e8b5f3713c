import NestedZip.Proofs.Checked.Arithmetic
import NestedZip.Proofs.Directory.Words

/-!
# Reading the Records behind a Directory

The three records that lead to a directory, read exactly as they are laid out.

Where a directory is and how many entries it has comes out of these records,
and a field that is read in the wrong order or with the wrong width does not
make reading fail. It gives a number all the same, and while the numbers are
small it may well be the right one. That no field is read so is therefore said
for all values of all fields: whatever they are, writing them and reading what
was written brings them back, and whatever bytes are read, writing what came
out brings the bytes back. `ReadsExactly` has both, and which bytes are refused,
and where the number of each field stands.

A program asks for the number of bytes before it looks at any of them.
`EndRecord.ofBytes?` and its like do not: they compare the signature, and
reading the fields fails somewhere if the bytes run out. `Checked.recordIn`
is reading with the question in front. The question is the right one if every
slice behind it is inside the buffer and no field is missing there, so that the
two always agree.

## Main definitions

* `Checked.recordIn`: A record at the front of a buffer, with its length asked for first.
* `Checked.ReadsExactly`: What is read is what is written, and nothing else is.

## Theorems

* `Checked.recordIn_eq`: Asking first makes no difference, and no slice is out of range.
* `Checked.readsExactly_of_fields`: What reading exactly follows from, for any table.
* `Checked.trailers_exact`: The three records are read exactly.
-/

namespace NestedZip

namespace Checked

variable {R : Type}

/-- The record at the front of a buffer, if the buffer has as many bytes as the record and the
    signature is there. The fields are read behind the signature. -/
def recordIn (signature : Bytes) (length : Nat) (fields : Reader R) (buffer : Bytes) :
    Checked Empty (Option R) := do
  if buffer.length < length then return none
  else
    let front ← slice buffer 0 4
    if front ≠ signature then return none
    else
      let behind ← slice buffer 4 buffer.length
      return fields.run' behind

/-- Records of `length` bytes, a signature and a row of words, are read as they are written. -/
structure ReadsExactly (signature : Bytes) (length : Nat) (words : R → List Word)
    (fields : Reader R) (ofBytes? : Bytes → Option R) : Prop where
  /-- Whatever the fields hold, and whatever follows them, they are read as they were written. -/
  of_written : ∀ (r : R) (trailing : Bytes),
    ofBytes? (signature ++ Word.row (words r) ++ trailing) = some r
  /-- Nothing is read where there are too few bytes or another signature, and only there. -/
  none_iff : ∀ bytes : Bytes,
    ofBytes? bytes = none ↔ bytes.length < length ∨ ¬ signature <+: bytes
  /-- What was read is written with the bytes that it was read from. -/
  written_again : ∀ (bytes : Bytes) (r : R), ofBytes? bytes = some r →
    signature ++ Word.row (words r) = bytes.take length
  /-- What is read is told by the numbers at the places of the fields. -/
  some_iff : ∀ (bytes : Bytes) (r : R),
    ofBytes? bytes = some r ↔
      signature <+: bytes ∧ length ≤ bytes.length ∧
        Word.StandAt bytes signature.length (words r)
  /-- The same is read, and no slice is out of range, if the length is asked for first. -/
  asked_first : ∀ bytes : Bytes, recordIn signature length fields bytes = .ok (ofBytes? bytes)

/-- Asking for the length first leaves nothing for the slices to run into, and refuses nothing
    that would be read. -/
theorem recordIn_eq {signature : Bytes} {length : Nat} {fields : Reader R}
    {ofBytes? : Bytes → Option R} (hsignature : signature.length = 4) (hlength : 4 ≤ length)
    (hnone : ∀ bytes, ofBytes? bytes = none ↔ bytes.length < length ∨ ¬ signature <+: bytes)
    (hfields : ∀ behind, ofBytes? (signature ++ behind) = fields.run' behind) (bytes : Bytes) :
    recordIn signature length fields bytes = .ok (ofBytes? bytes) := by
  unfold recordIn
  by_cases hshort : bytes.length < length
  · rw [if_pos hshort, (hnone bytes).mpr (Or.inl hshort)]
    rfl
  rw [if_neg hshort, slice_of_le (Nat.zero_le 4) (by omega), except_ok_bind, List.drop_zero,
    Nat.sub_zero, ← hsignature]
  by_cases hstarts : signature <+: bytes
  · obtain ⟨behind, rfl⟩ := hstarts
    rw [List.take_left, if_neg (not_not_intro rfl), slice_of_le (by omega) (Nat.le_refl _),
      except_ok_bind, List.drop_left, hfields]
    -- The second slice goes to the end of the buffer.
    have hall : (signature ++ behind).length - signature.length = behind.length := by
      rw [List.length_append, Nat.add_sub_cancel_left]
    rw [hall, List.take_length]
    rfl
  · have hother : bytes.take signature.length ≠ signature :=
      fun h => hstarts (List.prefix_iff_eq_take.mpr h.symm)
    rw [if_pos hother, (hnone bytes).mpr (Or.inr hstarts)]
    rfl

/-- A record is read exactly if its fields undo its layout, take as many bytes as its table has,
    and the layout is that table. -/
theorem readsExactly_of_fields {signature : Bytes} {fields : Reader R} {toBytes : R → Bytes}
    {words : R → List Word} {count : Nat} (hsignature : signature.length = 4)
    (hfields : ∀ (r : R) (input rest : Bytes),
      fields input = some (r, rest) ↔ signature ++ input = toBytes r ++ rest)
    (htakes : Reader.Takes fields count)
    (hrow : ∀ r, toBytes r = signature ++ Word.row (words r))
    (hspan : ∀ r, Word.span (words r) = count) :
    ReadsExactly signature (4 + count) words fields
      (fun bytes => do let rest ← afterSignature? signature bytes; fields.run' rest) := by
  have hstart : ∀ r, signature <+: toBytes r := fun r => hrow r ▸ List.prefix_append _ _
  have hlength : ∀ r, (toBytes r).length = signature.length + count := by
    intro r
    rw [hrow, List.length_append, Word.length_row, hspan]
  have hread := ofBytes?_iff_of_fields hstart hfields
  have hnone : ∀ bytes : Bytes,
      (do let rest ← afterSignature? signature bytes; fields.run' rest) = none ↔
        bytes.length < 4 + count ∨ ¬ signature <+: bytes := by
    intro bytes
    -- Nothing is read where no record stands, which takes its signature and enough bytes.
    rw [Option.eq_none_iff_forall_ne_some]
    simp only [ne_eq, hread, ← not_exists,
      exists_stands_iff_of_fields hfields htakes hstart hlength, hsignature]
    rw [Classical.not_and_iff_not_or_not, Nat.not_le, or_comm]
  constructor
  case of_written =>
    intro r trailing
    rw [hread, hrow]
    exact List.prefix_append _ _
  case none_iff => exact hnone
  case written_again =>
    intro bytes r h
    have hstands := List.prefix_iff_eq_take.mp ((hread bytes r).mp h)
    rw [hlength, hsignature] at hstands
    rw [← hrow, hstands]
  case some_iff =>
    intro bytes r
    rw [hread, stands_iff_words hrow hspan, hsignature]
  case asked_first =>
    refine recordIn_eq hsignature (Nat.le_add_right 4 count) hnone fun behind => ?_
    rw [afterSignature?_eq_some_iff.mpr rfl]
    rfl

/-- The end record, the ZIP64 locator and the ZIP64 end record are read exactly as they are laid
    out, each behind its signature and with its fields in the order of its table: whatever the
    fields hold is read back, whatever follows; bytes are refused exactly if they are too few or
    start with something else; and what is read is what the bytes start with. -/
theorem trailers_exact :
    ReadsExactly [0x50, 0x4B, 0x05, 0x06] 22 EndRecord.words EndRecord.fields
      EndRecord.ofBytes? ∧
    ReadsExactly [0x50, 0x4B, 0x06, 0x07] 20 Zip64Locator.words Zip64Locator.fields
      Zip64Locator.ofBytes? ∧
    ReadsExactly [0x50, 0x4B, 0x06, 0x06] 56 Zip64EndRecord.words Zip64EndRecord.fields
      Zip64EndRecord.ofBytes? := by
  refine ⟨?endRecord, ?locator, ?wideRecord⟩
  case endRecord =>
    exact readsExactly_of_fields rfl EndRecord.fields_eq_some_iff EndRecord.fields_takes
      EndRecord.toBytes_eq_row fun _ => rfl
  case locator =>
    exact readsExactly_of_fields rfl Zip64Locator.fields_eq_some_iff Zip64Locator.fields_takes
      Zip64Locator.toBytes_eq_row fun _ => rfl
  case wideRecord =>
    exact readsExactly_of_fields rfl Zip64EndRecord.fields_eq_some_iff
      Zip64EndRecord.fields_takes Zip64EndRecord.toBytes_eq_row fun _ => rfl

/-- Every byte of a locator counts for one field, and the byte behind it for none. -/
example :
    Zip64Locator.ofBytes? [0x50, 0x4B, 0x06, 0x07, 0x01, 0x02, 0x03, 0x04, 0x05, 0x06, 0x07, 0x08,
      0x09, 0x0A, 0x0B, 0x0C, 0x0D, 0x0E, 0x0F, 0x10, 0xFF] =
    some {
      endRecordDisk := 0x04030201
      endRecordOffset := 0x0C0B0A0908070605
      totalDisks := 0x100F0E0D } := by decide

end Checked

end NestedZip
