import Mathlib.Tactic.Simproc.ExistsAndEq
import NestedZip.Directory.LocalHeader
import NestedZip.Directory.Record
import NestedZip.Proofs.Reader

/-!
# Records of Fixed Layout

The five records of an archive that have a fixed layout, each read exactly as
it is written.

All five are a signature and a row of words, so they all have the same three
facts: the fields undo the layout, the record is recognised exactly where its
layout stands, and the layout has the length that the directory code counts
with. The laws are stated on the bytes behind the signature, because a
directory record's signature is read apart from its fields: a wrong one has
an error of its own.

Whether a record stands at a place is the relation `toBytes <+: bytes`. All
later modules speak of records in this way and never of how one is read.

## Theorems

* `afterSignature?_eq_some_iff`: What stands behind a signature.
* `signature_starts`, `fields_eq_some_iff`: The signature of a record is the front of
  its layout and the fields are what is behind, for each of the five records.
* `ofBytes?_eq_some_iff`: A record is recognised exactly where its layout
  stands.
* `eq_of_stand`: At most one record stands at a place.
* `length_toBytes`: How long each layout is.
-/

namespace NestedZip

/-- Behind a signature is what it stands in front of. -/
theorem afterSignature?_eq_some_iff {signature bytes rest : Bytes} :
    afterSignature? signature bytes = some rest ↔ bytes = signature ++ rest := by
  unfold afterSignature?
  by_cases h : signature.isPrefixOf bytes
  · rw [if_pos h, Option.some.injEq]
    rcases List.isPrefixOf_iff_prefix.mp h with ⟨tail, rfl⟩
    rw [List.drop_left, List.append_cancel_left_eq]
  · rw [if_neg h]
    constructor
    · intro hnone
      exact absurd hnone (by simp only [reduceCtorEq, not_false_eq_true])
    · rintro rfl
      exact absurd (List.isPrefixOf_iff_prefix.mpr (List.prefix_append signature rest)) h

/-- Reading a whole record, the signature first, out of the law for its
    fields. -/
theorem ofBytes?_iff_of_fields {R : Type} {signature : Bytes} {fields : Reader R}
    {toBytes : R → Bytes} (hstart : ∀ r, signature <+: toBytes r)
    (hfields : ∀ (r : R) (input rest : Bytes),
      fields input = some (r, rest) ↔ signature ++ input = toBytes r ++ rest)
    (bytes : Bytes) (r : R) :
    (do let rest ← afterSignature? signature bytes; fields.run' rest) = some r ↔
      toBytes r <+: bytes := by
  simp only [Option.bind_eq_bind, Option.bind_eq_some_iff, afterSignature?_eq_some_iff,
    StateT.run'_eq, StateT.run, Option.map_eq_map, Option.map_eq_some_iff, Prod.exists,
    exists_and_right, exists_eq_right, hfields]
  constructor
  · rintro ⟨input, rfl, rest, heq⟩
    exact ⟨rest, heq.symm⟩
  · rintro ⟨rest, rfl⟩
    -- Behind the signature stands the body of the layout, which is what the fields read.
    rcases hstart r with ⟨body, hbody⟩
    refine ⟨body ++ rest, ?_, rest, ?_⟩
    · rw [← hbody, List.append_assoc]
    · rw [← hbody, List.append_assoc]

/-- Where two layouts of one kind of record stand, they are of one record. -/
theorem eq_of_stand {R : Type} {ofBytes? : Bytes → Option R} {toBytes : R → Bytes}
    (h : ∀ {bytes : Bytes} {r : R}, ofBytes? bytes = some r ↔ toBytes r <+: bytes) {bytes : Bytes}
    {r other : R} (hr : toBytes r <+: bytes) (hother : toBytes other <+: bytes) : r = other := by
  have hread := h.mpr hr
  rw [h.mpr hother, Option.some.injEq] at hread
  exact hread.symm

namespace EndRecord

theorem signature_starts (r : EndRecord) : signature <+: r.toBytes := by
  simp only [toBytes, List.append_assoc, List.prefix_append]

theorem fields_eq_some_iff (r : EndRecord) (input rest : Bytes) :
    fields input = some (r, rest) ↔ signature ++ input = r.toBytes ++ rest := by
  cases r
  simp only [fields, Reader.u16_undoes.bind_iff, Reader.u32_undoes.bind_iff,
    Reader.pure_eq_some_iff, EndRecord.mk.injEq, ↓existsAndEq, and_true, true_and, and_assoc,
    toBytes, List.append_assoc, List.append_cancel_left_eq]

theorem ofBytes?_eq_some_iff {bytes : Bytes} {r : EndRecord} :
    ofBytes? bytes = some r ↔ r.toBytes <+: bytes :=
  ofBytes?_iff_of_fields signature_starts fields_eq_some_iff bytes r

@[simp]
theorem length_toBytes (r : EndRecord) : r.toBytes.length = length := by
  simp only [toBytes, List.length_append, Bytes.length_ofNatLE]
  rfl

end EndRecord

namespace Zip64Locator

theorem signature_starts (r : Zip64Locator) : signature <+: r.toBytes := by
  simp only [toBytes, List.append_assoc, List.prefix_append]

theorem fields_eq_some_iff (r : Zip64Locator) (input rest : Bytes) :
    fields input = some (r, rest) ↔ signature ++ input = r.toBytes ++ rest := by
  cases r
  simp only [fields, Reader.u32_undoes.bind_iff, Reader.u64_undoes.bind_iff,
    Reader.pure_eq_some_iff, Zip64Locator.mk.injEq, ↓existsAndEq, and_true, true_and, and_assoc,
    toBytes, List.append_assoc, List.append_cancel_left_eq]

theorem ofBytes?_eq_some_iff {bytes : Bytes} {r : Zip64Locator} :
    ofBytes? bytes = some r ↔ r.toBytes <+: bytes :=
  ofBytes?_iff_of_fields signature_starts fields_eq_some_iff bytes r

@[simp]
theorem length_toBytes (r : Zip64Locator) : r.toBytes.length = length := by
  simp only [toBytes, List.length_append, Bytes.length_ofNatLE]
  rfl

end Zip64Locator

namespace Zip64EndRecord

theorem signature_starts (r : Zip64EndRecord) : signature <+: r.toBytes := by
  simp only [toBytes, List.append_assoc, List.prefix_append]

theorem fields_eq_some_iff (r : Zip64EndRecord) (input rest : Bytes) :
    fields input = some (r, rest) ↔ signature ++ input = r.toBytes ++ rest := by
  cases r
  simp only [fields, Reader.u16_undoes.bind_iff, Reader.u32_undoes.bind_iff,
    Reader.u64_undoes.bind_iff, Reader.pure_eq_some_iff, Zip64EndRecord.mk.injEq, ↓existsAndEq,
    and_true, true_and, and_assoc, toBytes, List.append_assoc, List.append_cancel_left_eq]

theorem ofBytes?_eq_some_iff {bytes : Bytes} {r : Zip64EndRecord} :
    ofBytes? bytes = some r ↔ r.toBytes <+: bytes :=
  ofBytes?_iff_of_fields signature_starts fields_eq_some_iff bytes r

@[simp]
theorem length_toBytes (r : Zip64EndRecord) : r.toBytes.length = length := by
  simp only [toBytes, List.length_append, Bytes.length_ofNatLE]
  rfl

end Zip64EndRecord

namespace LocalHeader

theorem signature_starts (h : LocalHeader) : signature <+: h.toBytes := by
  simp only [toBytes, List.append_assoc, List.prefix_append]

theorem fields_eq_some_iff (h : LocalHeader) (input rest : Bytes) :
    fields input = some (h, rest) ↔ signature ++ input = h.toBytes ++ rest := by
  cases h
  simp only [fields, Reader.u16_undoes.bind_iff, Reader.u32_undoes.bind_iff,
    Reader.pure_eq_some_iff, LocalHeader.mk.injEq, ↓existsAndEq, and_true, true_and, and_assoc,
    toBytes, List.append_assoc, List.append_cancel_left_eq]

theorem ofBytes?_eq_some_iff {bytes : Bytes} {h : LocalHeader} :
    ofBytes? bytes = some h ↔ h.toBytes <+: bytes :=
  ofBytes?_iff_of_fields signature_starts fields_eq_some_iff bytes h

@[simp]
theorem length_toBytes (h : LocalHeader) : h.toBytes.length = length := by
  simp only [toBytes, List.length_append, Bytes.length_ofNatLE]
  rfl

end LocalHeader

namespace RecordHeader

theorem signature_starts (h : RecordHeader) : signature <+: h.toBytes := by
  simp only [toBytes, List.append_assoc, List.prefix_append]

theorem fields_eq_some_iff (h : RecordHeader) (input rest : Bytes) :
    fields input = some (h, rest) ↔ signature ++ input = h.toBytes ++ rest := by
  cases h
  simp only [fields, Reader.u16_undoes.bind_iff, Reader.u32_undoes.bind_iff,
    Reader.pure_eq_some_iff, RecordHeader.mk.injEq, ↓existsAndEq, and_true, true_and, and_assoc,
    toBytes, List.append_assoc, List.append_cancel_left_eq]

@[simp]
theorem length_toBytes (h : RecordHeader) : h.toBytes.length = length := by
  simp only [toBytes, List.length_append, Bytes.length_ofNatLE]
  rfl

end RecordHeader

end NestedZip
