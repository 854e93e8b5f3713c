import NestedZip.Proofs.Directory.Fields

/-!
# Records Recognised by Their Bytes

Where a record stands, and what some of its fields are, asked of the bytes
themselves.

`toBytes <+: bytes` speaks of a record that somebody has in hand. Who only has
bytes wants to know whether there is one, and the answer takes two looks: the
signature, and the number of bytes. Everything between is read, whatever it
is, because a word has no wrong bytes. `Reader.Takes` is that half of a
reader, the other half being `Undoes`, and it goes through a row of fields as
one sum.

A field is then a number at a place, `Bytes.numberAt`, and a statement about
bytes can speak of it without naming the record that it is a field of.

## Main definitions

* `Bytes.numberAt`: The number in the bytes at a position.
* `Reader.Takes`: A reader that only fails because bytes are missing.

## Theorems

* `Reader.Takes.bind`: A row of fields takes the sum of its widths.
* `Reader.takes_word`: A word takes its width, whatever the bytes are.
* `exists_stands_iff_of_fields`: A record stands exactly where its signature does
  and there is room.
* `EndRecord.exists_stands_iff`, `LocalHeader.exists_stands_iff`: This for two of
  the records; `RecordHeader.exists_layout`: For the header of a third.
* `numberAt_commentLength` and its like: Where the fields are found.
-/

namespace NestedZip

namespace Bytes

/-- The number in the `width` bytes at a position. -/
def numberAt (bytes : Bytes) (width position : Nat) : Nat :=
  toNatLE ((bytes.drop position).take width)

theorem numberAt_drop (bytes : Bytes) (start width position : Nat) :
    numberAt (bytes.drop start) width position = numberAt bytes width (start + position) := by
  unfold numberAt
  rw [List.drop_drop]

/-- A number that is written somewhere in a layout is found where the layout
    stands. -/
theorem numberAt_of_stands {layout bytes : Bytes} {width position n : Nat} (hn : n < 256 ^ width)
    (hwritten : ∀ rest, ((layout ++ rest).drop position).take width = ofNatLE width n)
    (h : layout <+: bytes) : numberAt bytes width position = n := by
  obtain ⟨rest, rfl⟩ := h
  unfold numberAt
  rw [hwritten rest, toNatLE_ofNatLE hn]

end Bytes

namespace Reader

variable {α β : Type}

/-- The reader succeeds as soon as there are `count` bytes, and takes just these. -/
def Takes (read : Reader α) (count : Nat) : Prop :=
  ∀ input : Bytes, count ≤ input.length → ∃ a, read input = some (a, input.drop count)

theorem Takes.bind {read : Reader α} {next : α → Reader β} {count more : Nat}
    (h : Takes read count) (hnext : ∀ a, Takes (next a) more) :
    Takes (read >>= next) (count + more) := by
  intro input hinput
  -- The second reader gets what the first one leaves, which is long enough for it.
  obtain ⟨a, ha⟩ := h input (by omega)
  obtain ⟨b, hb⟩ := hnext a (input.drop count) (by rw [List.length_drop]; omega)
  refine ⟨b, ?_⟩
  change (read input >>= fun p => next p.1 p.2) = _
  rw [ha, Option.bind_eq_bind, Option.bind_some, hb, List.drop_drop]

theorem takes_pure (a : α) : Takes (pure a) 0 := by
  intro input _
  exact ⟨a, rfl⟩

theorem number_of_room {width : Nat} {bytes : Bytes} (h : width ≤ bytes.length) :
    number width bytes = some (Bytes.toNatLE (bytes.take width), bytes.drop width) := by
  rw [number, Bytes.split?, if_pos (List.length_take_of_le h), Option.map_some]

/-- A word has no wrong bytes, so it can be read as soon as they are there. -/
theorem takes_word {W : Type} (width : Nat) (ofNat : Nat → W) :
    Takes (fun input => (number width input).map fun (n, rest) => (ofNat n, rest)) width := by
  intro input hinput
  refine ⟨ofNat (Bytes.toNatLE (input.take width)), ?_⟩
  simp only [number_of_room hinput, Option.map_some]

theorem takes_u16 : Takes u16 2 := takes_word 2 UInt16.ofNat

theorem takes_u32 : Takes u32 4 := takes_word 4 UInt32.ofNat

theorem takes_u64 : Takes u64 8 := takes_word 8 UInt64.ofNat

end Reader

open Reader

section

variable {R : Type} {signature : Bytes} {fields : Reader R} {toBytes : R → Bytes} {count : Nat}

/-- Behind a signature a record stands as soon as there are enough bytes for its
    fields. -/
theorem exists_stands_of_fields
    (hfields : ∀ (r : R) (input rest : Bytes),
      fields input = some (r, rest) ↔ signature ++ input = toBytes r ++ rest)
    (htakes : Takes fields count) {bytes : Bytes} (hsignature : signature <+: bytes)
    (hlength : signature.length + count ≤ bytes.length) : ∃ r, toBytes r <+: bytes := by
  -- What is read behind the signature is a record, and a record is its own layout.
  obtain ⟨input, rfl⟩ := hsignature
  rw [List.length_append] at hlength
  obtain ⟨r, hr⟩ := htakes input (by omega)
  exact ⟨r, _, ((hfields r input _).mp hr).symm⟩

/-- A record stands exactly where its signature stands and there are enough bytes. -/
theorem exists_stands_iff_of_fields
    (hfields : ∀ (r : R) (input rest : Bytes),
      fields input = some (r, rest) ↔ signature ++ input = toBytes r ++ rest)
    (htakes : Takes fields count) (hstart : ∀ r, signature <+: toBytes r)
    (hlength : ∀ r, (toBytes r).length = signature.length + count) {bytes : Bytes} :
    (∃ r, toBytes r <+: bytes) ↔ signature <+: bytes ∧ signature.length + count ≤ bytes.length := by
  constructor
  · rintro ⟨r, hr⟩
    exact ⟨(hstart r).trans hr, hlength r ▸ hr.length_le⟩
  · rintro ⟨hsignature, hroom⟩
    exact exists_stands_of_fields hfields htakes hsignature hroom

end

namespace EndRecord

theorem fields_takes : Takes fields 18 :=
  takes_u16.bind fun _ => takes_u16.bind fun _ => takes_u16.bind fun _ => takes_u16.bind fun _ =>
    takes_u32.bind fun _ => takes_u32.bind fun _ => takes_u16.bind fun _ => takes_pure _

theorem signature_of_stands {r : EndRecord} {bytes : Bytes} (h : r.toBytes <+: bytes) :
    bytes.take 4 = signature := by
  obtain ⟨rest, rfl⟩ := h
  rfl

theorem numberAt_commentLength {r : EndRecord} {bytes : Bytes} (h : r.toBytes <+: bytes) :
    bytes.numberAt 2 20 = r.commentLength.toNat :=
  Bytes.numberAt_of_stands r.commentLength.toNat_lt (fun _ => rfl) h

theorem exists_stands_iff {bytes : Bytes} :
    (∃ r : EndRecord, r.toBytes <+: bytes) ↔ bytes.take 4 = signature ∧ length ≤ bytes.length := by
  have hsignature : signature <+: bytes ↔ bytes.take 4 = signature :=
    List.prefix_iff_eq_take.trans eq_comm
  rw [← hsignature]
  exact exists_stands_iff_of_fields fields_eq_some_iff fields_takes signature_starts length_toBytes

end EndRecord

namespace Zip64Locator

theorem fields_takes : Takes fields 16 :=
  takes_u32.bind fun _ => takes_u64.bind fun _ => takes_u32.bind fun _ => takes_pure _

end Zip64Locator

namespace Zip64EndRecord

theorem fields_takes : Takes fields 52 :=
  takes_u64.bind fun _ => takes_u16.bind fun _ => takes_u16.bind fun _ => takes_u32.bind fun _ =>
    takes_u32.bind fun _ => takes_u64.bind fun _ => takes_u64.bind fun _ => takes_u64.bind fun _ =>
    takes_u64.bind fun _ => takes_pure _

end Zip64EndRecord

namespace LocalHeader

theorem fields_takes : Takes fields 26 :=
  takes_u16.bind fun _ => takes_u16.bind fun _ => takes_u16.bind fun _ => takes_u16.bind fun _ =>
    takes_u16.bind fun _ => takes_u32.bind fun _ => takes_u32.bind fun _ => takes_u32.bind fun _ =>
    takes_u16.bind fun _ => takes_u16.bind fun _ => takes_pure _

theorem signature_of_stands {h : LocalHeader} {bytes : Bytes} (hstands : h.toBytes <+: bytes) :
    bytes.take 4 = signature := by
  obtain ⟨rest, rfl⟩ := hstands
  rfl

theorem numberAt_nameLength {h : LocalHeader} {bytes : Bytes} (hstands : h.toBytes <+: bytes) :
    bytes.numberAt 2 26 = h.nameLength.toNat :=
  Bytes.numberAt_of_stands h.nameLength.toNat_lt (fun _ => rfl) hstands

theorem numberAt_extraLength {h : LocalHeader} {bytes : Bytes} (hstands : h.toBytes <+: bytes) :
    bytes.numberAt 2 28 = h.extraLength.toNat :=
  Bytes.numberAt_of_stands h.extraLength.toNat_lt (fun _ => rfl) hstands

theorem exists_stands_iff {bytes : Bytes} :
    (∃ h : LocalHeader, h.toBytes <+: bytes) ↔
      bytes.take 4 = signature ∧ length ≤ bytes.length := by
  have hsignature : signature <+: bytes ↔ bytes.take 4 = signature :=
    List.prefix_iff_eq_take.trans eq_comm
  rw [← hsignature]
  exact exists_stands_iff_of_fields fields_eq_some_iff fields_takes signature_starts length_toBytes

end LocalHeader

namespace RecordHeader

theorem fields_takes : Takes fields 42 :=
  takes_u16.bind fun _ => takes_u16.bind fun _ => takes_u16.bind fun _ => takes_u16.bind fun _ =>
    takes_u16.bind fun _ => takes_u16.bind fun _ => takes_u32.bind fun _ => takes_u32.bind fun _ =>
    takes_u32.bind fun _ => takes_u16.bind fun _ => takes_u16.bind fun _ => takes_u16.bind fun _ =>
    takes_u16.bind fun _ => takes_u16.bind fun _ => takes_u32.bind fun _ => takes_u32.bind fun _ =>
    takes_pure _

/-- Bytes that start with the signature are a header and what follows it, if there
    are enough of them. -/
theorem exists_layout {bytes : Bytes} (hsignature : bytes.take 4 = signature)
    (hlength : length ≤ bytes.length) : ∃ h : RecordHeader, h.toBytes <+: bytes :=
  exists_stands_of_fields fields_eq_some_iff fields_takes
    (hsignature ▸ List.take_prefix 4 bytes) hlength

/-- The three lengths are at their places in the header that stands there. -/
theorem numberAt_lengths {h : RecordHeader} {bytes : Bytes} (hstands : h.toBytes <+: bytes) :
    bytes.numberAt 2 28 = h.nameLength.toNat ∧ bytes.numberAt 2 30 = h.extraLength.toNat ∧
      bytes.numberAt 2 32 = h.commentLength.toNat := by
  refine ⟨Bytes.numberAt_of_stands h.nameLength.toNat_lt (fun rest => ?_) hstands,
    Bytes.numberAt_of_stands h.extraLength.toNat_lt (fun rest => ?_) hstands,
    Bytes.numberAt_of_stands h.commentLength.toNat_lt (fun rest => ?_) hstands⟩
  all_goals
    simp only [toBytes, signature, Bytes.ofNatLE, List.append_assoc]
    rfl

end RecordHeader

end NestedZip
