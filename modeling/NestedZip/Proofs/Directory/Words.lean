import NestedZip.Proofs.Directory.Recognised

/-!
# Records as Rows of Words

The fields of a record as a table, and what it means that the table stands
somewhere.

Behind its signature a record of fixed layout is a row of words and nothing
else. How many bytes a word takes is not up to the record: it is a matter of
the word's type, and so a row of words cannot be written with a wrong width.
`EndRecord.words` and its like list the fields of a record in the order in
which they are declared.

A row can be looked for in two ways. One writes it and compares the bytes,
which is what the layouts do. The other goes to the place of each word, which
is where the word in front of it ends, and looks at the number there.
`Word.row_stands_iff` says that these agree. A layout with two fields in the
wrong order, or with one of a wrong width, would have other numbers at these
places.

## Main definitions

* `Word`: A number of one of the widths that fields have.
* `Word.row`, `Word.span`: Words one after the other, and their number of bytes.
* `Word.StandAt`: Each word is the number at its place.
* `EndRecord.words`, `Zip64Locator.words`, `Zip64EndRecord.words`: The tables.

## Theorems

* `append_stands_iff`: Where two layouts stand, one behind the other.
* `Word.stands_iff`, `Word.row_stands_iff`: Written bytes and numbers at places.
* `stands_iff_words`: Where a record stands, by its table.
* `toBytes_eq_row`: The layout of each record is its signature and its table.
-/

namespace NestedZip

/-- A number as a record holds it. -/
inductive Word where
  | two (n : UInt16)
  | four (n : UInt32)
  | eight (n : UInt64)
deriving DecidableEq, Repr

/-- What stands at the front, and what stands behind that. -/
theorem append_stands_iff {front layout bytes : Bytes} :
    front ++ layout <+: bytes ↔ front <+: bytes ∧ layout <+: bytes.drop front.length := by
  constructor
  · rintro ⟨rest, rfl⟩
    rw [List.append_assoc, List.drop_left]
    exact ⟨List.prefix_append _ _, List.prefix_append _ _⟩
  · rintro ⟨⟨behind, rfl⟩, hlayout⟩
    rw [List.drop_left] at hlayout
    exact (List.prefix_append_right_inj front).mpr hlayout

namespace Word

/-- The number of bytes that a word takes. -/
def width : Word → Nat
  | two _ => 2
  | four _ => 4
  | eight _ => 8

def toNat : Word → Nat
  | two n => n.toNat
  | four n => n.toNat
  | eight n => n.toNat

/-- A word in bytes, lowest byte first. -/
def toBytes (w : Word) : Bytes := .ofNatLE w.width w.toNat

/-- Words in bytes, one after the other. -/
def row (words : List Word) : Bytes := words.flatMap toBytes

/-- The number of bytes that words take. -/
def span : List Word → Nat
  | [] => 0
  | w :: words => w.width + span words

/-- The first word is the number at a position, and each of the others is the number behind the
    one in front of it. -/
def StandAt (bytes : Bytes) : (position : Nat) → List Word → Prop
  | _, [] => True
  | position, w :: words =>
    bytes.numberAt w.width position = w.toNat ∧ StandAt bytes (position + w.width) words

/-- A word is below what its width can hold. -/
theorem toNat_lt (w : Word) : w.toNat < 256 ^ w.width := by
  cases w with
  | two n => exact n.toNat_lt
  | four n => exact n.toNat_lt
  | eight n => exact n.toNat_lt

@[simp]
theorem length_toBytes (w : Word) : w.toBytes.length = w.width := Bytes.length_ofNatLE _ _

@[simp]
theorem toBytes_two (n : UInt16) : (two n).toBytes = .ofNatLE 2 n.toNat := rfl

@[simp]
theorem toBytes_four (n : UInt32) : (four n).toBytes = .ofNatLE 4 n.toNat := rfl

@[simp]
theorem toBytes_eight (n : UInt64) : (eight n).toBytes = .ofNatLE 8 n.toNat := rfl

@[simp]
theorem row_nil : row [] = [] := List.flatMap_nil

@[simp]
theorem row_cons (w : Word) (words : List Word) : row (w :: words) = w.toBytes ++ row words :=
  List.flatMap_cons

/-- A row is as long as its words together. -/
@[simp]
theorem length_row (words : List Word) : (row words).length = span words := by
  induction words with
  | nil => rfl
  | cons w words ih => rw [row_cons, List.length_append, length_toBytes, ih, span]

/-- A word stands where the bytes of its width are its number. -/
theorem stands_iff (w : Word) {bytes : Bytes} {position : Nat}
    (hroom : position + w.width ≤ bytes.length) :
    w.toBytes <+: bytes.drop position ↔ bytes.numberAt w.width position = w.toNat := by
  have hlength : ((bytes.drop position).take w.width).length = w.width := by
    rw [List.length_take, List.length_drop]
    omega
  rw [List.prefix_iff_eq_take, length_toBytes, toBytes, Bytes.numberAt]
  constructor
  · intro h
    rw [← h, Bytes.toNatLE_ofNatLE w.toNat_lt]
  · intro h
    -- The bytes are the spelling of the number that they hold, and it has just their width.
    have hspelling := Bytes.ofNatLE_toNatLE ((bytes.drop position).take w.width)
    rw [hlength, h] at hspelling
    exact hspelling

/-- A row stands where each of its words does. -/
theorem row_stands_iff (words : List Word) {bytes : Bytes} {position : Nat}
    (hroom : position + span words ≤ bytes.length) :
    row words <+: bytes.drop position ↔ StandAt bytes position words := by
  induction words generalizing position with
  | nil => exact iff_of_true List.nil_prefix trivial
  | cons w words ih =>
      rw [span] at hroom
      -- The place of the next word is the end of this one.
      rw [row_cons, append_stands_iff, w.stands_iff (by omega), length_toBytes, List.drop_drop,
        ih (by omega), StandAt]

end Word

/-- Where the layout of a record stands, by the signature, the number of bytes and the numbers at
    their places. -/
theorem stands_iff_words {R : Type} {signature bytes : Bytes} {toBytes : R → Bytes}
    {words : R → List Word} {count : Nat} (hrow : ∀ r, toBytes r = signature ++ Word.row (words r))
    (hspan : ∀ r, Word.span (words r) = count) (r : R) :
    toBytes r <+: bytes ↔
      signature <+: bytes ∧ signature.length + count ≤ bytes.length ∧
        Word.StandAt bytes signature.length (words r) := by
  rw [hrow, append_stands_iff]
  refine and_congr_right fun hsignature => ?_
  constructor
  · intro h
    have hfront := hsignature.length_le
    have hbehind := h.length_le
    rw [Word.length_row, hspan, List.length_drop] at hbehind
    -- The signature and the row fit one behind the other.
    have hroom : signature.length + count ≤ bytes.length := by omega
    exact ⟨hroom, (Word.row_stands_iff (words r) (by rw [hspan]; exact hroom)).mp h⟩
  · rintro ⟨hroom, hstand⟩
    exact (Word.row_stands_iff (words r) (by rw [hspan]; exact hroom)).mpr hstand

namespace EndRecord

/-- The fields in the order in which they are declared. -/
def words (r : EndRecord) : List Word :=
  [.two r.diskNumber, .two r.directoryDisk, .two r.diskEntries, .two r.totalEntries,
    .four r.directorySize, .four r.directoryOffset, .two r.commentLength]

theorem toBytes_eq_row (r : EndRecord) : r.toBytes = signature ++ Word.row r.words := by
  simp [toBytes, words]

end EndRecord

namespace Zip64Locator

/-- The fields in the order in which they are declared. -/
def words (r : Zip64Locator) : List Word :=
  [.four r.endRecordDisk, .eight r.endRecordOffset, .four r.totalDisks]

theorem toBytes_eq_row (r : Zip64Locator) : r.toBytes = signature ++ Word.row r.words := by
  simp [toBytes, words]

end Zip64Locator

namespace Zip64EndRecord

/-- The fields in the order in which they are declared. -/
def words (r : Zip64EndRecord) : List Word :=
  [.eight r.recordSize, .two r.madeBy, .two r.needed, .four r.diskNumber, .four r.directoryDisk,
    .eight r.diskEntries, .eight r.totalEntries, .eight r.directorySize, .eight r.directoryOffset]

theorem toBytes_eq_row (r : Zip64EndRecord) : r.toBytes = signature ++ Word.row r.words := by
  simp [toBytes, words]

end Zip64EndRecord

end NestedZip
