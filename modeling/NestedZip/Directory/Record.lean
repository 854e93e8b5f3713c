import NestedZip.Directory.Entry
import NestedZip.Directory.Trailer
import NestedZip.Error

/-!
# Records of a directory

A directory is a row of records, one for each entry. A record is a header of fixed layout,
the name, an extra field and a comment, and the header tells the lengths of these three.

The header has narrow numbers for the two sizes and for the place of the entry. Where one of them
is at its largest value, the true number is looked for in the extra field, which is a row of blocks
with an identifier and a length each: the block with identifier one holds wide numbers for exactly
those that are at their largest value, in a fixed order.

Blocks are followed by the lengths they declare. A last block that declares more than the extra
field has is read as far as it declares, and the record nevertheless ends where its header says.

## Main definitions

* `RecordHeader`: The part of fixed layout.
* `Extents`: The two sizes and the place of an entry.
* `Extents.widen`: Takes wide numbers from an extra field.
* `Entry.read`: The entry described by the record that some bytes start with, and the rest.
-/

namespace NestedZip

/-- The part of a record that has a fixed layout, without its signature. -/
structure RecordHeader where
  madeBy : UInt16
  needed : UInt16
  flags : UInt16
  method : UInt16
  packedTime : UInt16
  packedDate : UInt16
  crc : UInt32
  compressedSize : UInt32
  uncompressedSize : UInt32
  nameLength : UInt16
  extraLength : UInt16
  commentLength : UInt16
  startDisk : UInt16
  internalAttributes : UInt16
  externalAttributes : UInt32
  headerOffset : UInt32
deriving DecidableEq, Repr

namespace RecordHeader

/-- The first bytes of a record. -/
def signature : Bytes := [0x50, 0x4B, 0x01, 0x02]

/-- The number of bytes of signature and header. -/
def length : Nat := 46

/-- Reads the fields. -/
def fields : Reader RecordHeader := do
  return {
    madeBy := ← .u16
    needed := ← .u16
    flags := ← .u16
    method := ← .u16
    packedTime := ← .u16
    packedDate := ← .u16
    crc := ← .u32
    compressedSize := ← .u32
    uncompressedSize := ← .u32
    nameLength := ← .u16
    extraLength := ← .u16
    commentLength := ← .u16
    startDisk := ← .u16
    internalAttributes := ← .u16
    externalAttributes := ← .u32
    headerOffset := ← .u32 }

/-- The layout of signature and header. -/
def toBytes (h : RecordHeader) : Bytes :=
  signature ++ .ofNatLE 2 h.madeBy.toNat ++ .ofNatLE 2 h.needed.toNat ++
    .ofNatLE 2 h.flags.toNat ++ .ofNatLE 2 h.method.toNat ++ .ofNatLE 2 h.packedTime.toNat ++
    .ofNatLE 2 h.packedDate.toNat ++ .ofNatLE 4 h.crc.toNat ++
    .ofNatLE 4 h.compressedSize.toNat ++ .ofNatLE 4 h.uncompressedSize.toNat ++
    .ofNatLE 2 h.nameLength.toNat ++ .ofNatLE 2 h.extraLength.toNat ++
    .ofNatLE 2 h.commentLength.toNat ++ .ofNatLE 2 h.startDisk.toNat ++
    .ofNatLE 2 h.internalAttributes.toNat ++ .ofNatLE 4 h.externalAttributes.toNat ++
    .ofNatLE 4 h.headerOffset.toNat

/-- The number of bytes of the whole record. -/
def span (h : RecordHeader) : Nat :=
  length + h.nameLength.toNat + h.extraLength.toNat + h.commentLength.toNat

end RecordHeader

/-- The sizes and the place of an entry. -/
structure Extents where
  uncompressed : Nat
  compressed : Nat
  offset : Nat
deriving DecidableEq, Repr

namespace Extents

/-- A narrow number at its largest value, in place of which a wide one is looked for. -/
def saturated : Nat := 0xFFFFFFFF

/-- The identifier of the block that holds wide numbers. -/
def blockId : UInt16 := 1

/-- A number, or the wide one that `bytes` start with if it is at its largest value and the block
    has `room` for a wide one; then the room and the bytes that are left. -/
def widenOne (value room : Nat) (bytes : Bytes) : Except RecordFault (Nat × Nat × Bytes) :=
  if value = saturated ∧ 8 ≤ room then
    match Reader.number 8 bytes with
    | some (wide, rest) => .ok (wide, room - 8, rest)
    | none => .error .truncated
  else .ok (value, room, bytes)

/-- Takes wide numbers from the inside of a block of `room` bytes. -/
def widenFrom (e : Extents) (room : Nat) (bytes : Bytes) : Except RecordFault Extents := do
  let (uncompressed, room, bytes) ← widenOne e.uncompressed room bytes
  let (compressed, room, bytes) ← widenOne e.compressed room bytes
  -- The order is fixed, and a number below its largest value has none in the block.
  let (offset, _, _) ← widenOne e.offset room bytes
  return { uncompressed, compressed, offset }

/-- Takes wide numbers from an extra field of which `left` bytes are left, while there is room for
    the identifier and the length of a block. Each block takes at least four bytes, so a `fuel` of
    `left` is enough. -/
def widenWithin : (fuel left : Nat) → Bytes → Extents → Except RecordFault Extents
  | 0, _, _, e => .ok e
  | fuel + 1, left, bytes, e =>
    if left < 4 then .ok e
    else do
      let some (id, bytes) := Reader.u16 bytes | throw .truncated
      let some (size, bytes) := Reader.u16 bytes | throw .truncated
      let size := size.toNat
      let e ← if id = blockId then e.widenFrom size bytes else pure e
      -- The declared size is passed over whole, whatever was taken out of it.
      widenWithin fuel (left - (4 + size)) (bytes.drop size) e

/-- Takes wide numbers from an extra field of `extraLength` bytes that `bytes` start with. -/
def widen (e : Extents) (extraLength : Nat) (bytes : Bytes) : Except RecordFault Extents :=
  widenWithin extraLength extraLength bytes e

end Extents

namespace Entry

/-- The entry described by the record that some bytes start with, the number of bytes of that
    record, and the bytes behind it. -/
def read (bytes : Bytes) : Except RecordFault (Entry × Nat × Bytes) := do
  let some (signature, bytes) := Reader.bytes 4 bytes | throw .truncated
  if signature ≠ RecordHeader.signature then throw .badSignature
  let some (header, bytes) := RecordHeader.fields bytes | throw .truncated
  let some (name, bytes) := Reader.bytes header.nameLength.toNat bytes | throw .truncated
  let narrow : Extents := {
    uncompressed := header.uncompressedSize.toNat
    compressed := header.compressedSize.toNat
    offset := header.headerOffset.toNat }
  let extents ← narrow.widen header.extraLength.toNat bytes
  let behind := header.extraLength.toNat + header.commentLength.toNat
  -- Only here the extra field and the comment have to be there as they were declared.
  let some (_, rest) := Reader.bytes behind bytes | throw .overrun
  let entry : Entry := {
    name
    method := .ofNumber header.method
    compressedSize := extents.compressed
    uncompressedSize := extents.uncompressed
    crc := header.crc
    headerOffset := extents.offset
    flags := header.flags
    packedTime := header.packedTime
    packedDate := header.packedDate }
  return (entry, header.span, rest)

end Entry

end NestedZip
