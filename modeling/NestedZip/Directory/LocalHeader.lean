import NestedZip.Directory.Trailer

/-!
# Local headers

The data of an entry stands behind a header of its own, which repeats what the directory says and
adds a name and an extra field. Only the lengths of these two matter here, because they tell where
the data starts; they may differ from the lengths in the directory.

## Main definitions

* `LocalHeader`: The part of fixed layout.
* `LocalHeader.ofBytes?`, `LocalHeader.toBytes`: Reading and writing it.
* `LocalHeader.dataOffset`: How far behind the start of the header the data starts.
-/

namespace NestedZip

/-- The header in front of the data of an entry, without its signature. -/
structure LocalHeader where
  needed : UInt16
  flags : UInt16
  method : UInt16
  packedTime : UInt16
  packedDate : UInt16
  crc : UInt32
  compressedSize : UInt32
  uncompressedSize : UInt32
  nameLength : UInt16
  extraLength : UInt16
deriving DecidableEq, Repr

namespace LocalHeader

/-- The first bytes of a local header. -/
def signature : Bytes := [0x50, 0x4B, 0x03, 0x04]

/-- The number of bytes of signature and header. -/
def length : Nat := 30

/-- Reads the fields. -/
def fields : Reader LocalHeader := do
  return {
    needed := ← .u16
    flags := ← .u16
    method := ← .u16
    packedTime := ← .u16
    packedDate := ← .u16
    crc := ← .u32
    compressedSize := ← .u32
    uncompressedSize := ← .u32
    nameLength := ← .u16
    extraLength := ← .u16 }

/-- The local header that some bytes start with. -/
def ofBytes? (bytes : Bytes) : Option LocalHeader := do
  let rest ← afterSignature? signature bytes
  fields.run' rest

/-- The layout of signature and header. -/
def toBytes (h : LocalHeader) : Bytes :=
  signature ++ .ofNatLE 2 h.needed.toNat ++ .ofNatLE 2 h.flags.toNat ++
    .ofNatLE 2 h.method.toNat ++ .ofNatLE 2 h.packedTime.toNat ++
    .ofNatLE 2 h.packedDate.toNat ++ .ofNatLE 4 h.crc.toNat ++
    .ofNatLE 4 h.compressedSize.toNat ++ .ofNatLE 4 h.uncompressedSize.toNat ++
    .ofNatLE 2 h.nameLength.toNat ++ .ofNatLE 2 h.extraLength.toNat

/-- The number of bytes from the start of the header to the start of the data. -/
def dataOffset (h : LocalHeader) : Nat := length + h.nameLength.toNat + h.extraLength.toNat

end LocalHeader

end NestedZip
