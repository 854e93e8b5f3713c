import NestedZip.Bytes

/-!
# The records behind a directory

An archive is read from its end. The last thing in it is the end record, which says how many
entries there are, how large the directory is and where it starts, and which may carry a comment.
Its numbers are narrow. Where one of them is at its largest value, the true numbers stand in a
wider record further up, the ZIP64 end record, whose place is told by a ZIP64 locator directly
in front of the end record.

The three records have a fixed layout: a signature, then the fields in the order in which they are
declared here.

## Main definitions

* `EndRecord`, `Zip64Locator`, `Zip64EndRecord`: The records.
* `EndRecord.ofBytes?` and its like: The record that some bytes start with.
* `EndRecord.toBytes` and its like: The layout.
* `EndRecord.isSaturated`: Whether the true numbers stand in a ZIP64 record.
-/

namespace NestedZip

/-- What stands behind a signature, if the bytes start with it. -/
def afterSignature? (signature bytes : Bytes) : Option Bytes :=
  if signature.isPrefixOf bytes then some (bytes.drop signature.length) else none

/-- The last record of an archive. -/
structure EndRecord where
  diskNumber : UInt16
  directoryDisk : UInt16
  diskEntries : UInt16
  totalEntries : UInt16
  directorySize : UInt32
  directoryOffset : UInt32
  commentLength : UInt16
deriving DecidableEq, Repr

namespace EndRecord

/-- The first bytes of an end record. -/
def signature : Bytes := [0x50, 0x4B, 0x05, 0x06]

/-- The number of bytes without the comment. -/
def length : Nat := 22

/-- Reads the fields. -/
def fields : Reader EndRecord := do
  return {
    diskNumber := ← .u16
    directoryDisk := ← .u16
    diskEntries := ← .u16
    totalEntries := ← .u16
    directorySize := ← .u32
    directoryOffset := ← .u32
    commentLength := ← .u16 }

/-- The end record that some bytes start with. -/
def ofBytes? (bytes : Bytes) : Option EndRecord := do
  let rest ← afterSignature? signature bytes
  fields.run' rest

/-- The layout of an end record, without its comment. -/
def toBytes (r : EndRecord) : Bytes :=
  signature ++ .ofNatLE 2 r.diskNumber.toNat ++ .ofNatLE 2 r.directoryDisk.toNat ++
    .ofNatLE 2 r.diskEntries.toNat ++ .ofNatLE 2 r.totalEntries.toNat ++
    .ofNatLE 4 r.directorySize.toNat ++ .ofNatLE 4 r.directoryOffset.toNat ++
    .ofNatLE 2 r.commentLength.toNat

/-- Whether a number is at its largest, so that the true numbers stand in a ZIP64 record. -/
def isSaturated (r : EndRecord) : Bool :=
  r.diskEntries == 0xFFFF || r.totalEntries == 0xFFFF || r.directorySize == 0xFFFFFFFF ||
    r.directoryOffset == 0xFFFFFFFF

end EndRecord

/-- Tells where the ZIP64 end record is. -/
structure Zip64Locator where
  endRecordDisk : UInt32
  endRecordOffset : UInt64
  totalDisks : UInt32
deriving DecidableEq, Repr

namespace Zip64Locator

/-- The first bytes of a ZIP64 locator. -/
def signature : Bytes := [0x50, 0x4B, 0x06, 0x07]

/-- The number of bytes. -/
def length : Nat := 20

/-- Reads the fields. -/
def fields : Reader Zip64Locator := do
  return {
    endRecordDisk := ← .u32
    endRecordOffset := ← .u64
    totalDisks := ← .u32 }

/-- The ZIP64 locator that some bytes start with. -/
def ofBytes? (bytes : Bytes) : Option Zip64Locator := do
  let rest ← afterSignature? signature bytes
  fields.run' rest

/-- The layout of a ZIP64 locator. -/
def toBytes (r : Zip64Locator) : Bytes :=
  signature ++ .ofNatLE 4 r.endRecordDisk.toNat ++ .ofNatLE 8 r.endRecordOffset.toNat ++
    .ofNatLE 4 r.totalDisks.toNat

end Zip64Locator

/-- The end record with wide numbers. -/
structure Zip64EndRecord where
  recordSize : UInt64
  madeBy : UInt16
  needed : UInt16
  diskNumber : UInt32
  directoryDisk : UInt32
  diskEntries : UInt64
  totalEntries : UInt64
  directorySize : UInt64
  directoryOffset : UInt64
deriving DecidableEq, Repr

namespace Zip64EndRecord

/-- The first bytes of a ZIP64 end record. -/
def signature : Bytes := [0x50, 0x4B, 0x06, 0x06]

/-- The number of bytes without the data that may extend it. -/
def length : Nat := 56

/-- Reads the fields. -/
def fields : Reader Zip64EndRecord := do
  return {
    recordSize := ← .u64
    madeBy := ← .u16
    needed := ← .u16
    diskNumber := ← .u32
    directoryDisk := ← .u32
    diskEntries := ← .u64
    totalEntries := ← .u64
    directorySize := ← .u64
    directoryOffset := ← .u64 }

/-- The ZIP64 end record that some bytes start with. -/
def ofBytes? (bytes : Bytes) : Option Zip64EndRecord := do
  let rest ← afterSignature? signature bytes
  fields.run' rest

/-- The layout of a ZIP64 end record, without data that extends it. -/
def toBytes (r : Zip64EndRecord) : Bytes :=
  signature ++ .ofNatLE 8 r.recordSize.toNat ++ .ofNatLE 2 r.madeBy.toNat ++
    .ofNatLE 2 r.needed.toNat ++ .ofNatLE 4 r.diskNumber.toNat ++
    .ofNatLE 4 r.directoryDisk.toNat ++ .ofNatLE 8 r.diskEntries.toNat ++
    .ofNatLE 8 r.totalEntries.toNat ++ .ofNatLE 8 r.directorySize.toNat ++
    .ofNatLE 8 r.directoryOffset.toNat

end Zip64EndRecord

end NestedZip
