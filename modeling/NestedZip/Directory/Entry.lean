import NestedZip.Text.Utf8

/-!
# Entries

What a directory tells about one entry of an archive. The name is kept as the bytes that stand in
the directory; a name that ends in a slash is a directory. The date and the time are packed into
two bytes each and are taken apart without being checked, so a month may be zero.

## Main definitions

* `Method`: How the data of an entry is stored.
* `Entry`: A directory's account of one entry.
* `Entry.date`, `Entry.time`: When the entry was last changed.
-/

namespace NestedZip

/-- How the data of an entry is stored. -/
inductive Method where
  /-- As it is. -/
  | stored
  /-- Compressed by DEFLATE. -/
  | deflated
  /-- In some other way, by its number. -/
  | unsupported (number : UInt16)
deriving DecidableEq, Repr

namespace Method

/-- The method with this number. -/
def ofNumber (number : UInt16) : Method :=
  if number = 0 then stored else if number = 8 then deflated else unsupported number

/-- The number of a method. -/
def number : Method → UInt16
  | stored => 0
  | deflated => 8
  | unsupported number => number

end Method

/-- A directory's account of one entry. -/
structure Entry where
  name : Bytes
  method : Method
  compressedSize : Nat := 0
  uncompressedSize : Nat := 0
  crc : UInt32 := 0
  /-- Where the local header of the entry starts, counted from the start of the archive. -/
  headerOffset : Nat := 0
  flags : UInt16 := 0
  packedTime : UInt16 := 0
  packedDate : UInt16 := 0
deriving DecidableEq, Repr

namespace Entry

/-- The byte that ends the name of a directory. -/
def slash : UInt8 := 0x2F

/-- Whether the entry is a directory. -/
def isDirectory (e : Entry) : Bool := e.name.getLast? == some slash

/-- The name as text for people. -/
def displayName (e : Entry) : String := Text.decodeLossy e.name

/-- The year, the month and the day. -/
def date (e : Entry) : Nat × Nat × Nat :=
  let packed := e.packedDate.toNat
  (packed / 512 + 1980, packed / 32 % 16, packed % 32)

/-- The hour, the minute and the second, which is even. -/
def time (e : Entry) : Nat × Nat × Nat :=
  let packed := e.packedTime.toNat
  (packed / 2048, packed / 32 % 64, packed % 32 * 2)

end Entry

end NestedZip
