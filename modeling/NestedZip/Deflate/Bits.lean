/-!
# Reading compressed data bit by bit

Compressed data is a string of bits: the lowest bit of each byte comes first, and so does the
lowest bit of each number. Reading stops early for one of two reasons that must be kept apart. Data
that runs out is *starved*: more of it may follow. Data that no compressor writes is *corrupt*,
whatever follows.

## Main definitions

* `Deflate.Stop`: Why reading stopped early.
* `Deflate.Cursor`: The input and the place in it.
* `Deflate.BitReader`: A step of reading.
* `Deflate.bit`, `Deflate.bits`: The next bit, the next number.
-/

namespace NestedZip

namespace Deflate

/-- Why reading stopped early. -/
inductive Stop where
  /-- The input ended; more of it may follow. -/
  | starved
  /-- The input is wrong, whatever follows. -/
  | corrupt
deriving DecidableEq, Repr

/-- The input, and the number of its bits that have been read. -/
structure Cursor where
  input : ByteArray
  position : Nat := 0

/-- A step of reading. -/
abbrev BitReader := EStateM Stop Cursor

/-- The next bit. -/
def bit : BitReader Nat := fun c =>
  if h : c.position / 8 < c.input.size then
    let value := (c.input[c.position / 8] >>> UInt8.ofNat (c.position % 8)) &&& 1
    .ok value.toNat { c with position := c.position + 1 }
  else .error .starved c

/-- The next `count` bits as a number, lowest first. -/
def bits : (count : Nat) → BitReader Nat
  | 0 => return 0
  | count + 1 => do
    let low ← bit
    let high ← bits count
    return low + 2 * high

/-- Skips to the next byte. -/
def alignToByte : BitReader Unit :=
  modify fun c => { c with position := (c.position + 7) / 8 * 8 }

end Deflate

end NestedZip
