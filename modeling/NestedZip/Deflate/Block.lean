import NestedZip.Deflate.Code

/-!
# Blocks of compressed data

Compressed data is a row of blocks, the last of which is marked. A block holds its bytes as they
are, or as symbols of two prefix codes: one for bytes, the end of the block and the lengths of
repeats, one for the distances of repeats. The two codes are the fixed ones or are written in
front of the block, as lengths that are themselves written with a small code.

Where decoding stands between two steps is a phase. A step reads the header of a block or one
symbol with what belongs to it, and leads to the next phase. Nothing is written by a step; what it
calls for is part of the phase it leads to. So a step that is starved can be taken again from its
start when more input has come.

## Main definitions

* `Deflate.Phase`: Where decoding stands.
* `Deflate.readHeader`: From the front of a block into it.
* `Deflate.readSymbol`: From the front of a symbol to behind it.
-/

namespace NestedZip

namespace Deflate

/-- The codes of a block of symbols, and whether it is the last block. -/
structure Block where
  literals : Code
  distances : Code
  last : Bool

/-- Where decoding stands. -/
inductive Phase where
  /-- In front of a block. -/
  | header
  /-- In a block that holds its bytes as they are, with `left` of them to come. -/
  | plain (left : Nat) (last : Bool)
  /-- In a block of symbols. -/
  | symbols (block : Block)
  /-- Behind the symbol of a byte that is still to be written. -/
  | literal (b : UInt8) (block : Block)
  /-- Behind the symbols of a repeat, `count` bytes of which are still to be written, each the one
      that stands `distance` bytes before it. -/
  | repeating (distance count : Nat) (block : Block)
  /-- Behind the last block. -/
  | finished

/-- Behind a block. -/
def Phase.behind (last : Bool) : Phase := if last then finished else header

/-- The shortest length of each repeat symbol and the number of bits that may add to it. -/
def lengthTable : Array (Nat × Nat) :=
  #[(3, 0), (4, 0), (5, 0), (6, 0), (7, 0), (8, 0), (9, 0), (10, 0), (11, 1), (13, 1), (15, 1),
    (17, 1), (19, 2), (23, 2), (27, 2), (31, 2), (35, 3), (43, 3), (51, 3), (59, 3), (67, 4),
    (83, 4), (99, 4), (115, 4), (131, 5), (163, 5), (195, 5), (227, 5), (258, 0)]

/-- The shortest distance of each distance symbol and the number of bits that may add to it. -/
def distanceTable : Array (Nat × Nat) :=
  #[(1, 0), (2, 0), (3, 0), (4, 0), (5, 1), (7, 1), (9, 2), (13, 2), (17, 3), (25, 3), (33, 4),
    (49, 4), (65, 5), (97, 5), (129, 6), (193, 6), (257, 7), (385, 7), (513, 8), (769, 8),
    (1025, 9), (1537, 9), (2049, 10), (3073, 10), (4097, 11), (6145, 11), (8193, 12), (12289, 12),
    (16385, 13), (24577, 13)]

/-- The symbol that ends a block. -/
def endOfBlock : Nat := 256

/-- A number from a table of bases and extra bits; a symbol behind the table is corrupt. -/
def readExtended (table : Array (Nat × Nat)) (symbol : Nat) : BitReader Nat := do
  match table[symbol]? with
  | none => throw .corrupt
  | some (base, extra) => return base + (← bits extra)

/-- Reads a symbol, and with the length of a repeat its distance. -/
def readSymbol (block : Block) : BitReader Phase := do
  let symbol ← block.literals.read
  if symbol = endOfBlock then return .behind block.last
  else if symbol < endOfBlock then return .literal (UInt8.ofNat symbol) block
  else
    let length ← readExtended lengthTable (symbol - endOfBlock - 1)
    let distance ← readExtended distanceTable (← block.distances.read)
    return .repeating distance length block

/-- The lengths of the fixed code for bytes and repeats. -/
def fixedLiteralLengths : List Nat :=
  List.replicate 144 8 ++ List.replicate 112 9 ++ List.replicate 24 7 ++ List.replicate 8 8

/-- The lengths of the fixed code for distances. -/
def fixedDistanceLengths : List Nat := List.replicate 32 5

/-- The order in which the lengths of the small code are written. -/
def smallCodeOrder : List Nat := [16, 17, 18, 0, 8, 7, 9, 6, 10, 5, 11, 4, 12, 3, 13, 2, 14, 1, 15]

/-- Reads `total` lengths written with the small code: a length, the last one again, or a run of
    zeros. A run must not go past the end. Every step adds a length, so a `fuel` of one more than
    `total` is enough. -/
def readLengths (small : Code) (total : Nat) : (fuel : Nat) → (lengths : Array Nat) →
    BitReader (List Nat)
  | 0, _ => throw .starved
  | fuel + 1, lengths => do
    if lengths.size = total then return lengths.toList
    if total < lengths.size then throw .corrupt
    let symbol ← small.read
    if symbol < 16 then readLengths small total fuel (lengths.push symbol)
    else if symbol = 16 then
      match lengths.back? with
      | none => throw .corrupt
      | some last =>
        let count := 3 + (← bits 2)
        readLengths small total fuel (lengths ++ Array.replicate count last)
    else
      let count ← if symbol = 17 then (3 + ·) <$> bits 3 else (11 + ·) <$> bits 7
      readLengths small total fuel (lengths ++ Array.replicate count 0)

/-- Reads the lengths of the small code, which come in an order of their own and stop early. -/
def readSmallLengths (count : Nat) : BitReader (List Nat) := do
  let written ← (List.replicate count ()).mapM fun _ => bits 3
  let placed := smallCodeOrder.zip written
  return (List.range 19).map fun symbol => (placed.lookup symbol).getD 0

/-- The code these lengths describe, or corrupt data. -/
def demandCode (full : Bool) (lengths : List Nat) : BitReader Code :=
  match Code.ofLengths? full lengths with
  | some code => return code
  | none => throw .corrupt

/-- Reads the two codes in front of a block. -/
def readCodes (last : Bool) : BitReader Block := do
  let literalCount := 257 + (← bits 5)
  let distanceCount := 1 + (← bits 5)
  let smallCount := 4 + (← bits 4)
  if 286 < literalCount ∨ 30 < distanceCount then throw .corrupt
  let small ← demandCode true (← readSmallLengths smallCount)
  let total := literalCount + distanceCount
  let lengths ← readLengths small total (total + 1) #[]
  let distances ← demandCode false (lengths.drop literalCount)
  let literals ← demandCode false (lengths.take literalCount)
  return { literals, distances, last }

/-- Reads the number of bytes that a block holds as they are, which its complement follows. -/
def readPlainLength : BitReader Nat := do
  alignToByte
  let count ← bits 16
  let complement ← bits 16
  if count + complement ≠ 0xFFFF then throw .corrupt
  return count

/-- Reads what stands in front of the content of a block. -/
def readHeader : BitReader Phase := do
  let last := (← bit) = 1
  match ← bits 2 with
  | 0 => return .plain (← readPlainLength) last
  | 1 =>
    let literals ← demandCode false fixedLiteralLengths
    let distances ← demandCode false fixedDistanceLengths
    return .symbols { literals, distances, last }
  | 2 => return .symbols (← readCodes last)
  | _ => throw .corrupt

end Deflate

end NestedZip
