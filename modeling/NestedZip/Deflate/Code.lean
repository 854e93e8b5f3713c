import NestedZip.Deflate.Bits

/-!
# Prefix codes

A code gives each of its symbols a string of bits such that none starts another. It is described
by the lengths of these strings alone: shorter strings come first, and among strings of one length
those of smaller symbols come first, each string being the next number after the one before.

The lengths must leave no string of bits unused, or the data could not have been meant. The
exceptions are what a compressor writes where there is nothing to tell apart: a code without
symbols, and a code with one symbol, whose string is a single bit. Their unused strings are corrupt
at the first bit.

## Main definitions

* `Deflate.Code`: The number of strings of each length, and the symbols in the order of theirs.
* `Deflate.Code.ofLengths?`: The code that these lengths describe.
* `Deflate.Code.read`: The next symbol of the input.
-/

namespace NestedZip

namespace Deflate

/-- A prefix code: how many strings there are of each length from one up to the longest, and the
    symbols in the order of their strings. -/
structure Code where
  counts : List Nat
  symbols : Array Nat

namespace Code

/-- The number of symbols with a string of this length. -/
def countOf (lengths : List Nat) (length : Nat) : Nat := lengths.countP (· == length)

/-- The share of all bit strings that a code with these lengths takes up, in units of which
    `1 <<< 16` make the whole. -/
def share : List Nat → Nat
  | [] => 0
  | length :: lengths => (if length = 0 then 0 else 1 <<< (16 - length)) + share lengths

/-- The symbols with a string of this length, in order. -/
def symbolsOf (lengths : List Nat) (length : Nat) : List Nat :=
  (lengths.zipIdx.filter fun (l, _) => l == length).map (·.2)

/-- Whether these are the lengths of a code that tells nothing apart: no symbol has a string, or
    one symbol has a single bit. -/
def tellsNothing (lengths : List Nat) : Bool :=
  let used := lengths.filter (· != 0)
  used == [] || used == [1]

/-- The code in which the symbol at each position has a string of the length that stands there,
    zero meaning none, or `none` if the strings do not take up exactly all there is. A code that
    tells nothing apart may leave strings unused, unless it must be `full`. -/
def ofLengths? (full : Bool) (lengths : List Nat) : Option Code :=
  if share lengths = 1 <<< 16 ∨ (!full ∧ tellsNothing lengths) then
    let longest := lengths.foldl max 1
    let sizes := (List.range longest).map (· + 1)
    some {
      counts := sizes.map (countOf lengths)
      symbols := (sizes.flatMap (symbolsOf lengths)).toArray }
  else none

/-- Reads on in a string of bits. `value` is the string so far with room for the next bit, `first`
    the first string of this length, and `index` the number of symbols with shorter strings. -/
def readFrom (symbols : Array Nat) :
    (counts : List Nat) → (value first index : Nat) → BitReader Nat
  | [], _, _, _ => throw .corrupt
  | count :: counts, value, first, index => do
    let value := value + (← bit)
    if value < first + count then return symbols.getD (index + (value - first)) 0
    else readFrom symbols counts (2 * value) (2 * (first + count)) (index + count)

/-- The next symbol. -/
def read (code : Code) : BitReader Nat := readFrom code.symbols code.counts 0 0 0

end Code

end Deflate

end NestedZip
