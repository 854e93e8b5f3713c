import NestedZip.Bytes

/-!
# Text in bytes

Entry names and manifests are bytes that are meant as UTF-8 text and need not be. They are
shown with U+FFFD in place of what cannot be read. How many replacement characters stand for a
broken stretch is part of the output, so it is fixed here: bytes are read one at a time, a
sequence that has been started is given up at the first byte that cannot continue it, and that
byte is then read afresh. Every sequence that was given up, and every byte that starts none,
becomes one unit without a character.

The range allowed for the second byte already excludes overlong forms, surrogates and numbers
above U+10FFFF, so a sequence that is completed always holds a character.

## Main definitions

* `Text.encode`: The bytes of a text.
* `Text.units`: The characters of a byte string, with `none` for each broken stretch.
* `Text.decodeLossy`: The text of a byte string, broken stretches replaced.
* `Text.decode?`: The text of a byte string that has no broken stretch.
-/

namespace NestedZip

namespace Text

/-- The UTF-8 bytes of a text. -/
def encode (text : String) : Bytes := text.toList.flatMap String.utf8EncodeChar

/-- A sequence of bytes that has been started and is not complete: the number read so far, how
    many bytes are missing, and the range the next one must lie in. -/
structure Sequence where
  value : Nat
  missing : Nat
  low : UInt8 := 0x80
  high : UInt8 := 0xBF
deriving DecidableEq, Repr

/-- The sequence that a byte above 0x7F starts, if it starts one. -/
def Sequence.start? (lead : UInt8) : Option Sequence :=
  if lead < 0xC2 then none
  else if lead < 0xE0 then some { value := lead.toNat - 0xC0, missing := 1 }
  else if lead = 0xE0 then some { value := 0, missing := 2, low := 0xA0 }
  else if lead = 0xED then some { value := 0xD, missing := 2, high := 0x9F }
  else if lead < 0xF0 then some { value := lead.toNat - 0xE0, missing := 2 }
  else if lead = 0xF0 then some { value := 0, missing := 3, low := 0x90 }
  else if lead < 0xF4 then some { value := lead.toNat - 0xF0, missing := 3 }
  else if lead = 0xF4 then some { value := 4, missing := 3, high := 0x8F }
  else none

/-- What has been read so far: the units, last first, and the sequence that is still open. -/
structure Decoding where
  units : List (Option Char) := []
  started : Option Sequence := none

namespace Decoding

/-- Reads a byte where no sequence is open. -/
def feedFresh (units : List (Option Char)) (b : UInt8) : Decoding :=
  if b < 0x80 then { units := some (Char.ofNat b.toNat) :: units }
  else match Sequence.start? b with
    | some sequence => { units, started := some sequence }
    | none => { units := none :: units }

/-- Reads a byte. -/
def feed (d : Decoding) (b : UInt8) : Decoding :=
  match d.started with
  | none => feedFresh d.units b
  | some sequence =>
    if sequence.low ≤ b ∧ b ≤ sequence.high then
      let value := sequence.value * 64 + (b.toNat - 0x80)
      if sequence.missing ≤ 1 then { units := some (Char.ofNat value) :: d.units }
      else { units := d.units, started := some { value, missing := sequence.missing - 1 } }
    -- The byte may be a character, or start another sequence.
    else feedFresh (none :: d.units) b

/-- The units in order; a sequence left open at the end is a broken stretch. -/
def finish (d : Decoding) : List (Option Char) :=
  match d.started with
  | none => d.units.reverse
  | some _ => (none :: d.units).reverse

end Decoding

/-- The characters of a byte string, `none` for each broken stretch. -/
def units (bytes : Bytes) : List (Option Char) := (bytes.foldl Decoding.feed {}).finish

/-- The character shown for a broken stretch. -/
def replacement : Char := Char.ofNat 0xFFFD

/-- The text of a byte string, with every broken stretch replaced. -/
def decodeLossy (bytes : Bytes) : String :=
  String.ofList ((units bytes).map fun unit => unit.getD replacement)

/-- The text of a byte string, or `none` if it has a broken stretch. -/
def decode? (bytes : Bytes) : Option String :=
  ((units bytes).mapM id).map String.ofList

/-- Whether a byte string is text. -/
def isText (bytes : Bytes) : Bool := (units bytes).all Option.isSome

end Text

end NestedZip
