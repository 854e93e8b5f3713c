import NestedZip.Error
import NestedZip.Text.Utf8

/-!
# Percent-encoded names

An entry name is any byte string, and a locator is text. Inside a locator a name is written with
the bytes that are letters, digits or one of `-._~/` as they are and every other byte as a
percent sign and two hexadecimal digits. `!` is among the escaped bytes, so a written name never
holds the separator `!/`.

Reading is more generous than writing: digits of either case are accepted, and characters that
writing would have escaped stand for their UTF-8 bytes.

## Main definitions

* `Percent.encode`: The written form of a name.
* `Percent.decode`: The name that a written form stands for.
-/

namespace NestedZip

namespace Percent

/-- Whether a byte is written as it is. -/
def isPlain (b : UInt8) : Bool :=
  (0x30 ≤ b && b ≤ 0x39) || (0x41 ≤ b && b ≤ 0x5A) || (0x61 ≤ b && b ≤ 0x7A) ||
    b == 0x2D || b == 0x2E || b == 0x5F || b == 0x7E || b == 0x2F

/-- The upper-case hexadecimal digit for a number below sixteen. -/
def hexDigit (n : Nat) : Char :=
  if n < 10 then Char.ofNat (0x30 + n) else Char.ofNat (0x41 + (n - 10))

/-- The number a hexadecimal digit of either case stands for. -/
def hexValue? (b : UInt8) : Option Nat :=
  if 0x30 ≤ b ∧ b ≤ 0x39 then some (b.toNat - 0x30)
  else if 0x41 ≤ b ∧ b ≤ 0x46 then some (b.toNat - 0x41 + 10)
  else if 0x61 ≤ b ∧ b ≤ 0x66 then some (b.toNat - 0x61 + 10)
  else none

/-- The written form of one byte. -/
def encodeByte (b : UInt8) : List Char :=
  if isPlain b then [Char.ofNat b.toNat]
  else ['%', hexDigit (b.toNat / 16), hexDigit (b.toNat % 16)]

/-- The written form of a name. -/
def encode (name : Bytes) : String := String.ofList (name.flatMap encodeByte)

/-- Reads the bytes of a written form: escapes stand for the byte they number, all other bytes
    for themselves. `done` holds the bytes read so far, last first. -/
def decodeBytes (bytes : Bytes) (done : Bytes) : Except LocatorFault Bytes :=
  match bytes with
  | [] => .ok done.reverse
  | 0x25 :: high :: low :: rest =>
    match hexValue? high, hexValue? low with
    | some h, some l => decodeBytes rest (UInt8.ofNat (h * 16 + l) :: done)
    | _, _ => .error (.invalidEscape (Text.decodeLossy [0x25, high, low]))
  | b :: rest =>
    -- Fewer than two bytes are left, or it would have been an escape.
    if b = 0x25 then .error (.truncatedEscape (Text.decodeLossy (b :: rest)))
    else decodeBytes rest (b :: done)

/-- The name that a written form stands for. A failure quotes the whole written form. -/
def decode (text : String) : Except Error Bytes :=
  (decodeBytes (Text.encode text) []).mapError (.malformedLocator text)

end Percent

end NestedZip
