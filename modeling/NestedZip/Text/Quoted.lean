import NestedZip.Text.Unprintable

/-!
# Quoted text

Messages quote the text they complain about, so that its borders and its invisible characters
can be seen: it stands between double quotes, a double quote or a backslash inside is preceded
by a backslash, four control characters have names, and every other character without a shape of
its own is written by its number.

## Main definitions

* `Text.quoted`: A text between quotes.
-/

namespace NestedZip

namespace Text

/-- The escaped form of one character inside quotes. -/
def quotedChar (c : Char) : String :=
  match c.toNat with
  | 0x00 => "\\0"
  | 0x09 => "\\t"
  | 0x0A => "\\n"
  | 0x0D => "\\r"
  | 0x22 => "\\\""
  | 0x5C => "\\\\"
  | n =>
    if isUnprintable c then "\\u\x7b" ++ String.ofList (Nat.toDigits 16 n) ++ "\x7d"
    else c.toString

/-- A text between quotes, with whatever would not be seen inside them escaped. -/
def quoted (text : String) : String :=
  "\"" ++ String.join (text.toList.map quotedChar) ++ "\""

end Text

end NestedZip
