/-!
# Patterns for names

A pattern is matched against a whole name. A star stands for any characters, or none, a question
mark for one character, and every other character for itself.

## Main definitions

* `Glob.onSomeSuffix`: Whether something holds of what is left behind some first characters.
* `Glob.matchesChars`, `Glob.isMatch`: Whether a pattern matches a name.
-/

namespace NestedZip

namespace Glob

/-- Whether `p` holds of the text or of what is left of it behind some first characters. -/
def onSomeSuffix (p : List Char → Bool) : List Char → Bool
  | [] => p []
  | c :: text => p (c :: text) || onSomeSuffix p text

/-- Whether a pattern matches a text. -/
def matchesChars : (pattern text : List Char) → Bool
  | [], text => text.isEmpty
  | p :: pattern, text =>
    if p = '*' then onSomeSuffix (matchesChars pattern) text
    else match text with
      | [] => false
      | c :: text => (p = '?' || p = c) && matchesChars pattern text

/-- Whether a pattern matches a name. -/
def isMatch (pattern name : String) : Bool := matchesChars pattern.toList name.toList

end Glob

end NestedZip
