import NestedZip.Error
import NestedZip.Text.Utf8

/-!
# Manifests

A manifest is text that describes an archive: lines `Name: value`, in sections that are separated
by blank lines. The first section describes the archive as a whole, and it is there even if it is
empty. Every later one describes an entry, which its attribute `Name` names. A line that starts
with a space continues the value in front of it.

A line ends with a line feed, a carriage return, or the two in this order. What follows the last
line end is a line only if it is not empty. Lines are counted from one in messages; a section
without a name is reported at the blank line that ends it, or at the last line.

Attribute names are looked up without regard to the case of ASCII letters.

## Main definitions

* `Manifest.lines`: The lines of a text.
* `Attributes`, `Attributes.get?`: Names and values in order.
* `Manifest`, `Manifest.parse`: A manifest and how it is read.
* `Manifest.section?`, `Manifest.get?`: Looking up.
-/

namespace NestedZip

/-- Names and values, in the order in which they were written. -/
abbrev Attributes := List (String × String)

namespace Attributes

/-- The upper-case letter for an ASCII letter, any other character as it is. -/
def foldCase (c : Char) : Char := if 'a' ≤ c ∧ c ≤ 'z' then Char.ofNat (c.toNat - 32) else c

/-- Whether two names differ at most in the case of ASCII letters. -/
def sameName (a b : String) : Bool := a.toList.map foldCase == b.toList.map foldCase

/-- The value of the first attribute of a name. -/
def get? (a : Attributes) (name : String) : Option String :=
  (a.find? fun (n, _) => sameName n name).map (·.2)

end Attributes

/-- A manifest: the attributes of the archive, and the named sections for its entries. -/
structure Manifest where
  main : Attributes := []
  sections : List (String × Attributes) := []
deriving DecidableEq, Repr

namespace Manifest

/-- The name of the entry that holds the manifest of an archive. -/
def entryName : String := "META-INF/MANIFEST.MF"

/-- The lines of a text that goes on behind the beginning of a line, which `line` holds with its
    last character first. -/
def linesFrom : (text : List Char) → (line : List Char) → List (List Char)
  | [], [] => []
  | [], line => [line.reverse]
  | '\r' :: '\n' :: rest, line => line.reverse :: linesFrom rest []
  | '\r' :: rest, line => line.reverse :: linesFrom rest []
  | '\n' :: rest, line => line.reverse :: linesFrom rest []
  | c :: rest, line => linesFrom rest (c :: line)

/-- The lines of a text. -/
def lines (text : List Char) : List (List Char) := linesFrom text []

/-- What has been read so far: finished sections, last first, and the attributes of the section
    being read, last first. `main` is the first section once it is finished. -/
structure Progress where
  main : Option Attributes := none
  sections : List (String × Attributes) := []
  current : Attributes := []

namespace Progress

/-- Ends the section being read, at this line, unless it is a later section without attributes. -/
def endSection (p : Progress) (line : Nat) : Except (Nat × ManifestFault) Progress :=
  let attributes : Attributes := p.current.reverse
  match p.main with
  -- The first section is there even without attributes.
  | none => .ok { p with main := some attributes, current := [] }
  | some _ =>
    if attributes.isEmpty then .ok p
    else match attributes.get? "Name" with
      | none => .error (line, .unnamedSection)
      | some name => .ok { p with sections := (name, attributes) :: p.sections, current := [] }

/-- Reads a line that is not blank. -/
def readAttribute (p : Progress) (line : Nat) (text : List Char) :
    Except (Nat × ManifestFault) Progress :=
  match text, p.current with
  | ' ' :: _, [] => .error (line, .orphanContinuation)
  | ' ' :: more, (name, value) :: current =>
    .ok { p with current := (name, value ++ String.ofList more) :: current }
  | text, current =>
    let name := text.takeWhile (· != ':')
    match text.dropWhile (· != ':') with
    | [] => .error (line, .noColon (String.ofList text))
    | _ :: value =>
      if name.isEmpty then .error (line, .emptyName)
      else
        -- One space behind the colon belongs neither to the name nor to the value.
        let value := match value with
          | ' ' :: value => value
          | value => value
        .ok { p with current := (String.ofList name, String.ofList value) :: current }

/-- Reads lines, the first of which has the number `line`. -/
def readLines (p : Progress) (line : Nat) :
    List (List Char) → Except (Nat × ManifestFault) Progress
  | [] => p.endSection (line - 1)
  | text :: rest => do
    let p ← if text.isEmpty then p.endSection line else p.readAttribute line text
    p.readLines (line + 1) rest

/-- The manifest, when everything has been read. -/
def finish (p : Progress) : Manifest :=
  { main := p.main.getD [], sections := p.sections.reverse }

end Progress

/-- Reads the text of a manifest. A fault comes with the number of its line. -/
def ofText (text : List Char) : Except (Nat × ManifestFault) Manifest := do
  let progress ← Progress.readLines {} 1 (lines text)
  return progress.finish

/-- Reads a manifest. `archive` names the archive in messages. -/
def parse (archive : String) (bytes : Bytes) : Except Error Manifest :=
  (ofText (Text.decodeLossy bytes).toList).mapError fun (line, fault) =>
    .malformedManifest archive line fault

/-- The value of an attribute of the archive. -/
def get? (m : Manifest) (name : String) : Option String := m.main.get? name

/-- The attributes of the first section of a name, which has to match exactly. -/
def section? (m : Manifest) (name : String) : Option Attributes := m.sections.lookup name

/-- The class that starts the program in the archive. -/
def mainClass? (m : Manifest) : Option String := m.get? "Main-Class"

/-- The class that a launcher starts in its turn. -/
def startClass? (m : Manifest) : Option String := m.get? "Start-Class"

end Manifest

end NestedZip
