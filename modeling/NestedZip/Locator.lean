import NestedZip.Percent

/-!
# Locators

A locator names an archive, or an entry of an archive, at any depth. It starts with the root, the
name of a source such as `file:/app.jar` or `mem:app`, and goes on with percent-encoded names,
each behind a separator `!/`: every name but the last is an archive stored as an entry of the one
before, and the last is the entry that is meant. A locator that ends in a separator means the
archive itself.

`file:/app.jar!/lib/x.jar!/greeting.txt` is the entry `greeting.txt` of the archive `lib/x.jar`
of the file `/app.jar`. The scheme `jar:` may stand in front and says nothing.

Reading goes from left to right and reports the first thing that is wrong, so every name in front
of a reported one is sound.

## Main definitions

* `Locator`: The root, the archives to descend through, and the entry.
* `Locator.decode`, `Locator.toString`: Reading and writing.
* `Locator.isRemote`: Whether a root names a source on another machine.
* `Locator.segments`: What stands between the separators.
* `Locator.join`, `Locator.parent?`, `Locator.archiveLocator`: Moving down and up.
-/

namespace NestedZip

/-- The root source, the nested archives to descend through, outermost first, and the entry
    meant, or `none` for the innermost archive itself. -/
structure Locator where
  root : String
  archives : List Bytes := []
  entry : Option Bytes := none
deriving DecidableEq, Repr

namespace Locator

/-- What the root of a source on another machine starts with. -/
def remoteSchemes : List String := ["http://", "https://"]

/-- Whether a root names a source on another machine. -/
def isRemote (root : String) : Bool :=
  remoteSchemes.any fun scheme => scheme.toList.isPrefixOf root.toList

/-- Stands between a container and a name in it. -/
def separator : String := "!/"

/-- What stands between the separators of a text, from left to right. -/
def segments : List Char → List (List Char)
  | [] => [[]]
  | '!' :: '/' :: rest => [] :: segments rest
  | c :: rest =>
    match segments rest with
    | [] => [[c]]
    | first :: others => (c :: first) :: others

/-- A text without the scheme that says nothing. -/
def dropScheme : List Char → List Char
  | 'j' :: 'a' :: 'r' :: ':' :: rest => rest
  | text => text

/-- Reads the names behind the root: the archives, and the entry unless the last name is empty.
    `text` is the whole locator, for the message. -/
def decodeNames (text : String) : List (List Char) → Except Error (List Bytes × Option Bytes)
  | [] => .ok ([], none)
  | [name] =>
    if name.isEmpty then .ok ([], none)
    else do
      let entry ← Percent.decode (String.ofList name)
      return ([], some entry)
  | name :: names =>
    if name.isEmpty then .error (.malformedLocator text .emptyNestedName)
    else do
      let archive ← Percent.decode (String.ofList name)
      let (archives, entry) ← decodeNames text names
      return (archive :: archives, entry)

/-- Reads a locator. -/
def decode (text : String) : Except Error Locator :=
  match segments (dropScheme text.toList) with
  -- A root without a separator names a source, and no archive in it.
  | [] | [_] => .error (.malformedLocator text .noSeparator)
  | root :: names =>
    if root.isEmpty then .error (.malformedLocator text .emptyRoot)
    else do
      let (archives, entry) ← decodeNames text names
      return { root := String.ofList root, archives, entry }

/-- The written form of a locator. -/
def toString (l : Locator) : String :=
  let container :=
    l.archives.foldl (fun text name => text ++ separator ++ Percent.encode name) l.root
  container ++ separator ++ (l.entry.map Percent.encode).getD ""

/-- The number of archives below the root. -/
def depth (l : Locator) : Nat := l.archives.length

/-- The archive that holds the entry meant. -/
def archiveLocator (l : Locator) : Locator := { l with entry := none }

/-- One name further down: an entry of the archive meant, or, where an entry was meant, an entry
    of that entry as an archive. -/
def join (l : Locator) (name : Bytes) : Locator :=
  { l with archives := l.archives ++ l.entry.toList, entry := some name }

/-- One name further up; the root archive has nothing above it. -/
def parent? (l : Locator) : Option Locator :=
  match l.entry with
  -- From an entry it goes to its archive, which is written with a separator at the end.
  | some _ => some l.archiveLocator
  | none => l.archives.getLast?.map fun last =>
    { l with archives := l.archives.dropLast, entry := some last }

end Locator

end NestedZip
