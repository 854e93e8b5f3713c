import NestedZip.Files.Path

/-!
# Trees of files

The files that archives are read from, by the names that lead to them from the root. A directory
is there if it was made or if something is in it. A link is a name that leads to another
directory.

A path is followed name by name, and every name on the way has to be that of a directory: a path
through a missing directory leads nowhere, even if it goes up again. To write a file, the
directories missing on the way to it are made, those that the path only passes through too.

## Main definitions

* `FileTree`: Files, directories, links and the directory one is in.
* `FileTree.write`: Adds a file or replaces it.
* `FileTree.read`: The bytes of the file that a path leads to.
-/

namespace NestedZip

/-- Files, directories and links by the names that lead to them, and the names that lead to the
    directory from which relative paths start. -/
structure FileTree where
  workingDirectory : List (List Char) := []
  links : List (List (List Char) × List (List Char)) := []
  directories : List (List (List Char)) := []
  files : List (List (List Char) × ByteArray) := []

namespace FileTree

/-- The most bytes in a name. -/
def maxNameLength : Nat := 255

/-- The most bytes in a path. -/
def maxPathLength : Nat := 4095

/-- Whether there is something at or below a place. -/
def reaches (t : FileTree) (place : List (List Char)) : Bool :=
  let known := t.workingDirectory :: t.links.map (·.1) ++ t.directories ++ t.files.map (·.1)
  place.isEmpty || known.any place.isPrefixOf

/-- Whether there is a file at a place. -/
def isFile (t : FileTree) (place : List (List Char)) : Bool := (t.files.lookup place).isSome

/-- The place from which a path starts. -/
def start (t : FileTree) (path : List Char) : List (List Char) :=
  if Path.isAbsolute path then [] else t.workingDirectory

/-- The place that some names lead to from another place. -/
def follow (t : FileTree) (place : List (List Char)) :
    List (List Char) → Except IoError (List (List Char))
  | [] => .ok place
  | name :: names =>
    if t.isFile place then .error .notADirectory
    else if name = [] ∨ name = ['.'] then t.follow place names
    -- It goes up by names, from wherever a link has led.
    else if name = ['.', '.'] then t.follow place.dropLast names
    else if maxNameLength < (String.ofList name).utf8ByteSize then .error .nameTooLong
    else
      let next := place ++ [name]
      match t.links.lookup next with
      | some target => t.follow target names
      | none => if t.reaches next then t.follow next names else .error .noSuchFile

/-- The place that a path leads to. -/
def locate (t : FileTree) (path : String) : Except IoError (List (List Char)) :=
  let chars := path.toList
  if chars.contains (Char.ofNat 0) then .error .nulInPath
  else if chars.isEmpty then .error .noSuchFile
  else if maxPathLength < path.utf8ByteSize then .error .nameTooLong
  else t.follow (t.start chars) (Path.pieces chars)

/-- The bytes of the file that a path leads to. -/
def read (t : FileTree) (path : String) : Except IoError ByteArray := do
  let place ← t.locate path
  match t.files.lookup place with
  | some content => return content
  | none => throw .isADirectory

/-- The place that some names lead to from another place, and the tree in which the directories
    missing on the way have been made. There is none if a file stands in the way. -/
def enter? (t : FileTree) (place : List (List Char)) :
    List (List Char) → Option (List (List Char) × FileTree)
  | [] => if t.isFile place then none else some (place, t)
  | name :: names =>
    if t.isFile place then none
    else if name = ['.', '.'] then t.enter? place.dropLast names
    else
      let next := place ++ [name]
      match t.links.lookup next with
      | some target => t.enter? target names
      | none =>
        if t.reaches next then t.enter? next names
        else enter? { t with directories := next :: t.directories } next names

/-- The tree with a file at a place, in place of one that was there. -/
def put (t : FileTree) (place : List (List Char)) (content : ByteArray) : FileTree :=
  { t with files := (place, content) :: t.files.filter fun (p, _) => p ≠ place }

/-- The tree with a file where a path leads to, in place of one that was there. Nothing changes if
    a file stands in the way or a directory is there. -/
def write (t : FileTree) (path : String) (content : ByteArray) : FileTree :=
  let chars := path.toList
  let names := Path.names chars
  match names.getLast?, t.enter? (t.start chars) names.dropLast with
  | some name, some (directory, made) =>
    let place := directory ++ [name]
    if name = ['.', '.'] ∨ (made.reaches place ∧ !made.isFile place) then t
    else made.put place content
  | _, _ => t

end FileTree

end NestedZip
