import NestedZip.Error

/-!
# Paths

A path is a row of names with slashes between them. An empty name, which two slashes in a row
leave, and the name `.` mean nothing; the name `..` means the directory above, and is kept because
what lies above depends on the files there are.

## Main definitions

* `Path.names`: The names in a path that mean something.
* `Path.absolute`: A path from the root, whatever directory one is in.
* `Path.extension?`: What stands behind the last point of the last name.
-/

namespace NestedZip

namespace Path

/-- What stands between the slashes of a path. -/
def pieces : List Char → List (List Char)
  | [] => [[]]
  | '/' :: rest => [] :: pieces rest
  | c :: rest =>
    match pieces rest with
    | [] => [[c]]
    | first :: others => (c :: first) :: others

/-- The names in a path that mean something. -/
def names (path : List Char) : List (List Char) :=
  (pieces path).filter fun name => name ≠ [] ∧ name ≠ ['.']

/-- Whether a path starts at the root. -/
def isAbsolute (path : List Char) : Bool := path.head? == some '/'

/-- What an absolute path starts with. Exactly two slashes may have a meaning of their own and are
    kept; more than two are as good as one. -/
def absoluteStart : List Char → List Char
  | '/' :: '/' :: '/' :: _ => ['/']
  | '/' :: '/' :: _ => ['/', '/']
  | _ => ['/']

/-- A path that leads on from another one through some names, with one slash in front of each. -/
def below (start : List Char) (names : List (List Char)) : List Char :=
  let rest := names.flatMap fun name => '/' :: name
  if start.getLast? = some '/' then start ++ rest.drop 1 else start ++ rest

/-- A path from the root to what `path` means in the directory `base`. A slash at the end is kept,
    since it asks for a directory. -/
def absolute (base path : String) : Except IoError String :=
  let chars := path.toList
  if chars.isEmpty then .error .emptyPath
  else
    let start := if isAbsolute chars then absoluteStart chars else base.toList
    let reached := below start (names chars)
    .ok (String.ofList (if chars.getLast? = some '/' then below reached [[]] else reached))

/-- The last name of a path, unless it means the directory above. -/
def fileName? (path : List Char) : Option (List Char) :=
  (names path).getLast?.filter (· ≠ ['.', '.'])

/-- What stands behind the last point of the last name, if something stands in front of it. -/
def extension? (path : String) : Option String := do
  let name ← fileName? path.toList
  let reversed := name.reverse
  match reversed.dropWhile (· ≠ '.') with
  | [] | [_] => none
  | _ => some (String.ofList (reversed.takeWhile (· ≠ '.')).reverse)

end Path

end NestedZip
