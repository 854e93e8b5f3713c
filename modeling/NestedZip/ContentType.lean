import NestedZip.Files.Path
import NestedZip.Locator

/-!
# Content types

What a resource holds is guessed from its name alone: an archive is an archive, and an entry is
what its extension says, in either case. Nothing is read for the guess.

## Main definitions

* `ContentType.byExtension`: The known extensions.
* `ContentType.guess`: The content type of what a locator names.
-/

namespace NestedZip

namespace ContentType

/-- The content type of an archive. -/
def archive : String := "application/java-archive"

/-- The content type of an entry whose name says nothing. -/
def unknown : String := "content/unknown"

/-- The content types of the known extensions. -/
def byExtension : List (String × String) :=
  [("jar", archive), ("war", archive), ("zip", "application/zip"),
    ("class", "application/java-vm"), ("txt", "text/plain"), ("properties", "text/plain"),
    ("mf", "text/plain"), ("html", "text/html"), ("htm", "text/html"), ("css", "text/css"),
    ("js", "application/javascript"), ("json", "application/json"), ("xml", "application/xml"),
    ("yml", "application/yaml"), ("yaml", "application/yaml"), ("png", "image/png"),
    ("gif", "image/gif"), ("jpg", "image/jpeg"), ("jpeg", "image/jpeg"),
    ("svg", "image/svg+xml")]

/-- The lower-case letter for an ASCII letter, any other character as it is. -/
def lowerCase (c : Char) : Char := if 'A' ≤ c ∧ c ≤ 'Z' then Char.ofNat (c.toNat + 32) else c

/-- The content type of an entry of this name. -/
def ofName (name : Bytes) : String :=
  let extension := (Path.extension? (Text.decodeLossy name)).map fun e =>
    String.ofList (e.toList.map lowerCase)
  (extension.bind fun e => byExtension.lookup e).getD unknown

/-- The content type of what a locator names. -/
def guess (l : Locator) : String :=
  match l.entry with
  | none => archive
  | some name => ofName name

end ContentType

end NestedZip
