import NestedZip.Directory.Index
import NestedZip.Directory.LocalHeader
import NestedZip.Locator
import NestedZip.Manifest

/-!
# Archives

An archive is a window, the index of what is in it, and a name. The name is a locator without its
last separator, so the locator of an entry is the name, a separator and the written form of the
entry's name.

The data of an entry is found through its local header and comes as a window: stored data as it
is, compressed data as a window that inflates. A nested archive has to be stored, because an
archive is searched by position.

## Main definitions

* `Archive`, `Archive.ofWindow`, `Archive.ofBacking`: An indexed archive.
* `Archive.url`, `Archive.entryUrl`: Locators of the archive and of its entries.
* `Archive.recordData`, `Archive.entryData`: The data of an entry.
* `Archive.nestedSource`, `Archive.nestedArchive`: An entry as an archive.
* `Archive.libraries`: The entries below some directory that look like archives.
* `Archive.manifest`: The manifest, if there is one.
-/

namespace NestedZip

/-- An archive: where it is, what is in it, and its locator without the last separator. -/
structure Archive where
  window : Window
  index : Index
  container : String

namespace Archive

/-- Indexes the archive in a window. -/
def ofWindow (window : Window) (container : String) : Metered Error Archive :=
  if window.isCompressed then .fail (.notRandomAccess window.identity window.offset)
  else do
    let index ← Index.parse window
    return { window, index, container }

/-- Indexes a whole source, which also names the archive. -/
def ofBacking (backing : Backing) : Metered Error Archive :=
  Archive.ofWindow (.whole backing) backing.identity

/-- The number of bytes of the archive. -/
def size (a : Archive) : Nat := a.window.size

/-- The entries, in the order of the directory. -/
def entries (a : Archive) : List Entry := a.index.entries

/-- The first entry of a name. -/
def entry? (a : Archive) (name : Bytes) : Option Entry := a.index.find? name

/-- The locator of an archive. -/
def url (a : Archive) : String := a.container ++ Locator.separator

/-- The locator of an entry. -/
def entryUrl (a : Archive) (name : Bytes) : String := a.url ++ Percent.encode name

/-- The position of the data of an entry, which its local header tells. -/
def dataOffset (a : Archive) (e : Entry) : Metered Error Nat := do
  let bytes ← a.window.readExactAt e.headerOffset LocalHeader.length
  match LocalHeader.ofBytes? bytes with
  | some header => return e.headerOffset + header.dataOffset
  | none =>
    .fail (.malformedArchive a.window.identity e.headerOffset (.badLocalHeader e.displayName))

/-- The data of an entry of this archive. -/
def recordData (a : Archive) (e : Entry) : Metered Error Window := do
  let offset ← a.dataOffset e
  match e.method with
  -- Stored data has the size it is to have, whatever the other size in the record says.
  | .stored => .ofExcept (a.window.carve offset e.uncompressedSize)
  | .deflated => do
    let part ← .ofExcept (a.window.carve offset e.compressedSize)
    return part.inflating e.uncompressedSize
  | .unsupported number => .fail (.unsupportedCompression a.url e.displayName number)

/-- The data of the first entry of a name, if there is one. -/
def entryData (a : Archive) (name : Bytes) : Metered Error (Option Window) :=
  match a.entry? name with
  | none => return none
  | some e => return some (← a.recordData e)

/-- The window of the entry of a name that is to be searched as an archive. -/
def nestedSource (a : Archive) (name : Bytes) : Metered Error Window :=
  match a.entry? name with
  | none => .fail (.entryNotFound a.url (Text.decodeLossy name))
  | some e =>
    if e.isDirectory then .fail (.notAFile a.url e.displayName)
    -- An archive is searched by position, which compressed data does not allow.
    else if e.method ≠ .stored then .fail (.compressedNestedArchive a.url e.displayName)
    else a.recordData e

/-- The archive stored as the entry of a name. -/
def nestedArchive (a : Archive) (name : Bytes) : Metered Error Archive := do
  let data ← a.nestedSource name
  Archive.ofWindow data (a.entryUrl name)

/-- Whether an entry may be a library by what the directory tells: a stored file below `directory`
    with room for the first bytes of an archive. -/
def mayBeLibrary (directory : Bytes) (e : Entry) : Bool :=
  !e.isDirectory && e.method == .stored && directory.isPrefixOf e.name &&
    LocalHeader.signature.length ≤ e.uncompressedSize

/-- Whether the data of an entry starts as the data of an archive does. -/
def startsAsArchive (a : Archive) (e : Entry) : Metered Error Bool := do
  let data ← a.recordData e
  let start ← data.readExactAt 0 LocalHeader.signature.length
  return start == LocalHeader.signature

/-- Those of some entries that may be libraries and start as one. `found` holds those found so
    far, last first. -/
def librariesAmong (a : Archive) (directory : Bytes) (found : List Entry) :
    List Entry → Metered Error (List Entry)
  | [] => return found.reverse
  | e :: rest =>
    if mayBeLibrary directory e then do
      let found := if ← a.startsAsArchive e then e :: found else found
      librariesAmong a directory found rest
    else librariesAmong a directory found rest

/-- The entries whose names start with `directory` and that are stored archives by their looks, in
    the order of the directory. -/
def libraries (a : Archive) (directory : String) : Metered Error (List Entry) :=
  a.librariesAmong (Text.encode directory) [] a.entries

/-- The manifest, if there is one. -/
def manifest (a : Archive) (inflate : Decompressor) : Metered Error (Option Manifest) := do
  match ← a.entryData (Text.encode Manifest.entryName) with
  | none => return none
  | some data =>
    let bytes ← data.readAll inflate
    let manifest ← .ofExcept (Manifest.parse a.url bytes)
    return some manifest

end Archive

end NestedZip
