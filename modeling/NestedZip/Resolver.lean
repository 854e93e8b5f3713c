import NestedZip.Archive
import NestedZip.Cache
import NestedZip.Files.Path

/-!
# Resolvers

A resolver turns locators into opened archives. It knows the buffers that were registered with it
and what there is outside, files and sources on other machines, and it keeps what it opens: two
locators that lead to the same place lead to the same handle, and an archive is not indexed twice
while it is kept.

A root is looked up under the name of its source. Several spellings of a file name may open
sources of one name, so the source is opened to learn its name unless the root as written already
is one. A source on another machine is named by its URL as it is written. A nested archive is
looked up under its source and its offset there.

Every source counts the bytes that were fetched from it. A file is a new source each time it is
opened, and so is one on another machine; a buffer is the same source until it is replaced, and
replacing it drops all archives that were opened from the old one.

What is read from an opened archive is what is there by then. A buffer does not change, but what
is outside may be written again while archives in it are open. Their directories and sizes stay as
they were found, and their data is taken from the source as it is now.

How a source on another machine is asked, and how often when it does not answer, is not said here.
Opening it either fails for some reason or finds it, and one that was found brings all the bytes
that it announced.

## Main definitions

* `Address`, `Surroundings`: Where a source outside is, and what there is.
* `Source`, `Handle`: An opened source, an opened archive.
* `Resolver`: Buffers, what is outside, kept handles and counters.
* `Resolver.register`: Makes a buffer known.
* `Resolver.addressOf`: The address that a root names.
* `Resolver.openSource`, `Resolver.openRoot`, `Resolver.resolve`: From names to archives.
* `Resolver.present`: An opened archive as it is read now.
-/

namespace NestedZip

/-- Where a source outside is. -/
inductive Address where
  | file (path : String)
  /-- On another machine. -/
  | remote (url : String) (h : Locator.isRemote url = true)
deriving DecidableEq

/-- What there is outside. -/
structure Surroundings where
  /-- The bytes of the file at a path. -/
  fileAt : String → Except IoError ByteArray := fun _ => .error .noSuchFile
  /-- The bytes of the source at a URL, or the reason why it cannot be read from. -/
  remoteAt : String → Except String ByteArray := fun _ => .error "no connection"

/-- The bytes at an address. -/
def Surroundings.read (o : Surroundings) : Address → Except Error ByteArray
  | .file path => (o.fileAt path).mapError .io
  | .remote url _ => (o.remoteAt url).mapError (.remote url)

/-- An opened source. Its number tells it from others, even of the same name. -/
structure Source where
  number : Nat
  backing : Backing
  /-- Where it is, unless it is a buffer. -/
  address : Option Address := none

/-- An opened archive and the number and address of its source. Its own number tells it from other
    handles, even on the same archive. -/
structure Handle where
  number : Nat
  source : Nat
  address : Option Address := none
  archive : Archive

/-- Buffers, what is outside, kept handles and counters. -/
structure Resolver where
  /-- What the names of libraries start with. -/
  libraryDirectory : String := "lib/"
  outside : Surroundings := {}
  buffers : List (String × Source) := []
  cache : Cache Handle := {}
  /-- The bytes fetched from each source, by its number. -/
  fetched : Array Nat := #[]
  /-- The number of handles that were made. -/
  handles : Nat := 0

/-- A step that may open archives. What it opened and fetched before it failed stays opened and
    counted. -/
abbrev Resolving := EStateM Error Resolver

namespace Resolver

/-- The name that a buffer has as a root. -/
def memoryScheme : String := "mem:"

/-- What the name of a file as a root may start with. -/
def fileScheme : String := "file:"

/-- A new source for a backing, which may be at an address outside. -/
def addSource (r : Resolver) (backing : Backing) (address : Option Address) : Source × Resolver :=
  ({ number := r.fetched.size, backing, address }, { r with fetched := r.fetched.push 0 })

/-- Makes a buffer known as `mem:` and a name. If there was one of this name, it is replaced and
    the archives opened from it are dropped. -/
def register (r : Resolver) (name : String) (content : ByteArray) : String × Resolver :=
  let backing := Backing.memory name content
  let container := backing.identity
  let (source, r) := r.addSource backing none
  -- A handle on the buffer that was there is not to be answered for the new one.
  let known := (r.buffers.lookup container).isSome
  let buffers := (container, source) :: r.buffers.filter fun buffer => buffer.1 != container
  let cache := if known then r.cache.evictBacking container else r.cache
  (container, { r with buffers, cache })

/-- The number of bytes fetched from a source. -/
def fetchedFrom (r : Resolver) (source : Nat) : Nat := r.fetched.getD source 0

/-- Does something that reads from a source and counts what it fetched. -/
def charge {α : Type} (source : Nat) (m : Metered Error α) : Resolving α := fun r =>
  let r := { r with fetched := r.fetched.modify source (· + m.fetched) }
  match m.outcome with
  | .ok a => .ok a r
  | .error e => .error e r

/-- An outcome that does not depend on what is opened. -/
def liftExcept {α : Type} (outcome : Except Error α) : Resolving α := fun r =>
  match outcome with
  | .ok a => .ok a r
  | .error e => .error e r

/-- The part of a root that spells a path, percent-encoded. After the scheme, two slashes may
    stand in front of the slash that starts the path. -/
def encodedPath? (container : String) : Option String :=
  let chars := container.toList
  if fileScheme.toList.isPrefixOf chars then
    match chars.drop fileScheme.length with
    -- Between the second slash and the third there may be a host elsewhere; here it is empty.
    | '/' :: '/' :: '/' :: rest => some (String.ofList ('/' :: rest))
    | rest => some (String.ofList rest)
  else if Path.isAbsolute chars then some container
  else none

/-- The path of the file that a root names. -/
def filePath (container : String) : Except Error String :=
  match encodedPath? container with
  | none => .error (.unknownSource container)
  | some encoded => do
    let bytes ← Percent.decode encoded
    match Text.decode? bytes with
    | some path => return path
    | none => .error (.malformedLocator container .pathNotText)

/-- The file at a path as a source. -/
def fileBacking (path : String) (content : ByteArray) : Backing :=
  { identity := fileScheme ++ Percent.encode (Text.encode path), content }

/-- The address outside that a root names. -/
def addressOf (container : String) : Except Error Address :=
  if h : Locator.isRemote container then .ok (.remote container h)
  else .file <$> filePath container

/-- The source at an address, with the bytes that are there. -/
def backingAt : Address → (content : ByteArray) → Backing
  | .file path, content => fileBacking path content
  | .remote url _, content => { identity := url, content }

/-- The source that a root names. -/
def openSource (container : String) : Resolving Source := do
  if memoryScheme.toList.isPrefixOf container.toList then
    match (← get).buffers.lookup container with
    | some source => return source
    | none => throw (.unknownSource container)
  else
    let address ← liftExcept (addressOf container)
    let content ← liftExcept ((← get).outside.read address)
    -- Even where it was opened before, this is a source with a counter of its own.
    modifyGet fun r => r.addSource (backingAt address content) (some address)

/-- A new handle on an archive that is read from a source. -/
def addHandle (source : Nat) (address : Option Address) (archive : Archive) : Resolving Handle :=
  modifyGet fun r =>
    ({ number := r.handles, source, address, archive }, { r with handles := r.handles + 1 })

/-- The handle kept under a key; if there is none, one on the archive that is then opened from a
    source, which is kept. -/
def keep (key : CacheKey) (source : Nat) (address : Option Address)
    (opening : Metered Error Archive) : Resolving Handle := do
  let (handle, cache) ← (← get).cache.getOrInsert key do
    -- Where opening fails, no number is taken and nothing is kept.
    addHandle source address (← charge source opening)
  modify fun r => { r with cache }
  return handle

/-- An opened archive as it is read now. If its address cannot be read from any more, the bytes
    are those that were there when it was opened. -/
def present (r : Resolver) (h : Handle) : Archive :=
  match h.address.map r.outside.read with
  | some (.ok content) => { h.archive with window := h.archive.window.rereading content }
  | _ => h.archive

/-- The archive that is a whole source. -/
def openRoot (container : String) : Resolving Handle := do
  match (← get).cache.get? { identity := container, offset := 0 } with
  | some handle => return handle
  | none =>
    let source ← openSource container
    keep { identity := source.backing.identity, offset := 0 } source.number source.address
      (Archive.ofBacking source.backing)

/-- The archive stored as an entry of an opened archive. -/
def openNested (parent : Handle) (name : Bytes) : Resolving Handle := do
  let data ← charge parent.source (((← get).present parent).nestedSource name)
  keep { identity := data.identity, offset := data.offset } parent.source parent.address
    (Archive.ofWindow data (parent.archive.entryUrl name))

/-- The innermost archive of a locator. -/
def resolve (l : Locator) : Resolving Handle := do
  let root ← openRoot l.root
  l.archives.foldlM openNested root

end Resolver

end NestedZip
