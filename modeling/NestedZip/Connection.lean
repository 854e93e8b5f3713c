import NestedZip.ContentType
import NestedZip.Resolver

/-!
# Connections

A connection stands for what a locator names. It looks for it when it is first asked something
that cannot be said from the locator alone, and it looks only once: whatever came of it, success or
failure, is what it answers from then on, even if the resolver would find something else by now.

An entry is found by its exact name, or, if there is none, as the directory of that name, which is
written with a slash at the end.

## Main definitions

* `Connection`, `Connection.Target`: A locator, and what was found for it.
* `Connection.target`: Looks for it, unless that was done before.
* `Connection.archive`, `Connection.entry?`, `Connection.contentLength`, `Connection.manifest`,
  `Connection.content`: What is asked of a connection.
-/

namespace NestedZip

/-- What a locator was found to name: an archive, and an entry of it unless the archive itself is
    meant. -/
structure Connection.Target where
  handle : Handle
  entry : Option Entry

/-- A locator, and what came of looking for what it names, once that was done. -/
structure Connection where
  locator : Locator
  state : Option (Except Error Connection.Target) := none

/-- A step that asks a connection, with the resolver it may have to use. -/
abbrev Connecting := EStateM Error (Connection × Resolver)

namespace Connection

/-- The entry of a name, or the directory of that name. -/
def findEntry (a : Archive) (name : Bytes) : Except Error Entry :=
  let asDirectory :=
    -- A name that ends with a slash is that of a directory already.
    if name.getLast? = some Entry.slash then none else a.entry? (name ++ [Entry.slash])
  match a.entry? name <|> asDirectory with
  | some e => .ok e
  | none => .error (.entryNotFound a.url (Text.decodeLossy name))

/-- Looks for what a locator names. -/
def locate (l : Locator) : Resolving Target := do
  let handle ← Resolver.resolve l
  let entry ← match l.entry with
    | none => pure none
    | some name => some <$> Resolver.liftExcept (findEntry handle.archive name)
  return { handle, entry }

/-- Whether something was found. -/
def isConnected (c : Connection) : Bool :=
  match c.state with
  | some (.ok _) => true
  | _ => false

/-- What the locator names. It is looked for the first time and remembered. -/
def target : Connecting Target := fun (c, r) =>
  match c.state with
  | some (.ok target) => .ok target (c, r)
  | some (.error e) => .error e (c, r)
  | none =>
    match locate c.locator r with
    | .ok target r => .ok target ({ c with state := some (.ok target) }, r)
    -- A failure is remembered as well, so it is not looked for again.
    | .error e r => .error e ({ c with state := some (.error e) }, r)

/-- Does something that reads from a source and counts what it fetched. -/
def charge {α : Type} (source : Nat) (m : Metered Error α) : Connecting α := fun (c, r) =>
  match Resolver.charge source m r with
  | .ok a r => .ok a (c, r)
  | .error e r => .error e (c, r)

/-- The archive that holds the entry meant, or that is meant itself. -/
def archive : Connecting Handle := return (← target).handle

/-- The archive that holds the entry meant, or that is meant itself, as it is read now. -/
def presentArchive : Connecting Archive := do
  let handle ← archive
  return (← get).2.present handle

/-- The entry meant, unless an archive is meant. -/
def entry? : Connecting (Option Entry) := return (← target).entry

/-- The number of bytes that the directory, or the archive's own size, promises. -/
def contentLength : Connecting Nat := do
  let target ← target
  return match target.entry with
    | some e => e.uncompressedSize
    | none => target.handle.archive.size

/-- The manifest of the archive. -/
def manifest (inflate : Decompressor) : Connecting (Option Manifest) := do
  let a ← presentArchive
  charge (← archive).source (a.manifest inflate)

/-- The window that holds what is meant. A directory has no content. -/
def contentWindow : Connecting Window := do
  let target ← target
  let a ← presentArchive
  match target.entry with
  | none => return a.window
  | some e =>
    if e.isDirectory then throw (.notAFile a.url e.displayName)
    else charge target.handle.source (a.recordData e)

/-- What reading the content into a sink from front to back brings. -/
def content (inflate : Decompressor) (sink : Sink) : Connecting Delivery := do
  let window ← contentWindow
  let delivery := window.deliver inflate sink
  charge (← archive).source { outcome := .ok (), fetched := delivery.fetched }
  return delivery

/-- The locators, without their last separators, of the libraries in the archive. -/
def libraries (directory : String) : Connecting (List String) := do
  let a ← presentArchive
  let entries ← charge (← archive).source (a.libraries directory)
  return entries.map fun e => a.entryUrl e.name

end Connection

end NestedZip
