import NestedZip.Directory.Record
import NestedZip.Window

/-!
# The index of an archive

Indexing an archive means finding its end record, from that the directory, and reading every
record of the directory. The data of the entries is not needed for it.

All positions count from the start of the window that holds the archive, never from the start of
the source. That is what lets an archive be indexed in place inside another one. Bytes put in
front of an archive shift it against the positions written in it; the directory is found by its
end, so the shift is known, and it is added to the place of every entry.

Every number in an archive may be wrong. A number is therefore checked against the window before
anything is read by it, and what is accepted in the end is a directory whose records fill it
exactly.

## Main definitions

* `Index`: The entries of an archive, in the order of its directory.
* `Index.findEndRecord`: The end record and its position.
* `Index.findZip64EndRecord`: The same for the wider record.
* `Index.parse`: The index of the archive in a window.
* `Index.find?`: The first entry of a name.
-/

namespace NestedZip

/-- The entries of an archive. Positions count from the start of the window that holds it. -/
structure Index where
  entries : List Entry
  /-- The number of bytes in front of the archive proper. -/
  baseOffset : Nat
  /-- The position of the directory. -/
  directoryOffset : Nat
deriving DecidableEq, Repr

namespace Index

/-- The position of the first entry of a name. -/
def position? (x : Index) (name : Bytes) : Option Nat :=
  x.entries.findIdx? fun e => e.name == name

/-- The first entry of a name. -/
def find? (x : Index) (name : Bytes) : Option Entry := x.entries.find? fun e => e.name == name

/-- The longest comment an end record can declare. -/
def maxCommentLength : Nat := 65535

/-- A fault of the archive in a window. -/
def fault (w : Window) (offset : Nat) (fault : ArchiveFault) : Error :=
  .malformedArchive w.identity offset fault

/-- The end record that starts the `count` bytes `bytes`, if its comment ends with them. -/
def endRecordAtFront? (count : Nat) (bytes : Bytes) : Option EndRecord := do
  let record ← EndRecord.ofBytes? bytes
  if record.commentLength.toNat + EndRecord.length = count then some record else none

/-- The last end record in `count` bytes at `position` whose comment ends with them, with its
    position, or else `found`. -/
def lastEndRecord (count position : Nat) (bytes : Bytes) (found : Option (EndRecord × Nat)) :
    Option (EndRecord × Nat) :=
  match bytes with
  | [] => found
  | b :: rest =>
    let here := (endRecordAtFront? count (b :: rest)).map fun record => (record, position)
    -- A record further behind takes precedence over all in front of it.
    lastEndRecord (count - 1) (position + 1) rest (here <|> found)

/-- The end record of the archive in a window, and its position. Most archives have no comment,
    so the last bytes are tried by themselves first. -/
def findEndRecord (w : Window) : Metered Error (EndRecord × Nat) := do
  let size := w.size
  if size < EndRecord.length then
    .fail (fault w 0 (.tooSmall size))
  else
    let offset := size - EndRecord.length
    let last ← w.readExactAt offset EndRecord.length
    match endRecordAtFront? EndRecord.length last with
    | some record => return (record, offset)
    | none =>
      let count := min (maxCommentLength + EndRecord.length) size
      let start := size - count
      let tail ← w.readExactAt start count
      match lastEndRecord count start tail none with
      | some found => return found
      | none => .fail (fault w start .noEndRecord)

/-- The first of some positions at which a ZIP64 end record lies in front of `stop`. -/
def firstZip64EndRecord (w : Window) (stop : Nat) :
    (positions : List Nat) → Metered Error (Option (Zip64EndRecord × Nat))
  | [] => return none
  | position :: positions => do
    if stop < position + Zip64EndRecord.length then firstZip64EndRecord w stop positions
    else
      let bytes ← w.readExactAt position Zip64EndRecord.length
      match Zip64EndRecord.ofBytes? bytes with
      | some record => return some (record, position)
      | none => firstZip64EndRecord w stop positions

/-- The ZIP64 end record of the archive whose end record is at `endOffset`, and its position. The
    locator tells that position, but not rightly if bytes were put in front of the archive, so the
    place directly in front of the locator is tried as well. -/
def findZip64EndRecord (w : Window) (endOffset : Nat) :
    Metered Error (Zip64EndRecord × Nat) := do
  if endOffset < Zip64Locator.length then
    .fail (fault w endOffset .noZip64Locator)
  else
    let locatorOffset := endOffset - Zip64Locator.length
    let bytes ← w.readExactAt locatorOffset Zip64Locator.length
    match Zip64Locator.ofBytes? bytes with
    | none => .fail (fault w locatorOffset .badZip64Locator)
    | some locator =>
      let declared := locator.endRecordOffset.toNat
      -- A locator this near to the start has no room for the record in front of it.
      let adjacent :=
        if Zip64EndRecord.length ≤ locatorOffset then [locatorOffset - Zip64EndRecord.length]
        else []
      match ← firstZip64EndRecord w locatorOffset (declared :: adjacent) with
      | some found => return found
      | none => .fail (fault w declared .noZip64EndRecord)

/-- What the records behind a directory say about it. -/
structure Bounds where
  totalEntries : Nat
  size : Nat
  /-- Where the directory starts as the archive has it. -/
  declaredOffset : Nat
  /-- Where the directory ends in the window. -/
  stop : Nat
deriving DecidableEq, Repr

/-- The bounds of the directory of the archive in a window, and the position of the end record. -/
def findBounds (w : Window) : Metered Error (Bounds × Nat) := do
  let (record, endOffset) ← findEndRecord w
  if record.isSaturated then
    let (wide, stop) ← findZip64EndRecord w endOffset
    let bounds : Bounds := {
      totalEntries := wide.totalEntries.toNat
      size := wide.directorySize.toNat
      declaredOffset := wide.directoryOffset.toNat
      stop }
    return (bounds, endOffset)
  else
    let bounds : Bounds := {
      totalEntries := record.totalEntries.toNat
      size := record.directorySize.toNat
      declaredOffset := record.directoryOffset.toNat
      stop := endOffset }
    return (bounds, endOffset)

/-- Reads `count` records from the directory bytes left at `position` of the directory, which
    starts at `start`, and adds `base` to the place of every entry. `done` holds the entries so
    far, last first. Answers the entries and the position behind the last record. -/
def readEntries (w : Window) (start base : Nat) :
    (count index position : Nat) → Bytes → (done : List Entry) →
    Except Error (List Entry × Nat)
  | 0, _, position, _, done => .ok (done.reverse, position)
  | count + 1, index, position, bytes, done =>
    match Entry.read bytes with
    | .error e => .error (fault w (start + position) (.badRecord index e))
    | .ok (entry, span, rest) =>
      let headerOffset := entry.headerOffset + base
      if wordLimit ≤ headerOffset then
        .error (fault w (start + position) (.headerOffsetOverflow entry.displayName))
      else
        readEntries w start base count (index + 1) (position + span) rest
          ({ entry with headerOffset } :: done)

/-- The index of the archive in a window. -/
def parse (w : Window) : Metered Error Index := do
  let (bounds, endOffset) ← findBounds w
  if bounds.stop < bounds.size then
    .fail (fault w endOffset (.directoryTooLarge bounds.size bounds.stop))
  else
    let start := bounds.stop - bounds.size
    if start < bounds.declaredOffset then
      .fail (fault w endOffset (.offsetPastDirectory bounds.declaredOffset start))
    else
      -- As far as the directory lies behind its declared place, bytes were put in front.
      let base := start - bounds.declaredOffset
      -- A product beyond a word counts as the last word, which is too much as well.
      if bounds.size < min (bounds.totalEntries * RecordHeader.length) (wordLimit - 1) then
        .fail (fault w start (.tooManyEntries bounds.totalEntries bounds.size))
      else
        let bytes ← w.readExactAt start bounds.size
        let (entries, span) ←
          .ofExcept (readEntries w start base bounds.totalEntries 0 0 bytes [])
        -- The records are to fill the directory, with nothing left behind the last one.
        if span ≠ bounds.size then
          .fail (fault w start (.directorySpan bounds.totalEntries span bounds.size))
        else
          return { entries, baseOffset := base, directoryOffset := start }

end Index

end NestedZip
