import NestedZip.Text.Quoted

/-!
# What can go wrong

Each failure is a cause, and the words for it stand in one place. A failure names the archive or
source it arose in, so that a message can be acted on without opening the archive again.

`IoError` holds the failures of the sources themselves: bytes that end early, compressed data
that cannot be read, files that are not there. Everything else is an `Error`, which also wraps
an `IoError` when a source fails in the middle of a larger task.

An `Overflow` is no failure that anybody handles: it ends the program where it stands. It travels
as an `Error` does, because nothing is done behind it either.

## Main definitions

* `IoError`, `IoError.message`: Failures of a source.
* `Overflow`, `Overflow.message`: Numbers that do not fit where they are to go.
* `RecordFault`, `ArchiveFault`, `LocatorFault`, `ManifestFault`: What is wrong with a directory
  record, an archive, a locator, a manifest.
* `Error`, `Error.message`: All failures.
* `Error.isNotFound`: Whether something was merely absent.
-/

namespace NestedZip

/-- Failures of a source of bytes. -/
inductive IoError where
  /-- A read that had to be filled met the end of the source at `offset`. -/
  | endOfSource (identity : String) (offset : Nat)
  /-- A stream met the end of the source at `offset`, short of its own end at `stop`. -/
  | endBeforeStop (identity : String) (offset stop : Nat)
  /-- Compressed data that no compressor writes. -/
  | corruptDeflate
  /-- Compressed data that ends before its final block does. -/
  | incompleteDeflate
  | noSuchFile
  | notADirectory
  | isADirectory
  /-- A path, or a name in it, with more bytes than the system takes. -/
  | nameTooLong
  /-- A path that holds a zero byte. -/
  | nulInPath
  /-- An empty path, which cannot be made absolute. -/
  | emptyPath
  /-- Whatever else keeps a file from being read, in the words of the system. -/
  | other (message : String)
deriving DecidableEq, Repr

/-- The words for a failure of a source. -/
def IoError.message : IoError → String
  | endOfSource identity offset => s!"{identity} ended at offset {offset}"
  | endBeforeStop identity offset stop =>
    s!"{identity} ended at offset {offset} before range end {stop}"
  | corruptDeflate => "corrupt deflate stream"
  | incompleteDeflate => "incomplete deflate stream"
  | noSuchFile => "No such file or directory (os error 2)"
  | notADirectory => "Not a directory (os error 20)"
  | isADirectory => "Is a directory (os error 21)"
  | nameTooLong => "File name too long (os error 36)"
  | nulInPath => "file name contained an unexpected NUL byte"
  | emptyPath => "cannot make an empty path absolute"
  | other message => message

/-- What is wrong with a record of a central directory. -/
inductive RecordFault where
  /-- The directory ends inside a field. -/
  | truncated
  | badSignature
  /-- The directory ends inside the extra field or the comment. -/
  | overrun
deriving DecidableEq, Repr

/-- The words for a faulty record. -/
def RecordFault.message : RecordFault → String
  | truncated => "failed to fill whole buffer"
  | badSignature => "invalid central directory file header signature"
  | overrun => "record extends past the central directory"

/-- What is wrong with an archive. -/
inductive ArchiveFault where
  /-- Fewer bytes than an end record takes. -/
  | tooSmall (size : Nat)
  | noEndRecord
  | noZip64Locator
  | badZip64Locator
  | noZip64EndRecord
  /-- A directory that would start before the archive. -/
  | directoryTooLarge (directorySize directoryEnd : Nat)
  /-- A declared directory start behind the place where the directory is. -/
  | offsetPastDirectory (declared actual : Nat)
  /-- More records than a directory of this size can hold. -/
  | tooManyEntries (count directorySize : Nat)
  | badRecord (index : Nat) (fault : RecordFault)
  /-- A local header offset that leaves 64 bits once the prefix is added. -/
  | headerOffsetOverflow (entry : String)
  /-- Records that end before or after the directory does. -/
  | directorySpan (count span directorySize : Nat)
  | badLocalHeader (entry : String)
deriving DecidableEq, Repr

/-- The words for a faulty archive. -/
def ArchiveFault.message : ArchiveFault → String
  | tooSmall size => s!"{size} bytes is too small to hold an end of central directory record"
  | noEndRecord => "end of central directory signature not found"
  | noZip64Locator => "missing ZIP64 locator"
  | badZip64Locator => "invalid ZIP64 locator"
  | noZip64EndRecord => "ZIP64 end of central directory record not found"
  | directoryTooLarge directorySize directoryEnd =>
    s!"central directory size {directorySize} exceeds its end offset {directoryEnd}"
  | offsetPastDirectory declared actual =>
    s!"central directory offset {declared} lies past the directory itself at {actual}"
  | tooManyEntries count directorySize =>
    s!"{count} entries cannot fit in a central directory of {directorySize} bytes"
  | badRecord index fault => s!"central directory record {index}: {fault.message}"
  | headerOffsetOverflow entry => s!"local header offset of {entry} overflows past the prefix"
  | directorySpan count span directorySize =>
    s!"{count} records span {span} bytes but the central directory declares {directorySize}"
  | badLocalHeader entry => s!"invalid local file header for {entry}"

/-- What is wrong with a locator. -/
inductive LocatorFault where
  | noSeparator
  | emptyRoot
  | emptyNestedName
  /-- A percent sign with fewer than two bytes behind it; `rest` starts with it. -/
  | truncatedEscape (rest : String)
  /-- A percent sign without two hexadecimal digits behind it. -/
  | invalidEscape (escape : String)
  /-- A file path that is not text. -/
  | pathNotText
deriving DecidableEq, Repr

/-- The words for a faulty locator. -/
def LocatorFault.message : LocatorFault → String
  | noSeparator => "no !/ found"
  | emptyRoot => "empty root container"
  | emptyNestedName => "empty nested archive name"
  | truncatedEscape rest => s!"truncated escape sequence {Text.quoted rest}"
  | invalidEscape escape => s!"invalid escape sequence {Text.quoted escape}"
  | pathNotText => "file path is not valid UTF-8"

/-- What is wrong with a line of a manifest. -/
inductive ManifestFault where
  /-- A continuation line with nothing to continue. -/
  | orphanContinuation
  /-- A line without a colon. -/
  | noColon (line : String)
  | emptyName
  /-- A section, other than the first, without a `Name` attribute. -/
  | unnamedSection
deriving DecidableEq, Repr

/-- The words for a faulty manifest. -/
def ManifestFault.message : ManifestFault → String
  | orphanContinuation => "continuation line without a preceding attribute"
  | noColon line => s!"expected `Key: Value`, found {Text.quoted line}"
  | emptyName => "empty attribute name"
  | unnamedSection => "entry section without a Name attribute"

/-- A number that does not fit where it is to go, which ends the program. -/
inductive Overflow where
  /-- The sum of the sizes in a listing. -/
  | sizeSum
  /-- The sum of the compressed sizes in a listing. -/
  | compressedSum
  /-- The hundredfold of a size of which a percentage is taken. -/
  | hundredfold
  /-- The number of bytes for which a buffer is made. -/
  | capacity
deriving DecidableEq, Repr

/-- The words with which the program ends. -/
def Overflow.message : Overflow → String
  | sizeSum | compressedSum => "attempt to add with overflow"
  | hundredfold => "attempt to multiply with overflow"
  | capacity => "capacity overflow"

/-- Failures of addressing, indexing and reading nested archives. -/
inductive Error where
  /-- A range of `length` bytes at `offset` that leaves a range of `available` bytes. -/
  | outOfBounds (name : String) (offset length available : Nat)
  | malformedArchive (archive : String) (offset : Nat) (fault : ArchiveFault)
  | unsupportedCompression (archive entry : String) (method : UInt16)
  /-- A nested archive that would have to be inflated to be searched. -/
  | compressedNestedArchive (archive entry : String)
  /-- A positional read of compressed data. -/
  | notRandomAccess (name : String) (offset : Nat)
  | malformedLocator (locator : String) (fault : LocatorFault)
  | entryNotFound (archive entry : String)
  /-- A directory where a file is asked for. -/
  | notAFile (archive entry : String)
  | malformedManifest (archive : String) (line : Nat) (fault : ManifestFault)
  /-- A root that names no source. -/
  | unknownSource (container : String)
  /-- A source on another machine that cannot be read from, for a reason in the words of the one
      who tried. -/
  | remote (url reason : String)
  | io (cause : IoError)
  | overflow (o : Overflow)
deriving DecidableEq, Repr

namespace Error

/-- The words for a failure. -/
def message : Error → String
  | outOfBounds name offset length available =>
    s!"range {offset}+{length} exceeds the {available} bytes available in {name}"
  | malformedArchive archive offset fault =>
    s!"malformed archive {archive} at offset {offset}: {fault.message}"
  | unsupportedCompression archive entry method =>
    s!"entry {entry} in {archive} uses unsupported compression method {method.toNat}"
  | compressedNestedArchive archive entry =>
    s!"nested archive {entry} in {archive} is compressed; nested archives must be stored"
  | notRandomAccess name offset =>
    s!"range at offset {offset} of {name} is compressed and only supports sequential reads"
  | malformedLocator locator fault =>
    s!"malformed locator {Text.quoted locator}: {fault.message}"
  | entryNotFound archive entry => s!"entry {entry} not found in {archive}"
  | notAFile archive entry => s!"entry {entry} in {archive} is a directory"
  | malformedManifest archive line fault =>
    s!"malformed manifest in {archive} at line {line}: {fault.message}"
  | unknownSource container => s!"no backing source for container {Text.quoted container}"
  | remote url reason => s!"remote source {url}: {reason}"
  | io cause => s!"I/O error: {cause.message}"
  | overflow o => o.message

/-- The failure of a source behind a failure, if there is one. -/
def cause? : Error → Option IoError
  | io cause => some cause
  | _ => none

/-- Whether what was asked for is merely absent. -/
def isNotFound : Error → Bool
  | entryNotFound .. | notAFile .. => true
  | _ => false

end Error

end NestedZip
