import NestedZip.CommandLine.Arguments
import NestedZip.CommandLine.Listing
import NestedZip.Connection

/-!
# Runs of the program

A run reads arguments and files and ends in a report: what is printed, what is said besides, and
the exit status. It prints the manifest, the libraries, the content of an entry or a listing,
whichever of these is asked for first in this order; an archive has no content to print, so it is
listed. If the archive is on another machine, the run says how much was fetched, unless it is to
be quiet.

A run either prints all it has to say or fails before it prints anything, with two exceptions:
content is printed as it is read, and a listing up to the number that does not fit.

A number that does not fit ends the run where it stands. What is said then is a message in a frame
that tells the thread and the place in the program. Neither is known here, so the report holds the
message.

## Main definitions

* `Platform`: What a run depends on besides its arguments.
* `Report`: How a run ends.
* `Failure`, `Failure.message`: Why a run fails.
* `Arguments.answer`: What the arguments ask of a connection.
* `Report.ofRun`: A whole run.
-/

namespace NestedZip

/-- What a run depends on besides its arguments. -/
structure Platform where
  /-- The directory from which relative paths start. -/
  directory : String
  /-- The bytes of the file at a path. -/
  fileAt : String → Except IoError ByteArray := fun _ => .error .noSuchFile
  /-- The bytes of the source at a URL, or the reason why it cannot be read from, if an answer is
      waited for so many seconds and asked for so many times. -/
  remoteAt : (timeout retries : Nat) → String → Except String ByteArray :=
    fun _ _ _ => .error "no connection"
  inflate : Decompressor
  arithmetic : Arithmetic := .checked

/-- The exit status, what is printed, and what is said besides. -/
structure Report where
  status : Nat := 0
  output : Bytes := []
  complaint : String := ""
  /-- The number that did not fit, if one ended the run. -/
  overflow : Option Overflow := none
deriving DecidableEq, Repr

/-- Why a run fails. -/
inductive Failure where
  /-- No locator could be made from the argument. -/
  | noLocator (cause : IoError)
  | error (e : Error)
  /-- The content could not be read to its end. -/
  | content (cause : IoError)
  | noManifest (url : String)
deriving DecidableEq, Repr

namespace Failure

/-- The words for a failure. -/
def message : Failure → String
  | noLocator _ => "cannot resolve archive path"
  | error e => e.message
  | content cause => cause.message
  | noManifest url => s!"{url} has no manifest"

/-- The failure behind a failure, if there is one. -/
def cause? : Failure → Option IoError
  | noLocator cause => some cause
  | error e => e.cause?
  | content _ | noManifest _ => none

/-- What is said about a failure. -/
def complaint (f : Failure) : String :=
  let behind := match f.cause? with
    | none => ""
    | some cause => s!"\nCaused by:\n    {cause.message}\n"
  s!"Error: {f.message}\n" ++ behind

end Failure

/-- What is wrong with arguments, in words. -/
def UsageError.message : UsageError → String
  | .help => "LOCATOR [PATTERNS...] [-lvmcq] [--debug] [--lib-prefix PREFIX] [--timeout SECS] " ++
      "[--retries N]"
  | .version => "nestjar 0.1.0"
  | .unknownArgument => "an argument is not known"
  | .missingValue => "a value is missing"
  | .badValue => "a value cannot be used"
  | .unwantedValue => "a value is not wanted"
  | .conflict => "two arguments cannot be used together"
  | .missingLocator => "a locator is missing"

namespace Report

/-- Lines that were printed. -/
def ofLines (lines : List String) : Report :=
  { output := lines.flatMap fun line => Text.encode (line ++ "\n") }

/-- A run that a number ended which did not fit. -/
def ofOverflow (o : Overflow) : Report := { status := 101, complaint := o.message, overflow := o }

/-- A failure. -/
def ofFailure (f : Failure) : Report := { status := 1, complaint := f.complaint }

/-- An error. -/
def ofError : Error → Report
  | .overflow o => ofOverflow o
  | e => ofFailure (.error e)

/-- A listing, which may have been cut off. -/
def ofListing (l : Listing) : Report :=
  match l.overflow with
  | none => ofLines l.lines
  | some o => { ofOverflow o with output := (ofLines l.lines).output }

/-- Content that was read, perhaps not to its end. -/
def ofDelivery (d : Delivery) : Report :=
  match d.failure with
  | none => { output := d.bytes }
  | some cause => { ofFailure (.content cause) with output := d.bytes }

/-- What is said when arguments cannot be used, or ask for help. -/
def ofUsageError (e : UsageError) : Report :=
  if e = .help ∨ e = .version then ofLines [e.message]
  else { status := 2, complaint := s!"error: {e.message}\n" }

end Report

namespace Arguments

/-- What the arguments ask of a connection to the locator meant. -/
def answer (a : Arguments) (p : Platform) (l : Locator) : Connecting Report := do
  if a.has .manifest then
    let handle ← Connection.archive
    match ← Connection.manifest p.inflate with
    | none => return .ofFailure (.noManifest handle.archive.url)
    | some m => return .ofLines (m.main.map fun (name, value) => s!"{name}: {value}")
  else if a.has .classpath then
    return .ofLines (← Connection.libraries a.libraryDirectory)
  else if l.entry.isSome && !(a.has .list || a.has .verbose) then
    return .ofDelivery (← Connection.content p.inflate .passingOn)
  else
    let handle ← Connection.archive
    -- The directory is the one that was read when the archive was opened.
    let entries := handle.archive.entries
    return .ofListing (if a.has .verbose then .verbose p.arithmetic a.patterns entries
      else .plain a.patterns entries)

/-- A number of bytes in units of `unit`, with two decimals. The last one is rounded to the nearer
    one, or to the even one if both are as near. -/
def inUnits (unit bytes : Nat) : String :=
  let below := bytes * 100 / unit
  let left := bytes * 100 % unit
  let hundredths := if unit < 2 * left ∨ (unit = 2 * left ∧ below % 2 = 1) then below + 1 else below
  s!"{hundredths / 100}." ++ Listing.zeroPadded 2 (hundredths % 100)

/-- A number of bytes in words. -/
def sizeInWords (bytes : Nat) : String :=
  if 1024 * 1024 * 1024 ≤ bytes then inUnits (1024 * 1024 * 1024) bytes ++ " GB"
  else if 1024 * 1024 ≤ bytes then inUnits (1024 * 1024) bytes ++ " MB"
  else if 1024 ≤ bytes then inUnits 1024 bytes ++ " KB"
  else s!"{bytes} bytes"

/-- A report to which the bytes are added that were fetched from another machine. -/
def withCost (a : Arguments) (report : Report) : Connecting Report := do
  if report.status = 0 ∧ a.isRemote ∧ ¬ a.has .quiet then
    let handle ← Connection.archive
    let fetched := (← get).2.fetchedFrom handle.source
    return { report with complaint := s!"\nTotal bytes transferred: {sizeInWords fetched}\n" }
  else return report

/-- What there is outside of a run with these arguments. -/
def surroundings (a : Arguments) (p : Platform) : Surroundings :=
  { fileAt := p.fileAt, remoteAt := p.remoteAt a.timeout a.retries }

/-- A run with these arguments. -/
def run (a : Arguments) (p : Platform) : Report :=
  match a.locatorText p.directory with
  | .error e => .ofFailure (.noLocator e)
  | .ok text =>
    match Locator.decode text with
    | .error e => .ofError e
    | .ok locator =>
      let resolver : Resolver :=
        { outside := a.surroundings p, libraryDirectory := a.libraryDirectory }
      match (a.answer p locator >>= a.withCost) ({ locator }, resolver) with
      | .ok report _ => report
      | .error e _ => .ofError e

end Arguments

/-- A whole run. -/
def Report.ofRun (arguments : List String) (p : Platform) : Report :=
  match Arguments.parse arguments with
  | .error e => .ofUsageError e
  | .ok a => a.run p

end NestedZip
