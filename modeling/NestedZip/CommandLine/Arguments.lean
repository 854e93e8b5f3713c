import NestedZip.Files.Path
import NestedZip.Locator

/-!
# Command-line arguments

The program takes a locator, or a path, and patterns; what starts with a hyphen is a switch or a
setting. Switches of one letter may share a hyphen. A setting takes the next argument, or what
follows an equals sign, as its value. Everything after `--` is a locator or pattern, and so is a
single hyphen.

Faults are reported in the order in which they are met. A value that was given as the next
argument is looked at only when the argument after it has been recognised, so a fault in it comes
after the fault of an argument that is not known. That a switch contradicts another one, and that
the locator is missing, is noticed at the end.

## Main definitions

* `Arguments`: What the arguments say.
* `UsageError`: What can be wrong with them, or another answer they ask for.
* `Arguments.parse`: Reads them.
* `Arguments.locatorText`: The locator meant by the first argument.
-/

namespace NestedZip

/-- What is wrong with arguments, or what they ask for instead of a run. -/
inductive UsageError where
  | help
  | version
  | unknownArgument
  /-- A setting without a value. -/
  | missingValue
  /-- A value that is not what the setting takes. -/
  | badValue
  /-- A switch with a value. -/
  | unwantedValue
  /-- A switch or setting given twice, or two switches that contradict each other. -/
  | conflict
  | missingLocator
deriving DecidableEq, Repr

/-- What is either said or not. -/
inductive Switch where
  | list
  | verbose
  | manifest
  | classpath
  | quiet
  | debug
deriving DecidableEq, Repr

/-- What takes a value. -/
inductive Setting where
  | libraryDirectory
  | timeout
  | retries
deriving DecidableEq, Repr

/-- What the arguments say. -/
structure Arguments where
  locator : String
  patterns : List String := []
  switches : List Switch := []
  libraryDirectory : String := "lib/"
  timeout : Nat := 30
  retries : Nat := 10
deriving DecidableEq, Repr

namespace Arguments

/-- What a name behind hyphens means. -/
inductive Meaning where
  | switch (s : Switch)
  | setting (s : Setting)
  | help
  | version
deriving DecidableEq, Repr

/-- The letters that may stand behind one hyphen. -/
def letterMeaning? : Char → Option Meaning
  | 'l' => some (.switch .list)
  | 'v' => some (.switch .verbose)
  | 'm' => some (.switch .manifest)
  | 'c' => some (.switch .classpath)
  | 'q' => some (.switch .quiet)
  | 'h' => some .help
  | 'V' => some .version
  | _ => none

/-- The names that may stand behind two hyphens. -/
def wordMeaning? : String → Option Meaning
  | "debug" => some (.switch .debug)
  | "lib-prefix" => some (.setting .libraryDirectory)
  | "timeout" => some (.setting .timeout)
  | "retries" => some (.setting .retries)
  | "help" => some .help
  | "version" => some .version
  | _ => none

/-- The number that some decimal digits write. -/
def digits? (text : List Char) : Option Nat :=
  if text ≠ [] ∧ text.all Char.isDigit then
    some (text.foldl (fun n c => n * 10 + (c.toNat - '0'.toNat)) 0)
  else none

/-- A number below a bound, with or without a plus sign. -/
def natural? (bound : Nat) (text : List Char) : Option Nat :=
  let digits := match text with
    | '+' :: digits => digits
    | digits => digits
  (digits? digits).filter (· < bound)

/-- A number that a setting with room for signs takes: below a bound, with or without a plus sign,
    or zero with a minus sign. -/
def unsigned? (bound : Nat) : List Char → Option Nat
  | '-' :: digits => (digits? digits).filter (· = 0)
  | text => natural? bound text

/-- What has been read so far. -/
structure Progress where
  /-- The locator and the patterns, last first. -/
  positionals : List String := []
  switches : List Switch := []
  libraryDirectory : Option String := none
  timeout : Option Nat := none
  retries : Option Nat := none
  /-- A setting that was named, and its value if that has been read too. -/
  pending : Option (Setting × Option String) := none
  /-- Whether only locators and patterns follow. -/
  trailing : Bool := false

namespace Progress

/-- Gives a setting its value. -/
def assign (p : Progress) (s : Setting) (value : String) : Except UsageError Progress :=
  match s with
  | .libraryDirectory =>
    if p.libraryDirectory.isSome then .error .conflict
    else .ok { p with libraryDirectory := some value }
  | .timeout =>
    if p.timeout.isSome then .error .conflict
    else match natural? UInt64.size value.toList with
      | some n => .ok { p with timeout := some n }
      | none => .error .badValue
  | .retries =>
    if p.retries.isSome then .error .conflict
    else match unsigned? UInt32.size value.toList with
      | some n => .ok { p with retries := some n }
      | none => .error .badValue

/-- Settles the setting that was named last. -/
def settle (p : Progress) : Except UsageError Progress :=
  match p.pending with
  | none => .ok p
  | some (_, none) => .error .missingValue
  | some (s, some value) => { p with pending := none }.assign s value

/-- Turns a switch on, or answers what is asked for. -/
def apply (p : Progress) (m : Meaning) : Except UsageError Progress := do
  let p ← p.settle
  match m with
  | .help => throw .help
  | .version => throw .version
  | .switch s =>
    if s ∈ p.switches then throw .conflict
    else return { p with switches := s :: p.switches }
  | .setting s => return { p with pending := some (s, none) }

/-- Reads the letters behind one hyphen. -/
def readLetters (p : Progress) : List Char → Except UsageError Progress
  | [] => .ok p
  | c :: rest =>
    match letterMeaning? c with
    | none => .error .unknownArgument
    | some m => do
      let p ← p.apply m
      p.readLetters rest

/-- Reads what stands behind two hyphens. -/
def readWord (p : Progress) (text : List Char) : Except UsageError Progress :=
  let name := String.ofList (text.takeWhile (· ≠ '='))
  match wordMeaning? name, text.dropWhile (· ≠ '=') with
  | none, _ => .error .unknownArgument
  | some m, [] => p.apply m
  -- A value behind an equals sign is looked at here, not when the next argument is.
  | some (.setting s), _ :: value => do
    let p ← p.settle
    p.assign s (String.ofList value)
  | some _, _ :: _ => .error .unwantedValue

/-- Reads a locator or pattern. -/
def readPositional (p : Progress) (text : String) : Except UsageError Progress := do
  let p ← p.settle
  return { p with positionals := text :: p.positionals }

/-- Reads an argument. -/
def readArgument (p : Progress) (text : String) : Except UsageError Progress :=
  if p.trailing then p.readPositional text
  else match text.toList with
    | ['-', '-'] => .ok { p with trailing := true }
    | '-' :: '-' :: word => p.readWord word
    | '-' :: c :: letters => p.readLetters (c :: letters)
    | _ =>
      match p.pending with
      -- What looks like a switch has been read above, so it is never taken for a value.
      | some (s, none) => .ok { p with pending := some (s, some text) }
      | _ => p.readPositional text

/-- What the arguments say, when all have been read. -/
def finish (p : Progress) : Except UsageError Arguments := do
  let p ← p.settle
  -- These two are the only ones that contradict each other.
  if .quiet ∈ p.switches ∧ .debug ∈ p.switches then throw .conflict
  match p.positionals.reverse with
  | [] => throw .missingLocator
  | locator :: patterns =>
    let given : Arguments := { locator, patterns, switches := p.switches }
    return { given with
      libraryDirectory := p.libraryDirectory.getD given.libraryDirectory
      timeout := p.timeout.getD given.timeout
      retries := p.retries.getD given.retries }

end Progress

/-- Reads arguments. -/
def parse (arguments : List String) : Except UsageError Arguments := do
  let progress ← arguments.foldlM Progress.readArgument {}
  progress.finish

/-- Whether a switch was given. -/
def has (a : Arguments) (s : Switch) : Bool := s ∈ a.switches

/-- Whether the locator names a source on another machine. -/
def isRemote (a : Arguments) : Bool := Locator.isRemote a.locator

/-- How much is to be logged. -/
def logLevel (a : Arguments) : String :=
  if a.has .debug then "debug" else if a.has .quiet then "warn" else "info"

/-- Whether a text has a separator in it. -/
def hasSeparator (text : String) : Bool :=
  1 < (Locator.segments text.toList).length

/-- The locator meant: the argument itself if it is one, or the root of the archive that it names
    as a source or as the path of a file. Paths start from the directory `base`. -/
def locatorText (a : Arguments) (base : String) : Except IoError String :=
  if hasSeparator a.locator then .ok a.locator
  else if a.isRemote || "file:".toList.isPrefixOf a.locator.toList then
    .ok (a.locator ++ Locator.separator)
  else do
    let path ← Path.absolute base a.locator
    return "file:" ++ Percent.encode (Text.encode path) ++ Locator.separator

end Arguments

end NestedZip
