import NestedZip.CommandLine.Glob
import NestedZip.Directory.Entry
import NestedZip.Error

/-!
# Listings

A listing shows the entries of an archive that match one of some patterns, or all if there are no
patterns, in the order of the directory. The plain form has a line for each name. The verbose form
is a table with a row for each entry and a summary of those that are not directories.

Sizes are numbers of 64 bits, and so is the arithmetic on them. What becomes of a total that does
not fit, or of the hundredfold of a size of which a percentage is taken, is a matter of how the
program was built. With checked arithmetic it ends the program, and so the listing at that line.
With wrapping arithmetic the listing goes on, with a number that is too small by a multiple of the
first number that does not fit.

## Main definitions

* `Arithmetic`, `Arithmetic.word`: Numbers of 64 bits, checked or wrapping.
* `Listing.select`: The entries that are shown.
* `Listing.percentSaved`: How much smaller an entry is stored.
* `Listing.plain`, `Listing.verbose`: The two forms.
-/

namespace NestedZip

/-- How a build of the program adds and multiplies. -/
inductive Arithmetic where
  /-- A number that does not fit ends the program. -/
  | checked
  /-- Of a number that does not fit the last 64 bits are kept. -/
  | wrapping
deriving DecidableEq, Repr

/-- The sum or product `n` as a number of 64 bits. It may be one that ends the program. -/
def Arithmetic.word (a : Arithmetic) (overflow : Overflow) (n : Nat) : Except Overflow Nat :=
  if n < UInt64.size then .ok n
  else match a with
    | .checked => .error overflow
    | .wrapping => .ok (n % UInt64.size)

/-- Some lines, and the number that did not fit if one ended the program behind them. -/
structure Listing where
  lines : List String
  overflow : Option Overflow := none
deriving DecidableEq, Repr

namespace Listing

/-- The entries whose names match one of the patterns, or all if there are none. -/
def select (patterns : List String) (entries : List Entry) : List Entry :=
  entries.filter fun e =>
    patterns.isEmpty || patterns.any fun pattern => Glob.isMatch pattern e.displayName

/-- The names of the selected entries. -/
def plain (patterns : List String) (entries : List Entry) : Listing :=
  { lines := (select patterns entries).map Entry.displayName }

/-- Text with spaces in front of it, up to a width. -/
def alignRight (width : Nat) (text : String) : String :=
  String.ofList (List.replicate (width - text.length) ' ') ++ text

/-- A number with zeros in front of it, up to a width. -/
def zeroPadded (width n : Nat) : String :=
  let digits := toString n
  String.ofList (List.replicate (width - digits.length) '0') ++ digits

/-- The part that is saved by storing `size` bytes as `compressed` bytes, in percent, rounded up.
    Data that did not get smaller saves nothing. -/
def percentSaved (a : Arithmetic) (compressed size : Nat) : Except Overflow Nat :=
  if 0 < size ∧ compressed ≤ size then do
    let hundredfold ← a.word .hundredfold (compressed * 100)
    return 100 - hundredfold / size
  else .ok 0

/-- The column for what is saved. Where nothing can be said it is one narrower. -/
def savedColumn (a : Arithmetic) (compressed size : Nat) : Except Overflow String := do
  let percent ← percentSaved a compressed size
  if 0 < size ∧ compressed ≤ size then return alignRight 4 (toString percent) ++ "%"
  else return alignRight 3 (toString percent) ++ "%"

/-- The totals of what is not a directory. -/
structure Totals where
  size : Nat := 0
  compressed : Nat := 0
  files : Nat := 0
deriving DecidableEq, Repr

/-- The totals with one more entry. -/
def Totals.add (a : Arithmetic) (t : Totals) (e : Entry) : Except Overflow Totals :=
  if e.isDirectory then .ok t
  else do
    let size ← a.word .sizeSum (t.size + e.uncompressedSize)
    let compressed ← a.word .compressedSum (t.compressed + e.compressedSize)
    return { size, compressed, files := t.files + 1 }

/-- The names of the columns. -/
def header : String :=
  let columns := [alignRight 10 "Length", alignRight 10 "Size", alignRight 5 "Cmpr",
    alignRight 10 "Date", alignRight 5 "Time", "Name"]
  "  ".intercalate columns

/-- The line between the parts of the table. -/
def rule : String := String.ofList (List.replicate 70 '-')

/-- The row of an entry. -/
def row (a : Arithmetic) (e : Entry) : Except Overflow String := do
  let saved ← savedColumn a e.compressedSize e.uncompressedSize
  let (year, month, day) := e.date
  -- The seconds are not shown.
  let (hour, minute, _) := e.time
  let date := "-".intercalate [zeroPadded 4 year, zeroPadded 2 month, zeroPadded 2 day]
  let time := ":".intercalate [zeroPadded 2 hour, zeroPadded 2 minute]
  return "  ".intercalate [alignRight 10 (toString e.uncompressedSize),
    alignRight 10 (toString e.compressedSize), saved, date, time, e.displayName]

/-- The row of the totals. -/
def summary (a : Arithmetic) (t : Totals) : Except Overflow String := do
  let saved ← savedColumn a t.compressed t.size
  return "  ".intercalate [alignRight 10 (toString t.size), alignRight 10 (toString t.compressed),
    -- Date and time stay empty, and so the columns keep their places.
    saved, alignRight 21 "", s!"{t.files} files"]

/-- The rows of some entries, behind the totals `t`, and the summary. `done` holds the lines so
    far, last first. -/
def rows (a : Arithmetic) (t : Totals) (done : List String) : List Entry → Listing
  | [] =>
    match summary a t with
    | .ok line => { lines := (line :: rule :: done).reverse }
    | .error overflow => { lines := (rule :: done).reverse, overflow }
  | e :: rest =>
    match row a e with
    | .error overflow => { lines := done.reverse, overflow }
    | .ok line =>
      -- The row is out before the totals take it in.
      match t.add a e with
      | .error overflow => { lines := (line :: done).reverse, overflow }
      | .ok t => rows a t (line :: done) rest

/-- The table of the selected entries. -/
def verbose (a : Arithmetic) (patterns : List String) (entries : List Entry) : Listing :=
  rows a {} [rule, header] (select patterns entries)

end Listing

end NestedZip
