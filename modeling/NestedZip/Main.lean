import NestedZip.CommandLine.Report
import NestedZip.Deflate.Stream

/-!
# The program

Reads the file that the first argument leads to, hands it to the run together with the arguments,
and prints the report. It does not connect to other machines.

## Main definitions

* `Program.rootPath?`: The path of the file that a run will read.
* `Program.contentOf`: The bytes of a file.
* `main`: The program.
-/

open NestedZip

namespace NestedZip.Program

/-- The path of the file that a run with these arguments reads, if it gets so far. -/
def rootPath? (arguments : List String) (base : String) : Option String := do
  let a ← (Arguments.parse arguments).toOption
  let text ← (a.locatorText base).toOption
  let locator ← (Locator.decode text).toOption
  (Resolver.filePath locator.root).toOption

/-- The bytes of a file, or why they cannot be had. -/
def contentOf (path : String) : IO (Except IoError ByteArray) := do
  try return .ok (← IO.FS.readBinFile path)
  catch
    | .noFileOrDirectory .. => return .error .noSuchFile
    | e => return .error (.other e.toString)

end NestedZip.Program

/-- Runs with the arguments that were given. -/
def main (arguments : List String) : IO UInt32 := do
  let base := (← IO.currentDir).toString
  let content ← match Program.rootPath? arguments base with
    | some path => Program.contentOf path
    | none => pure (.error .noSuchFile)
  let report := Report.ofRun arguments
    { directory := base, fileAt := fun _ => content, inflate := Deflate.inflate }
  let output ← IO.getStdout
  output.write ⟨report.output.toArray⟩
  output.flush
  IO.eprint report.complaint
  return UInt32.ofNat report.status
