import Disclosure.Fault
import Disclosure.Text.Line

/-!
# The engine's logbook

The engine appends to its logbook, so one file can hold many runs. Each run ends with a known line,
and a line of dashes stands between two runs. Only the last run counts: what follows the last line
of dashes, up to the first end of a run in it.
-/

namespace Disclosure

namespace Logbook

/-- What a line between two runs contains. -/
def sectionMarker : String := "--------------------"

/-- What the last line of a run contains. -/
def endMarker : String := "End of TauArgus run"

/-- What has been read of the current run: its lines so far, and whether its end has come. -/
structure Reading where
  lines : List String
  ended : Bool
  deriving DecidableEq, Repr

/-- Reads one line more. -/
def Reading.next (r : Reading) (line : String) : Reading :=
  if Text.hasPart line sectionMarker then ⟨[], false⟩
  else if r.ended then r
  else ⟨r.lines ++ [line], Text.hasPart line endMarker⟩

/-- The lines of the last run in a logbook. -/
def lastRun (text : String) : List String :=
  ((Text.lines text).foldl Reading.next ⟨[], false⟩).lines

end Logbook

namespace RunReport

/-- A report without lines. -/
def ofExit (exitCode : Option Int) (logbookPath : Option Path) : RunReport :=
  ⟨exitCode, logbookPath, none⟩

/-- A report with the lines of the last run. A logbook that is missing is no fault. -/
def collect (fs : FileSystem) (exitCode : Option Int) (logbookPath : Option Path) :
    Except Fault RunReport :=
  let report := ofExit exitCode logbookPath
  match logbookPath with
  | none => .ok report
  | some path =>
    match fs.readText path with
    | .ok text => .ok { report with logbook := Logbook.lastRun text }
    | .error .notFound => .ok report
    | .error fault => .error (.file path fault)

/-- Passes a report of success on; any other is a fault. -/
def check (r : RunReport) : Except Fault RunReport :=
  if r.isSuccess then .ok r else .error (.engineFailed r)

end RunReport

end Disclosure
