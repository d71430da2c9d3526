import Disclosure.Path

/-!
# What an engine run came to

The engine leaves an exit code and a logbook. A run has succeeded when the exit code is zero; a run
without an exit code has failed.
-/

namespace Disclosure

/-- The outcome of one engine run. The logbook holds the lines of this run, if they could be
read. -/
structure RunReport where
  exitCode : Option Int
  logbookPath : Option Path
  logbook : Option (List String)
  deriving DecidableEq, Repr

namespace RunReport

/-- Whether the engine ended well. -/
def isSuccess (r : RunReport) : Bool :=
  r.exitCode == some 0

/-- The outcome in one word. -/
def status (r : RunReport) : String :=
  if r.isSuccess then "success" else "failed"

/-- The report as text: the status, the place of the logbook, and its lines. -/
def render (r : RunReport) : String :=
  let code := match r.exitCode with
    | some code => toString code
    | none => "none"
  let place := match r.logbookPath with
    | some path => "\nlogbook_file: " ++ path.text
    | none => ""
  let lines := match r.logbook with
    | some lines => "\nlogbook:" ++ String.join (lines.map ("\n\t" ++ ·))
    | none => ""
  "status: " ++ r.status ++ " <" ++ code ++ ">" ++ place ++ lines

end RunReport

end Disclosure
