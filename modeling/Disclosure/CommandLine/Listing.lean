import Disclosure.Frame.Display
import Disclosure.Grid.Drawing
import Disclosure.Job.Artifacts
import Disclosure.Json.Encode
import Disclosure.Result.Table

/-!
# What commands print

Jobs, problems and protected tables are listed in grids, or told as JSON objects whose names are in
alphabetical order.
-/

namespace Disclosure.CommandLine

/-- How wide grids may be. -/
def gridLimit : Nat := 120

/-- The text of a grid. -/
def gridText (columns : List (String × Alignment)) (rows : List (List String)) : String :=
  (Grid.mk columns rows).draw gridLimit

/-- Rows with their numbers in front, counted from 1. -/
def numberedRows (rows : List (List String)) : List (List String) :=
  (Text.numbered rows).map fun (number, row) => toString number :: row

/-- An object of a JSON answer, with one entry a line. -/
def jsonText (entries : List (String × Json)) : String :=
  (Json.object entries).pretty ++ "\n"

/-! ## Jobs -/

/-- The files of a job in a grid. -/
def artifactGrid (artifacts : List JobArtifact) : String :=
  gridText [("Kind", .left), ("Subject", .left), ("Path", .left)]
    (artifacts.map fun a => [a.kind.name, a.subject, a.path.text])

/-- The commands of a job in a grid. -/
def commandGrid (commands : List BatchCommand) : String :=
  gridText [("\x23", .right), ("Command", .left), ("Argument", .left)]
    (numberedRows (commands.map fun c => [c.keyword, c.argument?.getD "-"]))

/-- What is told about a compiled job. -/
def compiledText (j : Job) (commands : List BatchCommand) : String :=
  let places :=
    ["Job: " ++ j.name, "Directory: " ++ j.paths.directory.text, "Batch: " ++ j.paths.batch.text]
  Text.unlines places ++ artifactGrid j.artifacts ++ commandGrid commands

/-- A compiled job as JSON. -/
def compiledJson (j : Job) (commands : List BatchCommand) : String :=
  jsonText
    [("artifacts", toJson (j.artifacts.map fun a => Json.object
        [("kind", toJson a.kind.name), ("path", toJson a.path), ("subject", toJson a.subject)])),
      ("batch", toJson j.paths.batch),
      ("commands", toJson (commands.map fun c => Json.object
        [("argument", toJson c.argument?), ("keyword", toJson c.keyword)])),
      ("directory", toJson j.paths.directory),
      ("job", toJson j.name)]

/-! ## Problems -/

/-- What is told about the problems of a job. -/
def problemsText (job : String) (problems : List String) : String :=
  if problems.isEmpty then s!"Job {job}: no problems found.\n"
  else
    s!"Job {job}: {problems.length} problem(s)\n" ++
      gridText [("\x23", .right), ("Problem", .left)] (numberedRows (problems.map ([·])))

/-- The problems of a job as JSON. -/
def problemsJson (job : String) (problems : List String) : String :=
  jsonText [("job", toJson job), ("problems", toJson problems)]

/-! ## Protected tables -/

/-- How many cells have each status, and how many there are, in a grid. -/
def countsGrid (counts : List (CellStatus × Nat)) : String :=
  let total := counts.foldr (fun (_, count) rest => count + rest) 0
  gridText [("Status", .left), ("Code", .centre), ("Cells", .right)]
    ((counts.map fun (status, count) => [status.name, status.letter, toString count]) ++
      [["TOTAL", "-", toString total]])

/-- The rows of a frame in a grid. -/
def frameGrid (f : Frame) : String :=
  let columns := f.columns.map fun series => series.values.toList.map Value.display
  gridText (f.columns.map fun series => (series.name, .left))
    ((List.range f.height).map fun row => columns.map fun cells => cells.getD row "")

end Disclosure.CommandLine
