import Disclosure.Path

/-!
# What happens during a run

A run tells what it does in events, each with a level, the part of the program it comes from, and a
line of text with fields. An event may happen inside scopes: setting up a job is one, and compiling
a job is another one around it.

Events are data here. Which of them are shown, and how, is decided when the run is over.
-/

namespace Disclosure

/-- How much an event matters, the most important level first; `off` is a limit that no event
passes. -/
inductive LogLevel where
  | off
  | error
  | warn
  | info
  | debug
  | trace
  deriving DecidableEq, Repr

namespace LogLevel

/-- The place of a level, `off` being the lowest. -/
def rank : LogLevel → Nat
  | off => 0
  | error => 1
  | warn => 2
  | info => 3
  | debug => 4
  | trace => 5

/-- The name of a level. -/
def name : LogLevel → String
  | off => "off"
  | error => "error"
  | warn => "warn"
  | info => "info"
  | debug => "debug"
  | trace => "trace"

/-- All levels in the order of their ranks. -/
def all : List LogLevel := [off, error, warn, info, debug, trace]

/-- Whether a limit lets events of a level through. -/
def admits (limit level : LogLevel) : Bool :=
  level.rank ≤ limit.rank

end LogLevel

/-- Something the program told about while it was running. -/
inductive Event where
  | readInput (path : Path) (rows columns : Nat)
  | readResult (path : Path) (rows : Nat)
  | keptData (path : Path)
  | keptMetadata (path : Path)
  | wroteData (path : Path) (rows : Nat)
  | wroteMetadata (path : Path) (columns : Nat)
  | wroteHierarchy (path : Path) (nodes : Nat)
  | wroteCodeList (path : Path) (codes : Nat)
  | wroteOverrides (path : Path) (changes : Nat)
  | wroteRecode (path : Path) (codes : Nat)
  | wroteBatch (path : Path) (commands : Nat)
  | foundProblem (problem job : String)
  | jobSetUp (tables commands : Nat) (batch : Path)
  | jobRunning (job : String) (batch : Path)
  | engineFinished (job status : String)
  | jobCompiled (commands artifacts : Nat) (batch : Path)
  | jobChecked (job : String) (problems : Nat)
  deriving DecidableEq, Repr

namespace Event

/-- How much the event matters. -/
def level : Event → LogLevel
  | foundProblem .. => .warn
  | jobSetUp .. | jobRunning .. | jobCompiled .. | jobChecked .. => .info
  | _ => .debug

/-- The part of the program that the event comes from. -/
def source : Event → String
  | readInput .. => "sdc_cli::config"
  | readResult .. => "sdc_result::table"
  | wroteData .. => "sdc_model::input"
  | wroteMetadata .. => "sdc_model::metadata"
  | wroteOverrides .. => "sdc_model::overrides"
  | wroteHierarchy .. => "sdc_hierarchy::hierarchy"
  | wroteCodeList .. => "sdc_hierarchy::codelist"
  | wroteRecode .. => "sdc_hierarchy::recode"
  | jobCompiled .. | jobChecked .. => "sdc::commands"
  | _ => "sdc_batch::job"

/-- The line of text. -/
def message : Event → String
  | readInput .. => "read input data"
  | readResult .. => "read table result"
  | keptData _ => "using existing input data"
  | keptMetadata _ => "using existing metadata"
  | wroteData .. => "wrote input data"
  | wroteMetadata .. => "wrote metadata"
  | wroteHierarchy .. => "wrote hierarchy"
  | wroteCodeList .. => "wrote codelist"
  | wroteOverrides .. => "wrote a priori file"
  | wroteRecode .. => "wrote tree recode"
  | wroteBatch .. => "wrote batch file"
  | foundProblem problem _ => problem
  | jobSetUp .. => "job set up"
  | jobRunning .. => "running job"
  | engineFinished .. => "engine finished"
  | jobCompiled .. => "compiled job"
  | jobChecked .. => "checked job"

/-- The fields, named and in order. -/
def fields : Event → List (String × String)
  | readInput path rows columns =>
    [("path", path.text), ("rows", toString rows), ("columns", toString columns)]
  | readResult path rows => [("path", path.text), ("rows", toString rows)]
  | keptData path | keptMetadata path => [("path", path.text)]
  | wroteData path rows => [("path", path.text), ("rows", toString rows)]
  | wroteMetadata path columns => [("path", path.text), ("columns", toString columns)]
  | wroteHierarchy path nodes => [("path", path.text), ("nodes", toString nodes)]
  | wroteCodeList path codes => [("path", path.text), ("codes", toString codes)]
  | wroteOverrides path changes => [("path", path.text), ("changes", toString changes)]
  | wroteRecode path codes => [("path", path.text), ("codes", toString codes)]
  | wroteBatch path commands => [("path", path.text), ("commands", toString commands)]
  | foundProblem _ job => [("job", job)]
  | jobSetUp tables commands batch =>
    [("tables", toString tables), ("commands", toString commands), ("batch", batch.text)]
  | jobRunning job batch => [("job", job), ("batch", batch.text)]
  | engineFinished job status => [("job", job), ("status", "\"" ++ status ++ "\"")]
  | jobCompiled commands artifacts batch =>
    [("commands", toString commands), ("artifacts", toString artifacts), ("batch", batch.text)]
  | jobChecked job problems => [("job", job), ("problems", toString problems)]

end Event

/-- A stretch of work on a job that events can happen in. -/
inductive LogScope where
  | setup (job : String)
  | compile (job : String)
  deriving DecidableEq, Repr

namespace LogScope

/-- The name of the stretch. -/
def name : LogScope → String
  | setup _ => "setup"
  | compile _ => "compile"

/-- The part of the program that does the work. -/
def source : LogScope → String
  | setup _ => "sdc_batch::job"
  | compile _ => "sdc::commands"

/-- The fields of the scope. -/
def fields : LogScope → List (String × String)
  | setup job | compile job => [("job", job)]

end LogScope

/-- An event with the scopes it happened in, from the outermost. -/
structure LogEntry where
  scopes : List LogScope
  event : Event
  deriving DecidableEq, Repr

/-- Events that happened in no scope. -/
def LogEntry.plain (event : Event) : LogEntry := ⟨[], event⟩

/-- The same entry inside one more scope. -/
def LogEntry.inside (scope : LogScope) (entry : LogEntry) : LogEntry :=
  { entry with scopes := scope :: entry.scopes }

end Disclosure
