import Disclosure.CodeTree.Drawing
import Disclosure.CommandLine.Invocation
import Disclosure.CommandLine.Listing
import Disclosure.Job.Setup
import Disclosure.JobFile.Building

/-!
# Running the program

A run takes the arguments, a log filter from the environment and the file system, and gives an exit
code, two texts and the changed file system. The code is 0 if all went well, 1 if something went
wrong or problems were found, and 2 if the arguments make no sense.

Log lines and errors go to the second text. Log lines go to a file instead if there is one, which is
made before anything else is done.
-/

namespace Disclosure.CommandLine

/-- What an action comes to: what it prints, whether it succeeds, what happened, and the error that
ended it. -/
structure Result where
  printed : String
  success : Bool
  events : List LogEntry
  error : Option String
  files : FileSystem

namespace Result

/-- An action that has printed something and come to its end. -/
def done (printed : String) (events : List LogEntry) (files : FileSystem) : Result :=
  ⟨printed, true, events, none, files⟩

/-- An action that an error has ended, whatever it has printed before. -/
def failed (printed : String) (events : List LogEntry) (error : String) (files : FileSystem) :
    Result :=
  ⟨printed, false, events, some error, files⟩

end Result

/-- A fault on one line, inside what was being done. -/
def faultLine (contexts : List String) (fault : Fault) : String :=
  ": ".intercalate (contexts ++ fault.chain)

/-- Does something with the job that a file describes. -/
def withJob (path : Path) (fs : FileSystem) (act : List LogEntry → Job → Result) : Result :=
  let (events, loaded) := JobFile.load fs path
  let entries := events.map LogEntry.plain
  match loaded with
  | .error error => .failed "" entries error.message fs
  | .ok job => act entries job

/-- What is printed about a compiled job. -/
def compiledOutput (listing : Listing) (j : Job) (commands : List BatchCommand) : String :=
  match listing with
  | .grids => compiledText j commands
  | .gridsAndBatch => compiledText j commands ++ "\n" ++ renderBatch commands
  | .json => compiledJson j commands

/-- Sets a job up and tells about its files and commands. -/
def compile (path : Path) (listing : Listing) (fs : FileSystem) : Result :=
  withJob path fs fun loading job =>
    let scope := LogScope.compile job.name
    let s := (job.setUp fs).inside scope
    let events := loading ++ s.events
    match s.fault with
    | some fault => .failed "" events (faultLine ["set up job " ++ job.name] fault) s.files
    | none =>
      match s.value.commands with
      | .error fault => .failed "" events (faultLine [] fault) s.files
      | .ok commands =>
        let event :=
          Event.jobCompiled commands.length s.value.artifacts.length s.value.paths.batch
        .done (compiledOutput listing s.value commands)
          (events ++ [(LogEntry.plain event).inside scope]) s.files

/-- Tells about the problems of a job; success means that there are none. -/
def check (path : Path) (listing : Listing) (fs : FileSystem) : Result :=
  withJob path fs fun loading job =>
    let problems := job.problems
    let printed := if listing = .json then problemsJson job.name problems
      else problemsText job.name problems
    let event := Event.jobChecked job.name problems.length
    ⟨printed, problems.isEmpty, loading ++ [.plain event], none, fs⟩

/-- Tells about a protected table: how many cells have each status and, if asked for, all cells. -/
def decodedText (t : ProtectedTable) (marker : String) (countsOnly : Bool) :
    String × Option Fault :=
  let counts := "Response: " ++ t.response ++ "\n" ++ countsGrid t.statusCounts
  if countsOnly then (counts, none)
  else
    match t.toFrame marker with
    | .error fault => (counts, some fault)
    | .ok frame => (counts ++ frameGrid frame, none)

/-- Reads a protected table and tells about it. -/
def decode (path : Path) (index : List String) (response marker : String) (countsOnly : Bool)
    (fs : FileSystem) : Result :=
  let contexts := ["decode " ++ path.text]
  match ProtectedTable.readFrame fs path index with
  | .error fault => .failed "" [] (faultLine contexts fault) fs
  | .ok frame =>
    let events := [LogEntry.plain (.readResult path frame.height)]
    match ProtectedTable.ofFrame frame index response with
    | .error fault => .failed "" events (faultLine contexts fault) fs
    | .ok table =>
      match decodedText table marker countsOnly with
      | (printed, some fault) => .failed printed events (faultLine [] fault) fs
      | (printed, none) => .done printed events fs

/-- Draws a hierarchy file. -/
def drawHierarchy (path : Path) (indent total : String) (fs : FileSystem) : Result :=
  match TreeHierarchy.load fs path indent total with
  | .error fault => .failed "" [] (faultLine ["read " ++ path.text] fault) fs
  | .ok hierarchy =>
    let tree := hierarchy.tree
    .done ("Hierarchy: " ++ path.text ++ "\n" ++ tree.draw ++ s!"Code length: {tree.codeLength}\n")
      [] fs

/-- Does what is asked for. -/
def Action.perform : Action → FileSystem → Result
  | .compile path listing => CommandLine.compile path listing
  | .check path listing => CommandLine.check path listing
  | .decode path index response marker countsOnly =>
    CommandLine.decode path index response marker countsOnly
  | .hierarchy path indent total => drawHierarchy path indent total

/-- The file that an action is about. -/
def Action.operand : Action → Path
  | .compile path _ | .check path _ | .decode path .. | .hierarchy path .. => path

/-- The other files that an action reads, as far as the file it is about names any. -/
def Action.sources (a : Action) (fs : FileSystem) : List Path :=
  match a with
  | .compile path _ | .check path _ =>
    match JobFile.loadFile fs path with
    | .ok file => file.sources (JobFile.baseOf path)
    | .error _ => []
  | _ => []

/-- What a run of the program comes to. -/
structure Outcome where
  exit : Nat
  out : String
  err : String
  files : FileSystem

/-- The filter for log lines: the level that was asked for, or else the filter of the environment,
or else warnings. -/
def LogSettings.filter (s : LogSettings) (environment : Option String) : LogFilter :=
  match s.level with
  | some level => .upTo level
  | none => (environment.bind LogFilter.ofText?).getD (.upTo .warn)

/-- The log lines of a run. -/
def LogSettings.lines (s : LogSettings) (environment : Option String) (entries : List LogEntry) :
    String :=
  Text.unlines (((s.filter environment).apply entries).map fun entry => entry.line s.layout)

/-- An error as it is told. -/
def errorLine (error : String) : String :=
  "error: " ++ error ++ "\n"

/-- The outcome of an action. -/
def Result.outcome (r : Result) (err : String) (files : FileSystem) : Outcome :=
  ⟨if r.success then 0 else 1, r.printed, err ++ (r.error.map errorLine).getD "", files⟩

/-- Does what is asked for and tells about it. -/
def Invocation.run (i : Invocation) (environment : Option String) (fs : FileSystem) : Outcome :=
  match i.log.file with
  | none =>
    let r := i.action.perform fs
    r.outcome (i.log.lines environment r.events) r.files
  | some path =>
    match fs.appendText path "" with
    | .error fault => ⟨1, "", errorLine ("failed to initialize logging: " ++ fault.message), fs⟩
    | .ok opened =>
      let r := i.action.perform opened
      let written := r.files.appendText path (i.log.lines environment r.events)
      r.outcome "" (written.toOption.getD r.files)

/-- The name and version of the program. -/
def versionText : String := "sdc 0.1.0\n"

/-- How the program is used. -/
def usageText : String :=
  Text.unlines
    ["Usage: sdc [OPTIONS] COMMAND", "",
      "Commands:",
      "  compile JOB_FILE [--print-batch | --json]   write all files of a job",
      "  check JOB_FILE [--json]                     tell what is wrong with a job",
      "  decode CSV --index COLUMN... --response COLUMN [--marker TEXT] [--counts-only]",
      "                                              tell the status of protected cells",
      "  hierarchy HRC_FILE [--indent TEXT] [--total CODE]",
      "                                              draw a hierarchy file", "",
      "Options:",
      "  -v, --verbose        tell more; twice for everything but traces",
      "  -q, --quiet          tell errors only; twice for nothing",
      "  --log-level LEVEL    error, warn, info, debug or trace",
      "  --log-format FORMAT  pretty, compact or json",
      "  --log-file PATH      add log lines to a file",
      "  --color WHEN         auto, always or never",
      "  -h, --help           tell this",
      "  -V, --version        tell the version"]

/-- What is told when no command is run. -/
def Stop.outcome (stop : Stop) (fs : FileSystem) : Outcome :=
  match stop with
  | .help => ⟨0, usageText, "", fs⟩
  | .version => ⟨0, versionText, "", fs⟩
  | .misuse cause => ⟨2, "", errorLine cause.message ++ "\n" ++ usageText, fs⟩

/-- Runs the program. -/
def run (environment : Option String) (args : List String) (fs : FileSystem) : Outcome :=
  match Invocation.ofArguments args with
  | .error stop => stop.outcome fs
  | .ok invocation => invocation.run environment fs

end Disclosure.CommandLine
