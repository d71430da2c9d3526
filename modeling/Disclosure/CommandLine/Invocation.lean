import Disclosure.CommandLine.Grammar
import Disclosure.CodeTree.Indented
import Disclosure.Log.Filter
import Disclosure.Log.Layout
import Disclosure.Result.Table

/-!
# What the program can be asked to do

There are four commands: a job is compiled or checked, a protected table is decoded, and a hierarchy
file is drawn. Some options say how much is told while that happens and where; they can be given
before or behind the name of the command.
-/

namespace Disclosure.CommandLine

/-- How the files of a job are told. -/
inductive Listing where
  | grids
  | gridsAndBatch
  | json
  deriving DecidableEq, Repr

/-- What is asked for. -/
inductive Action where
  | compile (job : Path) (listing : Listing)
  | check (job : Path) (listing : Listing)
  | decode (table : Path) (index : List String) (response marker : String) (countsOnly : Bool)
  | hierarchy (file : Path) (indent total : String)
  deriving DecidableEq, Repr

/-- What is told while it happens: the level that was asked for, the layout, and the file that log
lines are added to. -/
structure LogSettings where
  level : Option LogLevel
  layout : LogLayout
  file : Option Path
  deriving DecidableEq, Repr

/-- A complete request. -/
structure Invocation where
  action : Action
  log : LogSettings
  deriving DecidableEq, Repr

/-! ## Options -/

/-- The levels that can be asked for by name. -/
def namedLevels : List LogLevel :=
  [.error, .warn, .info, .debug, .trace]

/-- The level with a name. -/
def namedLevel? (name : String) : Option LogLevel :=
  namedLevels.find? (·.name = name)

/-- The layout with a name. -/
def namedLayout? : String → Option LogLayout
  | "pretty" => some .full
  | "compact" => some .compact
  | "json" => some .json
  | _ => none

/-- When output may have colours. There are none as long as it does not go to a terminal. -/
def colourChoices : List String :=
  ["auto", "always", "never"]

/-- Texts that can be paths. -/
def acceptsPath (text : String) : Bool :=
  text != ""

/-- All texts. -/
def acceptsAll (_ : String) : Bool := true

/-- The options that can be given anywhere. -/
def commonOptions : List OptionSpec :=
  [⟨"help", some 'h', .help⟩, ⟨"verbose", some 'v', .counter⟩, ⟨"quiet", some 'q', .counter⟩,
    ⟨"color", none, .single colourChoices.contains⟩,
    ⟨"log-level", none, .single fun text => (namedLevel? text).isSome⟩,
    ⟨"log-format", none, .single fun text => (namedLayout? text).isSome⟩,
    ⟨"log-file", none, .single acceptsPath⟩]

/-- A command with one path as its operand. -/
def commandOn (name operand : String) (options : List OptionSpec) (required : List String)
    (exclusive : List (String × String)) : CommandSpec where
  name := name
  options := options ++ commonOptions
  operand := some (operand, acceptsPath)
  required := required
  exclusive := ("quiet", "verbose") :: exclusive

/-- What can be given before a command. -/
def programSpec : CommandSpec where
  name := "sdc"
  options := ⟨"version", some 'V', .version⟩ :: commonOptions
  operand := none
  required := []
  exclusive := [("quiet", "verbose")]

/-- A command on a job file. -/
def jobSpec (name : String) : CommandSpec :=
  commandOn name "JOB_FILE" [⟨"print-batch", none, .flag⟩, ⟨"json", none, .flag⟩] []
    [("json", "print-batch")]

/-- The command that decodes a protected table. -/
def decodeSpec : CommandSpec :=
  commandOn "decode" "CSV"
    [⟨"index", none, .several⟩, ⟨"response", none, .single acceptsAll⟩,
      ⟨"marker", none, .single acceptsAll⟩, ⟨"counts-only", none, .flag⟩]
    ["index", "response"] []

/-- The command that draws a hierarchy file. -/
def hierarchySpec : CommandSpec :=
  commandOn "hierarchy" "HRC_FILE"
    [⟨"indent", none, .single acceptsAll⟩, ⟨"total", none, .single acceptsAll⟩] [] []

/-- All commands. -/
def commandSpecs : List CommandSpec :=
  [jobSpec "compile", jobSpec "check", decodeSpec, hierarchySpec]

/-! ## Requests -/

/-- The levels by how much is asked for, `warn` being the third. -/
def levelByCount (verbose quiet : Nat) : LogLevel :=
  LogLevel.all.getD (min 5 (2 + verbose - quiet)) .trace

/-- The level that was asked for: by name, or by counting how often more or less was asked for. -/
def levelOf? (g : Given) : Option LogLevel :=
  match (g.value? "log-level").bind namedLevel? with
  | some level => some level
  | none =>
    if g.has "verbose" || g.has "quiet" then
      some (levelByCount (g.count "verbose") (g.count "quiet"))
    else none

/-- What is told while something happens. -/
def logSettings (g : Given) : LogSettings where
  level := levelOf? g
  layout := ((g.value? "log-format").bind namedLayout?).getD .full
  file := (g.value? "log-file").map Path.mk

/-- How the files of a job are told. -/
def listingOf (g : Given) : Listing :=
  if g.has "json" then .json else if g.has "print-batch" then .gridsAndBatch else .grids

/-- What is asked for by a command and its options. -/
def actionOf (c : Chosen) : Action :=
  let g := c.after
  match c.command with
  | "compile" => .compile ⟨c.operand⟩ (listingOf g)
  | "check" => .check ⟨c.operand⟩ (listingOf g)
  | "decode" =>
    .decode ⟨c.operand⟩ (g.values "index") ((g.value? "response").getD "")
      ((g.value? "marker").getD defaultMarker) (g.has "counts-only")
  | _ =>
    .hierarchy ⟨c.operand⟩ ((g.value? "indent").getD CodeTree.defaultIndent)
      ((g.value? "total").getD defaultTotal)

/-- Reads the arguments of the program. -/
def Invocation.ofArguments (args : List String) : Except Stop Invocation :=
  (choose programSpec commandSpecs .start args).map fun c => ⟨actionOf c, logSettings c.given⟩

end Disclosure.CommandLine
