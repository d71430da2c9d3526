import Disclosure.Input.Basic
import Disclosure.Job.Command
import Disclosure.Job.Paths

/-!
# Jobs

A job ties an input to the tables that are made of it. Tables have names that differ from each
other; table data without tables of its own stands for the one table that the data forms.

Before a job can run, its references have to make sense: tables may only use columns of the input,
recode only columns that can be recoded, and sum only numbers. Everything that is wrong is told at
once.

The commands of a job come in a fixed order: the data and the metadata are opened, each table is
specified and gets its rules, the data is read, each table is changed, recoded and protected, all
tables are protected together, and each table is written.
-/

namespace Disclosure

/-- Where the engine keeps its logbook. -/
inductive LogbookChoice where
  | usual
  | place (path : Path)
  | disabled
  deriving DecidableEq, Repr

/-- An input with the tables to make of it. -/
structure Job where
  name : String
  paths : JobPaths
  input : Input
  ownTables : List (String × Table)
  linkedSuppression : Option Suppression
  logbook : LogbookChoice
  interactive : Bool

namespace Job

/-- The name of the table that table data forms. -/
def inputTableName : String := "table-1"

/-- The name of jobs whose own name has no letters, digits or underscores. -/
def defaultName : String := "job"

/-- The name of a job, made from the one that was given. -/
def nameOf (given : String) : String :=
  if slug given = "" then defaultName else slug given

/-- A job without tables. A relative directory is taken from `here`. -/
def new (here : Path) (input : Input) (directory : Path) (name : String) : Job where
  name := nameOf name
  paths := ⟨(Path.absolute? here directory).getD directory, nameOf name⟩
  input := input
  ownTables := []
  linkedSuppression := none
  logbook := .usual
  interactive := false

/-! ## Tables -/

/-- The tables in the order they were added; without any, the table that the input forms. -/
def tables (j : Job) : List (String × Table) :=
  if j.ownTables.isEmpty then j.input.table?.toList.map fun table => (inputTableName, table)
  else j.ownTables

/-- The table with a given name. -/
def table? (j : Job) (name : String) : Option Table :=
  j.tables.lookup name

/-- Adds a table under a name that no table has yet. -/
def insertTable (j : Job) (name : String) (table : Table) : Except Fault Job :=
  if j.ownTables.any (·.1 = name) then .error (.duplicateTable name)
  else .ok { j with ownTables := j.ownTables ++ [(name, table)] }

/-- The name of a numbered table. -/
def numberedName (n : Nat) : String :=
  "table-" ++ toString n

/-- The first number from `n` on whose name is free; of `fuel` tries more than there are tables one
has to succeed. -/
def freeNumber (taken : List String) : Nat → Nat → Nat
  | 0, n => n
  | fuel + 1, n => if taken.contains (numberedName n) then freeNumber taken fuel (n + 1) else n

/-- The name for a table that is given none. -/
def freeName (j : Job) : String :=
  numberedName (freeNumber (j.ownTables.map (·.1)) j.ownTables.length (j.ownTables.length + 1))

/-- Adds a table under a name of its own. -/
def addTable (j : Job) (table : Table) : Job × String :=
  ({ j with ownTables := j.ownTables ++ [(j.freeName, table)] }, j.freeName)

/-- Puts changed tables in the place of those there were. -/
def withTables (j : Job) (tables : List (String × Table)) : Job :=
  if j.ownTables.isEmpty then
    match j.input.roles, tables with
    | .tableData roles, (_, table) :: _ =>
      { j with input := { j.input with roles := .tableData { roles with table } } }
    | _, _ => j
  else { j with ownTables := tables }

/-! ## Places -/

/-- Chooses the place of the logbook; a relative path is taken from `here`. -/
def setLogbook (j : Job) (here : Path) (choice : LogbookChoice) : Job :=
  match choice with
  | .place path => { j with logbook := .place ((Path.absolute? here path).getD path) }
  | other => { j with logbook := other }

/-- The place of the logbook, unless there is to be none. -/
def logbookPath? (j : Job) : Option Path :=
  match j.logbook with
  | .usual => some j.paths.logbook
  | .place path => some path
  | .disabled => none

/-! ## Problems -/

/-- What is wrong with the references of one table. -/
def tableProblems (input : Input) (table : Table) : List String :=
  ((table.allVariables.filter fun name => !input.contains name).map fun name =>
    s!"Variable {name} not present in input data.") ++
  ((table.categoricalVariables.filter fun name =>
      (input.column? name).any fun column => !column.isRecodable).map fun name =>
    s!"Variable {name} not recodable. Add a hierarchy or total code to resolve.") ++
  ((table.numericVariables.filter fun name =>
      (input.column? name).any fun column => !column.isNumeric).map fun name =>
    s!"Variable {name} not numeric.")

/-- What is wrong with a column: a length given by hand has to agree with the levels. -/
def columnProblem? (column : Column) : Option String :=
  match column.hierarchy, column.explicitLength with
  | .levels levels, some length =>
    if length = levels.codeLength then none
    else
      some (s!"Variable {column.name} has length {length} but its hierarchy levels add up to " ++
        s!"{levels.codeLength}.")
  | _, _ => none

/-- Everything that is wrong with the job, each problem once. -/
def problems (j : Job) : List String :=
  ((j.tables.flatMap fun (_, table) => tableProblems j.input table) ++
    j.input.columns.filterMap columnProblem?).eraseDups

/-- Fails with everything that is wrong. -/
def check (j : Job) : Except Fault Unit :=
  if j.problems.isEmpty then .ok () else .error (.inconsistent j.problems)

/-! ## Commands -/

/-- What is there, or the fault that it is missing. -/
def required (fault : Fault) : Option α → Except Fault α
  | some value => .ok value
  | none => .error fault

/-- The commands for each table in turn, with the number of the table; the first fault is told. -/
def forTables (commands : Nat → String → Table → Except Fault (List BatchCommand)) :
    Nat → List (String × Table) → Except Fault (List BatchCommand)
  | _, [] => .ok []
  | number, (name, table) :: rest => do
    let here ← commands number name table
    let after ← forTables commands (number + 1) rest
    pure (here ++ after)

/-- Specifies a table and its rules. -/
def specification (_ : Nat) (name : String) (table : Table) : Except Fault (List BatchCommand) :=
  match table.rules.compose with
  | .error fault => .error (.tableRule name fault)
  | .ok rules =>
    .ok [.specifyTable table.explanatory table.response table.shadow table.cost table.lambda,
      .safetyRule rules]

/-- Changes cells of a table, if there are changes. -/
def aprioriCommands (number : Nat) (name : String) (table : Table) :
    Except Fault (List BatchCommand) :=
  match table.overrides with
  | none => .ok []
  | some o =>
    (required (.unresolved name .apriori) o.path).map fun path =>
      [.apriori path number o.separator o.ignoreError o.expandTrivial]

/-- What a recode is done by; a list of codes needs a file. -/
def recodeTarget (name : String) : Recode → Except Fault RecodeTarget
  | .file path => .ok (.file path)
  | .level level => .ok (.level level)
  | .tree recode => (required (.unresolved name .treeRecode) recode.path).map .file

/-- Recodes the variables of a table. -/
def recodeCommands (number : Nat) (name : String) :
    List (String × Recode) → Except Fault (List BatchCommand)
  | [] => .ok []
  | (column, recode) :: rest => do
    let target ← recodeTarget name recode
    let after ← recodeCommands number name rest
    pure (.recode number column target :: after)

/-- Suppresses cells of a table, if it has a method for that. -/
def suppressCommands (number : Nat) (suppression : Option Suppression) : List BatchCommand :=
  suppression.toList.map (.suppress number)

/-- Changes, recodes and protects a table. -/
def protection (number : Nat) (name : String) (table : Table) :
    Except Fault (List BatchCommand) := do
  let changes ← aprioriCommands number name table
  let recodes ← recodeCommands number name table.recodes
  pure (changes ++ recodes ++ suppressCommands number table.suppression)

/-- Writes a table. -/
def writing (number : Nat) (name : String) (table : Table) : Except Fault (List BatchCommand) :=
  (required (.unresolved name .output) table.outputPath).map fun path =>
    [.writeTable number BatchCommand.commaFormat table.writeOptions path]

/-- Opens the data, by the kind of input. -/
def openCommand : InputKind → Path → BatchCommand
  | .microdata, path => .openMicrodata path
  | .tableData, path => .openTableData path

/-- Reads the data, by the kind of input. -/
def readCommand : InputKind → BatchCommand
  | .microdata => .readMicrodata
  | .tableData => .readTable none

/-- The commands of the job. Every file has to have its place by now. -/
def commands (j : Job) : Except Fault (List BatchCommand) := do
  if j.tables.isEmpty then throw .noTables
  let data ← required (.missingArtifact .inputData) j.input.dataPath
  let metadata ← required (.missingArtifact .metadata) j.input.metadataPath
  let specified ← forTables specification 1 j.tables
  let changed ← forTables protection 1 j.tables
  let written ← forTables writing 1 j.tables
  pure ([openCommand j.input.kind data, .openMetadata metadata] ++ specified ++
    [readCommand j.input.kind] ++ changed ++ suppressCommands 0 j.linkedSuppression ++ written ++
    (if j.interactive then [.goInteractive] else []))

end Job

end Disclosure
