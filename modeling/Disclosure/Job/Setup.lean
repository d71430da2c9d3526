import Disclosure.Input.Metadata
import Disclosure.Job.Basic
import Disclosure.Logbook
import Disclosure.Step

/-!
# Setting a job up and running it

Setting up writes every file that the engine needs and that has no place yet: the data, hierarchies,
code lists, the metadata, a priori files and recode files. The place of each is noted in the job, so
setting the job up again leaves these files alone. The check comes after that, and the batch file is
written only if it finds nothing wrong.

A run sets the job up and, if that went well, hands the batch file to the engine. What an engine
does is left open: it is given the files and gives them back together with a report.
-/

namespace Disclosure

namespace Job

/-! ## Writing what has no place yet -/

/-- Makes directories; the first one that cannot be made is told. -/
def createDirectories : List Path → Work Job
  | [], j, fs => .done j fs []
  | path :: rest, j, fs =>
    match fs.createDirectory path with
    | .error fault => .failed j fs (.file path fault)
    | .ok made => createDirectories rest j made

/-- Writes the data file, unless there is one. -/
def setUpData : Work Job := fun j fs =>
  match j.input.dataPath with
  | some path => .done j fs [.keptData path]
  | none =>
    let path := j.paths.data j.input.kind.name
    (Step.ofSaving j.input fs (fun input => .wroteData path input.frame.height)
      (j.input.saveData fs path)).map fun input => { j with input }

/-- Writes the hierarchy file of a column, if the column has a tree without a file. -/
def setUpHierarchy (paths : JobPaths) : Work Column := fun column fs =>
  match column.hierarchy with
  | .tree tree =>
    if tree.path.isSome then .done column fs []
    else
      let path := paths.hierarchy column.name
      (Step.ofSaving tree fs (fun tree => .wroteHierarchy path tree.tree.size)
        (tree.save fs path column.length)).map fun tree => column.editHierarchy fun _ => .tree tree
  | _ => .done column fs []

/-- Writes the file of a column's code list, if it has none. -/
def setUpCodeList (paths : JobPaths) : Work Column := fun column fs =>
  match column.codeList with
  | none => .done column fs []
  | some codeList =>
    if codeList.path.isSome then .done column fs []
    else
      let path := paths.codeList column.name
      (Step.ofSaving codeList fs (fun codeList => .wroteCodeList path codeList.size)
        (codeList.save fs path column.length)).map fun codeList =>
          column.editCodeList fun _ => codeList

/-- Does a piece of work for each column of the input. -/
def forColumns (work : JobPaths → Work Column) : Work Job := fun j fs =>
  (Step.each (work j.paths) j.input.columns fs).map fun columns =>
    { j with input := { j.input with columns } }

/-- Writes the metadata file, unless there is one. -/
def setUpMetadata : Work Job := fun j fs =>
  match j.input.metadataPath with
  | some path => .done j fs [.keptMetadata path]
  | none =>
    let path := j.paths.metadata j.input.kind.name
    (Step.ofSaving j.input fs (fun input => .wroteMetadata path input.columns.length)
      (j.input.saveMetadata fs path)).map fun input => { j with input }

/-- Gives a table a place to be written to, unless it has one. -/
def setUpOutput (paths : JobPaths) (name : String) : Work Table := fun table fs =>
  .done { table with outputPath := table.outputPath <|> some (paths.tableOutput name) } fs []

/-- Writes the a priori file of a table, if it has changes without a file. -/
def setUpOverrides (paths : JobPaths) (name : String) : Work Table := fun table fs =>
  match table.overrides with
  | none => .done table fs []
  | some overrides =>
    if overrides.path.isSome then .done table fs []
    else
      let path := paths.apriori name
      (Step.ofSaving overrides fs (fun overrides => .wroteOverrides path overrides.changes.length)
        (overrides.save fs path)).map fun overrides =>
          { table with overrides := some overrides }

/-- Writes the recode file of a variable, if it is recoded by codes without a file. -/
def setUpRecode (paths : JobPaths) (name : String) (lengthOf : String → Nat) :
    Work (String × Recode) := fun (column, recode) fs =>
  match recode with
  | .tree tree =>
    if tree.path.isSome then .done (column, recode) fs []
    else
      let path := paths.recode name column
      (Step.ofSaving tree fs (fun tree => .wroteRecode path tree.codes.length)
        (tree.save fs path (lengthOf column))).map fun tree => (column, .tree tree)
  | _ => .done (column, recode) fs []

/-- Writes the recode files of a table. -/
def setUpRecodes (paths : JobPaths) (name : String) (lengthOf : String → Nat) : Work Table :=
  fun table fs =>
    (Step.each (setUpRecode paths name lengthOf) table.recodes fs).map fun recodes =>
      { table with recodes }

/-- Writes the files of a table. -/
def setUpTable (paths : JobPaths) (lengthOf : String → Nat) : Work (String × Table) :=
  fun (name, table) fs =>
    (Step.inOrder
      [setUpOutput paths name, setUpOverrides paths name, setUpRecodes paths name lengthOf]
      table fs).map fun table => (name, table)

/-- The length of a column; of columns that are not there, the length of those about which nothing
is known. -/
def columnLength (j : Job) (name : String) : Nat :=
  ((j.input.column? name).map Column.length).getD Column.defaultLength

/-- Writes the files of all tables. -/
def setUpTables : Work Job := fun j fs =>
  (Step.each (setUpTable j.paths j.columnLength) j.tables fs).map j.withTables

/-! ## The batch file -/

/-- Tells about every problem, and fails if there is one. -/
def reportProblems : Work Job := fun j fs =>
  match j.check with
  | .ok () => .done j fs []
  | .error fault =>
    ⟨j, fs, j.problems.map fun problem => .plain (.foundProblem problem j.name), some fault⟩

/-- Writes the batch file. -/
def writeBatch : Work Job := fun j fs =>
  match j.commands with
  | .error fault => .failed j fs fault
  | .ok commands =>
    match fs.writeText j.paths.batch (renderBatch commands) with
    | .error fault => .failed j fs (.file j.paths.batch fault)
    | .ok written =>
      .done j written
        [.wroteBatch j.paths.batch commands.length,
          .jobSetUp j.tables.length commands.length j.paths.batch]

/-- Needs a table. -/
def requireTables : Work Job := fun j fs =>
  if j.tables.isEmpty then .failed j fs .noTables else .done j fs []

/-- Writes everything that has no place yet, checks the job and writes the batch file. -/
def setUp : Work Job := fun j fs =>
  (Step.inOrder
    [requireTables, createDirectories [j.paths.input, j.paths.output, j.paths.work], setUpData,
      forColumns setUpHierarchy, forColumns setUpCodeList, setUpMetadata, setUpTables,
      reportProblems, writeBatch]
    j fs).inside (.setup j.name)

/-! ## Running -/

/-- What the engine is handed. -/
structure EngineCall where
  batch : Path
  logbook : Option Path
  directory : Path
  deriving DecidableEq, Repr

/-- An engine reads and writes files, and gives a report if it could be run at all. -/
abbrev Engine := EngineCall → FileSystem → Except Fault RunReport × FileSystem

/-- What a run came to, with everything that the engine was handed. -/
structure Run where
  job : Job
  files : FileSystem
  events : List LogEntry
  calls : List EngineCall
  result : Except Fault RunReport

/-- What the engine of a job is handed. -/
def engineCall (j : Job) : EngineCall :=
  ⟨j.paths.batch, j.logbookPath?, j.paths.work⟩

/-- Sets the job up and runs it; a run that has failed is a fault. -/
def run (j : Job) (engine : Engine) (fs : FileSystem) : Run :=
  let s := j.setUp fs
  match s.fault with
  | some fault => ⟨s.value, s.files, s.events, [], .error fault⟩
  | none =>
    let call := s.value.engineCall
    let started := s.events ++ [.plain (.jobRunning j.name call.batch)]
    match engine call s.files with
    | (.error fault, after) => ⟨s.value, after, started, [call], .error fault⟩
    | (.ok report, after) =>
      ⟨s.value, after, started ++ [.plain (.engineFinished j.name report.status)], [call],
        report.check⟩

end Job

end Disclosure
