import Disclosure.Frame.Reading
import Disclosure.Job.Basic
import Disclosure.JobFile.Reading
import Disclosure.CodeTree.Rows
import Disclosure.Log.Event

/-!
# Jobs from job files

Building a job reads the data and every other file that the job file names; relative paths are taken
from the directory of the job file. Columns that hold codes are read as text: those that span a
table, those with a hierarchy, a total code or a code list, and those with a role that compares
values.
-/

namespace Disclosure.JobFile

/-- What building gives: a value, or an error with what was being done. -/
abbrev Built (α : Type) := Except JobFileError α

/-- Passes a fault on as an error. -/
def orFault (r : Except Fault α) : Built α :=
  r.mapError .ofFault

/-- Does something that an error is told together with. -/
def doing (context : String) (r : Built α) : Built α :=
  r.mapError (.inContext context)

/-! ## Tables -/

/-- The costs with a name. -/
def costOf (name : String) : Cost :=
  match name with
  | "<freq>" => .frequency
  | "<unity>" => .unity
  | "<dist>" => .distance
  | column => .column column

/-- The suppression of a setting; its method has to be known. -/
def buildSuppression : SuppressionSetting → Built Suppression
  | .usual method => (orFault (SuppressMethod.ofName? method)).map .usual
  | .detailed method arguments =>
    (orFault (SuppressMethod.ofName? method)).map fun method => ⟨method, arguments⟩

/-- The recode of a setting. -/
def buildRecode (base : Path) : RecodeSetting → Recode
  | .level level => .level level
  | .codes codes => .tree (.ofCodes codes)
  | .file path => .file (base.resolveFrom path)

/-- The rules of a table. -/
def rulesOf (s : TableSection) : RuleSet where
  individual := (s.safetyRule.map RuleSet.splitRules).getD []
  holding := (s.holdingRule.map RuleSet.splitRules).getD []

/-- Reads a value that may be left open. -/
def optionally (read : α → Built β) : Option α → Built (Option β)
  | none => .ok none
  | some value => (read value).map some

/-- The table of a section. -/
def buildTable (fs : FileSystem) (base : Path) (s : TableSection) : Built Table := do
  let separator := s.overridesSeparator.getD CellOverrides.defaultSeparator
  let overrides ← optionally
    (fun path => orFault (CellOverrides.load fs (base.resolveFrom path) separator)) s.overrides
  let suppression ← optionally buildSuppression s.suppression
  let table := { Table.new s.explanatory (Response.ofName s.response) with
    shadow := s.shadow
    cost := s.cost.map costOf
    lambda := s.lambda
    rules := rulesOf s
    overrides := overrides
    recodes := s.recodes.map fun (column, recode) => (column, buildRecode base recode)
    suppression := suppression
    outputPath := s.output.map base.resolveFrom }
  pure (s.writeOptions.foldl (fun table (key, on) => table.setWriteOption key on) table)

/-! ## The input -/

/-- Whether a column holds codes. -/
def ColumnSection.isCategorical (s : ColumnSection) : Bool :=
  s.levels.isSome || s.hierarchyFile.isSome || s.hierarchy.isSome || s.totalCode.isSome ||
    s.codeListFile.isSome || s.codeList.isSome

/-- The columns that are read as text. -/
def categoricalColumns (file : JobFile) : List String :=
  (file.tables ++ file.input.table.toList).flatMap (·.explanatory) ++
    ((file.columns.filter fun (_, column) => ColumnSection.isCategorical column).map (·.1)) ++
    file.input.request.toList ++ file.input.holding.toList ++ file.input.statusIndicator.toList

/-- Where the data is. -/
def dataPath (file : JobFile) (base : Path) : Path :=
  base.resolveFrom file.input.data

/-- The files that are read to build the job. -/
def sources (file : JobFile) (base : Path) : List Path :=
  file.dataPath base ::
    ((file.tables ++ file.input.table.toList).filterMap (·.overrides) ++
      (file.columns.flatMap fun (_, column) =>
        column.hierarchyFile.toList ++ column.codeListFile.toList)).map base.resolveFrom

/-- The separator of the data, which has to fit into a byte. -/
def separatorByte (file : JobFile) : Built UInt8 :=
  let c := file.input.separator
  if c.toNat < 256 then .ok c.toNat.toUInt8
  else .error (.ofText s!"separator '{c}' is not a single byte")

/-- Reads the data. -/
def readData (file : JobFile) (fs : FileSystem) (base : Path) : Built Frame := do
  let separator ← file.separatorByte
  let path := file.dataPath base
  let unreadable := JobFileError.mk ["read header of " ++ path.text] (some .header)
  match fs.read path with
  | .error _ => throw unreadable
  | .ok content =>
    match DataFile.headerNames? separator content with
    | none => throw unreadable
    | some names =>
      let codes := names.filter file.categoricalColumns.contains
      match Frame.ofDataFile? separator codes content with
      | none => throw ⟨["read " ++ path.text], some .data⟩
      | some frame => pure frame

/-- Gives a column a role, if it is to have one. -/
def assign (set : Input → α → Except Fault Input) (column : Option α) (i : Input) : Built Input :=
  match column with
  | none => .ok i
  | some column => orFault (set i column)

/-- Gives columns their roles. -/
def assignRoles (s : InputSection) (i : Input) : Built Input := do
  let values := s.requestValues.getD MicrodataRoles.none.requestValues
  let top := if s.topContributors.isEmpty then none else some s.topContributors
  let i ← assign Input.setWeight s.weight i
  let i ← assign (fun i column => i.setRequest column values) s.request i
  let i ← assign Input.setHolding s.holding i
  let i ← assign Input.setFrequency s.frequency i
  let i ← assign Input.setTopContributors top i
  let i ← assign Input.setLowerProtectionLevel s.lowerProtectionLevel i
  let i ← assign Input.setUpperProtectionLevel s.upperProtectionLevel i
  assign (fun i column => i.setStatusIndicator column s.statusMarkers) s.statusIndicator i

/-- The hierarchy of a column, of which there may be one. -/
def buildHierarchy (fs : FileSystem) (base : Path) (s : ColumnSection) :
    Built (Option Hierarchy) :=
  let total := s.totalCode.getD defaultTotal
  let indent := s.indent.getD CodeTree.defaultIndent
  match s.levels, s.hierarchyFile, s.hierarchy with
  | none, none, none => .ok none
  | some levels, none, none =>
    orFault ((LevelHierarchy.ofWidths levels).map fun h => some (.levels h))
  | none, some path, none =>
    orFault ((TreeHierarchy.load fs (base.resolveFrom path) indent total).map fun h =>
      some (.tree h))
  | none, none, some rows => .ok (some (.tree (.ofTree (CodeTree.ofRows rows total) indent)))
  | _, _, _ => .error (.ofText "give at most one of levels, hierarchy_file and hierarchy")

/-- The code list of a column, of which there may be one. -/
def buildCodeList (fs : FileSystem) (base : Path) (s : ColumnSection) : Built (Option CodeList) :=
  match s.codeListFile, s.codeList with
  | none, none => .ok none
  | some path, none => orFault ((CodeList.load fs (base.resolveFrom path)).map some)
  | none, some labels => .ok (some (CodeList.ofPairs labels))
  | some _, some _ => .error (.ofText "give either codelist_file or codelist")

/-- Applies what is said about a column. -/
def applyColumn (fs : FileSystem) (base : Path) (name : String) (s : ColumnSection) (i : Input) :
    Built Input := do
  let hierarchy ← buildHierarchy fs base s
  let change (i : Input) (f : Column → Column) : Except Fault Input :=
    i.updateColumn name fun column => .ok (f column)
  let i ← assign (fun i h => change i fun column => column.setHierarchy h) hierarchy i
  let i ← assign (fun i total => change i fun column => column.setTotalCode total) s.totalCode i
  let codeList ← buildCodeList fs base s
  let i ← assign (fun i l => change i fun column => column.setCodeList (some l)) codeList i
  let i ← assign (fun i n => change i fun column => column.setLength (some n)) s.length i
  if !i.contains name then throw (.ofText s!"column '{name}' not found in input data")
  let i ← assign (fun i n => i.updateColumn name fun column => column.setDecimals n) s.decimals i
  if s.missing.isEmpty then pure i
  else orFault (change i fun column => column.setMissing s.missing)

/-- Applies what is said about all columns. -/
def applyColumns (fs : FileSystem) (base : Path) (columns : List (String × ColumnSection))
    (i : Input) : Built Input :=
  columns.foldlM (fun i (name, s) => doing ("column " ++ name) (applyColumn fs base name s i)) i

/-- The input with its roles and columns. -/
def buildInput (file : JobFile) (fs : FileSystem) (base : Path) (frame : Frame) : Built Input := do
  let separator ← file.separatorByte
  let input ← match file.input.kind with
    | .microdata => pure (Input.microdata frame)
    | .tableData =>
      match file.input.table with
      | none => throw (.ofText "table data needs an [input.table] section")
      | some s => (buildTable fs base s).map (Input.tableData frame)
  let input ← assignRoles file.input { input with separator }
  applyColumns fs base file.columns input

/-! ## The job -/

/-- The place of the logbook. -/
def logbookChoice (file : JobFile) (base : Path) : LogbookChoice :=
  match file.logbook with
  | none | some "default" => .usual
  | some "none" => .disabled
  | some path => .place (base.resolveFrom ⟨path⟩)

/-- Adds the table of a section, under its name if it has one. -/
def addTable (fs : FileSystem) (base : Path) (j : Job) (numbered : Nat × TableSection) :
    Built Job := do
  let table ← doing s!"table {numbered.1}" (buildTable fs base numbered.2)
  match numbered.2.name with
  | some name => orFault (j.insertTable name table)
  | none => pure (j.addTable table).1

/-- The job that a file describes, once its data is read. -/
def build (file : JobFile) (fs : FileSystem) (base : Path) (defaultName : String) (frame : Frame) :
    Built Job := do
  let input ← file.buildInput fs base frame
  let directory := (file.directory.map base.resolveFrom).getD base
  let job := Job.new fs.herePath input directory (file.name.getD defaultName)
  let job := { job with interactive := file.interactive }
  let job := job.setLogbook fs.herePath (file.logbookChoice base)
  let job ← (Text.numbered file.tables).foldlM (addTable fs base) job
  let linked ← optionally buildSuppression file.linkedSuppression
  pure { job with linkedSuppression := linked }

/-- The directory of a job file. -/
def baseOf (path : Path) : Path :=
  match path.parent? with
  | some above => if above.text.isEmpty then ⟨"."⟩ else above
  | none => ⟨"."⟩

/-- Reads a job file. -/
def loadFile (fs : FileSystem) (path : Path) : Built JobFile :=
  match fs.readText path with
  | .error fault => .error ⟨["read " ++ path.text], some (.file fault)⟩
  | .ok text =>
    match ofText? text with
    | none => .error ⟨["load " ++ path.text, "parse job file"], some .description⟩
    | some file => .ok file

/-- Reads a job file and builds the job it describes. Tells what was read even if the job cannot be
built. -/
def load (fs : FileSystem) (path : Path) : List Event × Built Job :=
  match loadFile fs path with
  | .error e => ([], .error e)
  | .ok file =>
    let base := baseOf path
    match file.readData fs base with
    | .error e => ([], .error e)
    | .ok frame =>
      ([.readInput (file.dataPath base) frame.height frame.columns.length],
        file.build fs base (path.stem?.getD Job.defaultName) frame)

end Disclosure.JobFile
