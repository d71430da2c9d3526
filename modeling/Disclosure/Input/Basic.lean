import Disclosure.Column
import Disclosure.Frame.Writing
import Disclosure.Table

/-!
# Input data

The input is a frame with one column description for each of its columns. It is either microdata,
one row for each contributor, or table data, which is added up already and forms a table of its own.

Some columns have a **role**, and each kind of input has roles of its own. Giving a column a role
first looks whether the column is there and then whether the input has the role; where either fails
nothing is changed.

A data file and a metadata file can be given from outside. What is not given is written when a job
is set up, and the place is noted.
-/

namespace Disclosure

/-- The roles of microdata. -/
structure MicrodataRoles where
  weight : Option String
  request : Option String
  requestValues : List String
  holding : Option String
  deriving DecidableEq, Repr

/-- Roles of microdata that no column has yet. -/
def MicrodataRoles.none : MicrodataRoles :=
  ⟨.none, .none, ["1", "2"], .none⟩

/-- The roles of table data, and the table that the data forms. -/
structure TableRoles where
  table : Table
  frequency : Option String
  topContributors : List String
  lowerProtectionLevel : Option String
  upperProtectionLevel : Option String
  statusIndicator : Option String
  statusMarkers : List (String × String)

/-- The markers by which the engine tells the status of cells, unless others are given. -/
def defaultStatusMarkers : List (String × String) :=
  [("SAFE", "S"), ("UNSAFE", "U"), ("PROTECT", "P")]

/-- Roles of table data that no column has yet. -/
def TableRoles.none (table : Table) : TableRoles :=
  ⟨table, .none, [], .none, .none, .none, defaultStatusMarkers⟩

/-- The roles that an input has. -/
inductive Roles where
  | microdata (roles : MicrodataRoles)
  | tableData (roles : TableRoles)

/-- The kind of input that has these roles. -/
def Roles.kind : Roles → InputKind
  | microdata _ => .microdata
  | tableData _ => .tableData

/-- Input data. -/
structure Input (π : Type := Path) where
  frame : Frame
  columns : List (Column π)
  roles : Roles
  separator : UInt8
  dataPath : Option π
  metadataPath : Option π

namespace Input

/-- Input from a frame, with commas as separators. -/
def ofFrame (frame : Frame) (roles : Roles) : Input :=
  ⟨frame, frame.columns.map Column.ofSeries, roles, 44, none, none⟩

/-- Input with one row for each contributor. -/
def microdata (frame : Frame) : Input :=
  ofFrame frame (.microdata .none)

/-- Input that is added up already. -/
def tableData (frame : Frame) (table : Table) : Input :=
  ofFrame frame (.tableData (.none table))

/-- The kind of the input. -/
def kind (i : Input) : InputKind :=
  i.roles.kind

/-- The table that table data forms. -/
def table? (i : Input) : Option Table :=
  match i.roles with
  | .microdata _ => none
  | .tableData roles => some roles.table

/-- The column with a given name. -/
def column? (i : Input) (name : String) : Option Column :=
  i.columns.find? fun column => column.name = name

/-- Whether there is a column with a given name. -/
def contains (i : Input) (name : String) : Bool :=
  (i.column? name).isSome

/-- Changes the first column with a given name. -/
def modifyColumns (name : String) (f : Column → Column) : List Column → List Column
  | [] => []
  | column :: rest =>
    if column.name = name then f column :: rest else column :: modifyColumns name f rest

/-- Changes a column that has to be there; the change itself may fail. -/
def updateColumn (i : Input) (name : String) (f : Column → Except Fault Column) :
    Except Fault Input :=
  match i.column? name with
  | none => .error (.unknownColumn name)
  | some column =>
    (f column).map fun changed =>
      { i with columns := modifyColumns name (fun _ => changed) i.columns }

/-! ## Roles -/

/-- Goes on only if all columns are there; the first one that is not is told. -/
def requireAll (i : Input) : List String → Except Fault Unit
  | [] => .ok ()
  | name :: rest => if i.contains name then i.requireAll rest else .error (.unknownColumn name)

/-- Changes the roles of microdata. -/
def onMicrodata (i : Input) (role : Role) (f : MicrodataRoles → MicrodataRoles) :
    Except Fault Input :=
  match i.roles with
  | .microdata roles => .ok { i with roles := .microdata (f roles) }
  | .tableData _ => .error (.roleNotSupported role .tableData)

/-- Changes the roles of table data. -/
def onTableData (i : Input) (role : Role) (f : TableRoles → TableRoles) : Except Fault Input :=
  match i.roles with
  | .tableData roles => .ok { i with roles := .tableData (f roles) }
  | .microdata _ => .error (.roleNotSupported role .microdata)

/-- The column holds the weights of contributors. -/
def setWeight (i : Input) (column : String) : Except Fault Input := do
  i.requireAll [column]
  i.onMicrodata .weight fun roles => { roles with weight := column }

/-- The column tells who asked for protection, by the given values; none leave the values as they
were. -/
def setRequest (i : Input) (column : String) (values : List String) : Except Fault Input := do
  i.requireAll [column]
  i.onMicrodata .request fun roles =>
    { roles with
      request := column
      requestValues := if values.isEmpty then roles.requestValues else values }

/-- The column tells which holding a contributor belongs to. -/
def setHolding (i : Input) (column : String) : Except Fault Input := do
  i.requireAll [column]
  i.onMicrodata .holding fun roles => { roles with holding := column }

/-- The column counts the contributors of cells. -/
def setFrequency (i : Input) (column : String) : Except Fault Input := do
  i.requireAll [column]
  i.onTableData .frequency fun roles => { roles with frequency := column }

/-- The columns hold the largest contributions of cells, the largest first. -/
def setTopContributors (i : Input) (columns : List String) : Except Fault Input := do
  i.requireAll columns
  i.onTableData .topContributors fun roles => { roles with topContributors := columns }

/-- The column holds the lower protection levels of cells. -/
def setLowerProtectionLevel (i : Input) (column : String) : Except Fault Input := do
  i.requireAll [column]
  i.onTableData .lowerProtectionLevel fun roles => { roles with lowerProtectionLevel := column }

/-- The column holds the upper protection levels of cells. -/
def setUpperProtectionLevel (i : Input) (column : String) : Except Fault Input := do
  i.requireAll [column]
  i.onTableData .upperProtectionLevel fun roles => { roles with upperProtectionLevel := column }

/-- The column holds the status of cells, by the given markers; without markers they stay as they
were. -/
def setStatusIndicator (i : Input) (column : String) (markers : Option (List (String × String))) :
    Except Fault Input := do
  i.requireAll [column]
  i.onTableData .statusIndicator fun roles =>
    { roles with
      statusIndicator := column
      statusMarkers := markers.getD roles.statusMarkers }

/-! ## Files -/

/-- Writes the data file and notes where it is. -/
def saveData (i : Input) (fs : FileSystem) (path : Path) : Except Fault (Input × FileSystem) :=
  match fs.write path (i.frame.forEngine.toBytes i.separator) with
  | .error fault => .error (.file path fault)
  | .ok written => .ok ({ i with dataPath := path }, written)

end Input

end Disclosure
