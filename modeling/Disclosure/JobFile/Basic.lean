import Disclosure.Fault
import Disclosure.Suppression

/-!
# Job files

A job file describes a job: the data to read, what its columns are, and the tables to protect. Here
is what such a file says, before any other file is looked at. Paths are as they are written.
-/

namespace Disclosure

/-- How a variable is recoded: to a number of levels, to listed codes, or as a file says. -/
inductive RecodeSetting where
  | level (level : Nat)
  | codes (codes : List String)
  | file (path : Path)
  deriving DecidableEq, Repr

/-- A method with its usual arguments, or with the given ones. -/
inductive SuppressionSetting where
  | usual (method : String)
  | detailed (method : String) (arguments : List (Option MethodArgument))

/-- What is said about a table. -/
structure TableSection where
  name : Option String
  explanatory : List String
  response : String
  shadow : Option String
  cost : Option String
  lambda : Option Float
  safetyRule : Option String
  holdingRule : Option String
  overrides : Option Path
  overridesSeparator : Option String
  recodes : List (String × RecodeSetting)
  suppression : Option SuppressionSetting
  writeOptions : List (String × Bool)
  output : Option Path

/-- What is said about the input. -/
structure InputSection where
  kind : InputKind
  data : Path
  separator : Char
  weight : Option String
  request : Option String
  requestValues : Option (List String)
  holding : Option String
  frequency : Option String
  topContributors : List String
  lowerProtectionLevel : Option String
  upperProtectionLevel : Option String
  statusIndicator : Option String
  statusMarkers : Option (List (String × String))
  table : Option TableSection

/-- What is said about a column. -/
structure ColumnSection where
  levels : Option (List Nat)
  hierarchyFile : Option Path
  hierarchy : Option (List (List String))
  indent : Option String
  totalCode : Option String
  codeListFile : Option Path
  codeList : Option (List (String × String))
  length : Option Nat
  decimals : Option Nat
  missing : List String

/-- What a job file says. -/
structure JobFile where
  name : Option String
  directory : Option Path
  input : InputSection
  columns : List (String × ColumnSection)
  tables : List TableSection
  linkedSuppression : Option SuppressionSetting
  logbook : Option String
  interactive : Bool

/-- What lies behind an error about a job file, where something outside its own rules does. -/
inductive JobFileCause where
  | fault (fault : Fault)
  | file (fault : FileFault)
  | description
  | header
  | data

/-- An error about a job file: what was being done, from the outermost, and the cause of the
error. -/
structure JobFileError where
  contexts : List String
  cause : Option JobFileCause

namespace JobFileError

/-- An error that one of the library's own faults causes. -/
def ofFault (fault : Fault) : JobFileError := ⟨[], some (.fault fault)⟩

/-- An error without another cause. -/
def ofText (text : String) : JobFileError := ⟨[text], none⟩

/-- The same error while something was being done. -/
def inContext (context : String) (e : JobFileError) : JobFileError :=
  { e with contexts := context :: e.contexts }

/-- What is said about a cause, outermost first. -/
def causeChain : JobFileCause → List String
  | .fault fault => fault.chain
  | .file fault => [fault.message]
  | .description => ["not a job description"]
  | .header => ["not a row of column names"]
  | .data => ["not a table"]

/-- The error as one line, outermost first. -/
def message (e : JobFileError) : String :=
  ": ".intercalate (e.contexts ++ (e.cause.map causeChain).getD [])

end JobFileError

end Disclosure
