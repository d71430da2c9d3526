import Disclosure.Decimal.Layout
import Disclosure.FileSystem
import Disclosure.Rule.Kind
import Disclosure.RunReport

/-!
# What can go wrong

Every fault of the library is a cause, one constructor each, and its wording is decided here alone.
Faults of safety rules are a type of their own, because a job reports them together with the table
they belong to.
-/

namespace Disclosure

/-- Writes a number without a decimal part when it is whole and below 10^15 in size; other numbers
are written as the shortest text that reads back. -/
def numberText (x : Float) : String :=
  if isWhole x && x.abs < 1e15 then toString ((truncated? x).getD 0) else plainText x

/-- What is wrong with a safety rule, or with several together. -/
inductive RuleFault where
  | notPercentage (kind : RuleKind) (parameter : String) (value : Float)
  | notPositive (kind : RuleKind) (parameter : String) (value : Int)
  | tooMany (kind : RuleKind) (level : RuleLevel) (maximum : Nat)

/-- The wording of a rule fault. -/
def RuleFault.message : RuleFault → String
  | .notPercentage kind parameter value =>
    s!"invalid {kind.name} rule: {parameter} should be a percentage, got {numberText value}"
  | .notPositive kind parameter value =>
    s!"invalid {kind.name} rule: {parameter} should be positive, got {value}"
  | .tooMany kind level maximum =>
    s!"{kind.name} rule ({kind.code}) may appear at most {maximum} times at {level.name} level"

/-- What is wrong with an entry of a recode file. -/
inductive RecodeDefect where
  | noColon
  | noGroup
  | noCodes
  | noHeader
  deriving DecidableEq, Repr

/-- The wording of a defect of a recode entry. -/
def RecodeDefect.message : RecodeDefect → String
  | .noColon => "expected 'group: ranges'"
  | .noGroup => "group code is empty"
  | .noCodes => "no codes listed"
  | .noHeader => "expected a <TREERECODE> header"

/-- What is wrong with a line of an a priori file. -/
inductive OverrideDefect where
  | noKeyword
  | notNumeric
  | unknownKeyword
  | noCell
  deriving DecidableEq, Repr

/-- The wording of a defect of an a priori line. -/
def OverrideDefect.message : OverrideDefect → String
  | .noKeyword => "missing change keyword"
  | .notNumeric => "expected a numeric value"
  | .unknownKeyword => "expected s, u, p, c or pl"
  | .noCell => "no cell codes"

/-- The kinds of input data. -/
inductive InputKind where
  | microdata
  | tableData
  deriving DecidableEq, Repr

/-- The name of a kind of input, also used in file names. -/
def InputKind.name : InputKind → String
  | .microdata => "microdata"
  | .tableData => "tabledata"

/-- What a column may serve as, besides holding data. -/
inductive Role where
  | weight
  | request
  | holding
  | frequency
  | topContributors
  | lowerProtectionLevel
  | upperProtectionLevel
  | statusIndicator
  deriving DecidableEq, Repr

/-- The name of a role in messages. -/
def Role.name : Role → String
  | .weight => "weight"
  | .request => "request"
  | .holding => "holding"
  | .frequency => "frequency"
  | .topContributors => "top contributors"
  | .lowerProtectionLevel => "lower protection level"
  | .upperProtectionLevel => "upper protection level"
  | .statusIndicator => "status indicator"

/-- The kind of input that has the role. -/
def Role.inputKind : Role → InputKind
  | .weight | .request | .holding => .microdata
  | _ => .tableData

/-- Files that a job cannot do without. -/
inductive Artifact where
  | inputData
  | metadata
  | apriori
  | treeRecode
  | output
  deriving DecidableEq, Repr

/-- The name of a file in messages. -/
def Artifact.name : Artifact → String
  | .inputData => "input data"
  | .metadata => "metadata"
  | .apriori => "a priori changes"
  | .treeRecode => "a tree recode"
  | .output => "an output file"

/-- Everything that can go wrong. -/
inductive Fault where
  | rootCodeInPath (code : String)
  | duplicateChild (parent code : String)
  | detachRoot
  | emptyIndent
  | indentJump (line depth deepest : Nat)
  | noLevels
  | zeroWidth (widths : List Nat)
  | invalidRecode (line : Nat) (text : String) (defect : RecodeDefect)
  | recodeNeedsTree
  | file (path : Path) (fault : FileFault)
  | stream (fault : FileFault)
  | unreadableCodeList (path : Path) (fault : FileFault)
  | rule (fault : RuleFault)
  | unknownColumn (column : String)
  | roleNotSupported (role : Role) (kind : InputKind)
  | notNumeric (column : String)
  | hierarchyWithoutFile (column : String)
  | codeListWithoutFile (column : String)
  | invalidOverride (line : Nat) (text : String) (defect : OverrideDefect)
  | unknownMethod (name : String)
  | repeatedColumn (name : String)
  | unequalColumns
  | unreadableTable (path : Path)
  | missingColumn (column : String)
  | noOutputPath
  | inconsistent (problems : List String)
  | noTables
  | duplicateTable (name : String)
  | unresolved (table : String) (artifact : Artifact)
  | missingArtifact (artifact : Artifact)
  | tableRule (table : String) (fault : RuleFault)
  | engineFailed (report : RunReport)

namespace Fault

/-- The wording of a fault. -/
def message : Fault → String
  | rootCodeInPath code => s!"code '{code}' is the total code and cannot start a path"
  | duplicateChild parent code => s!"'{parent}' already has a child with code '{code}'"
  | detachRoot => "the root node cannot be detached"
  | emptyIndent => "indent string must not be empty"
  | indentJump line depth deepest =>
    s!"line {line}: indentation jumps to depth {depth}, deepest open level is {deepest}"
  | noLevels => "invalid level widths []: at least one level is required"
  | zeroWidth widths =>
    "invalid level widths [" ++ ", ".intercalate (widths.map toString) ++
      "]: widths must be positive"
  | invalidRecode line text defect =>
    s!"line {line}: invalid recode entry '{text}': {defect.message}"
  | recodeNeedsTree => "recoding by level or leaves needs a code tree"
  | file path fault => s!"failed to access {path.text}: {fault.message}"
  | stream fault => s!"I/O error: {fault.message}"
  | unreadableCodeList path fault => s!"failed to parse CSV {path.text}: {fault.message}"
  | rule fault => fault.message
  | unknownColumn column => s!"column '{column}' not found in input data"
  | roleNotSupported role kind => s!"{role.name} role is not available for {kind.name} input"
  | notNumeric column => s!"column '{column}' is not numeric"
  | hierarchyWithoutFile column =>
    s!"column '{column}' has a tree hierarchy without a file; write the hierarchy first"
  | codeListWithoutFile column =>
    s!"column '{column}' has a codelist without a file; write the codelist first"
  | invalidOverride line text defect =>
    s!"line {line}: invalid override '{text}': {defect.message}"
  | unknownMethod name => s!"unknown suppression method '{name}'"
  | repeatedColumn name => s!"data frame error: column '{name}' occurs twice"
  | unequalColumns => "data frame error: columns differ in length"
  | unreadableTable path => s!"failed to read {path.text}: not a table"
  | missingColumn column => s!"column '{column}' not found in table result"
  | noOutputPath => "table has no output file; set up and run the job first"
  | inconsistent problems =>
    "Problems found in setup:" ++ String.join (problems.map ("\n- " ++ ·))
  | noTables => "job has no tables; add a table or use table data input"
  | duplicateTable name => s!"table '{name}' is defined twice"
  | unresolved table artifact =>
    s!"table '{table}' refers to {artifact.name} without a file; run setup first"
  | missingArtifact artifact => s!"{artifact.name} has no file; run setup first"
  | tableRule table fault => s!"invalid safety rule for table '{table}': {fault.message}"
  | engineFailed report => report.render

/-- The wording of what lies behind a fault, if it has a cause of its own. -/
def cause? : Fault → Option String
  | file _ fault | stream fault | unreadableCodeList _ fault => some fault.message
  | tableRule _ fault => some fault.message
  | unreadableTable _ => some "not a table"
  | _ => none

/-- The fault and what lies behind it, outermost first. -/
def chain (fault : Fault) : List String :=
  fault.message :: fault.cause?.toList

end Fault

end Disclosure
