import Disclosure.CodeList
import Disclosure.Frame.Basic
import Disclosure.Hierarchy

/-!
# Columns

What the engine has to know about a column of the input, besides its values: how its codes are
grouped and labelled, which markers stand for missing values, and how wide its codes are.

The **length** of a column is the first of these that there is: a length given by hand, the length
of codes that the hierarchy asks for, the longest code of the code list, the longest text value, and
last 1 for booleans and 20 for everything else. It may be remembered once it is known, and every
change that could make it wrong forgets it.

A **total code** given by hand belongs to the column rather than to its hierarchy: it stays when the
hierarchy is exchanged.
-/

namespace Disclosure

/-- What kind of values a column holds. -/
inductive ValueKind where
  | integer
  | fractional
  | boolean
  | text
  deriving DecidableEq, Repr

namespace ValueKind

/-- The kind of the values of a frame column. -/
def ofValues : Values → ValueKind
  | .text _ => text
  | .boolean _ => boolean
  | .integer .. => integer
  | .double _ | .single _ => fractional

/-- Everything but text can be summed; booleans count as 0 and 1. -/
def isNumeric (k : ValueKind) : Bool :=
  k != text

/-- The name of a kind. -/
def name : ValueKind → String
  | integer => "integer"
  | fractional => "fractional"
  | boolean => "boolean"
  | text => "text"

end ValueKind

/-- A column of the input. -/
structure Column (π : Type := Path) where
  name : String
  kind : ValueKind
  decimals : Nat
  hierarchy : Hierarchy π
  codeList : Option (CodeList π)
  explicitTotal : Bool
  explicitLength : Option Nat
  valueLength : Option Nat
  resolvedLength : Option Nat
  missing : List String

namespace Column

variable {π : Type}

/-- The decimal places of columns that are given none. -/
def defaultDecimals : Nat := 15

/-- The length of columns about which nothing is known. -/
def defaultLength : Nat := 20

/-- A column about which only its kind is known. -/
def new (name : String) (kind : ValueKind) : Column π where
  name := name
  kind := kind
  decimals := defaultDecimals
  hierarchy := .flat defaultTotal
  codeList := none
  explicitTotal := false
  explicitLength := none
  valueLength := none
  resolvedLength := none
  missing := []

/-- The length of the longest text, if there is a text at all. -/
def longestText? : Values → Option Nat
  | .text values => (values.reduceOption.map (·.length)).max?
  | _ => none

/-- The column of a frame. -/
def ofSeries (s : Series) : Column :=
  { new s.name (.ofValues s.values) with valueLength := longestText? s.values }

/-- Whether the values can be summed. -/
def isNumeric (c : Column π) : Bool :=
  c.kind.isNumeric

/-- The decimal places, for columns of fractional numbers. -/
def decimals? (c : Column π) : Option Nat :=
  if c.kind = .fractional then some c.decimals else none

/-- The code that stands for all codes together. -/
def totalCode (c : Column π) : String :=
  c.hierarchy.totalCode

/-- A column can be recoded when it has a hierarchy, or a total code given by hand. -/
def isRecodable (c : Column π) : Bool :=
  c.hierarchy.isHierarchical || c.explicitTotal

/-! ## The length -/

/-- The length as it follows from everything that is known now. -/
def resolveLength (c : Column π) : Nat :=
  (c.explicitLength <|> c.hierarchy.codeLength? <|> c.codeList.map CodeList.codeLength <|>
    c.valueLength).getD (if c.kind = .boolean then 1 else defaultLength)

/-- The length, as remembered or else resolved. -/
def length (c : Column π) : Nat :=
  c.resolvedLength.getD c.resolveLength

/-- Remembers the length. -/
def measure (c : Column) : Column :=
  { c with resolvedLength := some c.length }

/-- Forgets the length. -/
def forgetLength (c : Column) : Column :=
  { c with resolvedLength := none }

/-! ## Changes -/

/-- Sets the decimal places of a column of numbers. -/
def setDecimals (c : Column) (decimals : Nat) : Except Fault Column :=
  if c.isNumeric then .ok { c with decimals } else .error (.notNumeric c.name)

/-- Changes the hierarchy in place, and forgets the length. -/
def editHierarchy (c : Column) (edit : Hierarchy → Hierarchy) : Column :=
  { c with hierarchy := edit c.hierarchy }.forgetLength

/-- Exchanges the hierarchy. A total code given by hand stays. -/
def setHierarchy (c : Column) (hierarchy : Hierarchy) : Column :=
  let kept := if c.explicitTotal then hierarchy.withTotalCode c.totalCode else hierarchy
  { c with hierarchy := kept }.forgetLength

/-- Gives the column a total code by hand. -/
def setTotalCode (c : Column) (total : String) : Column :=
  { c with hierarchy := c.hierarchy.withTotalCode total, explicitTotal := true }

/-- Sets or clears the code list. -/
def setCodeList (c : Column) (codeList : Option CodeList) : Column :=
  { c with codeList }.forgetLength

/-- Changes the code list in place, and forgets the length. -/
def editCodeList (c : Column) (edit : CodeList → CodeList) : Column :=
  { c with codeList := c.codeList.map edit }.forgetLength

/-- Sets or clears the length given by hand. -/
def setLength (c : Column) (length : Option Nat) : Column :=
  { c with explicitLength := length }.forgetLength

/-- Adds a marker for missing values, unless it is there already. -/
def addMissing (c : Column) (marker : String) : Column :=
  if c.missing.contains marker then c else { c with missing := c.missing ++ [marker] }

/-- Sets the markers for missing values; a marker that comes again is left out. -/
def setMissing (c : Column) (markers : List String) : Column :=
  markers.foldl addMissing { c with missing := [] }

/-! ## The lines of the metadata file -/

variable [FileReference π]

/-- The first line: the name, the length if asked for, and the markers for missing values. -/
def headerLine (c : Column π) (withLength : Bool) : String :=
  " ".intercalate <|
    c.name :: ((if withLength then [toString c.length] else []) ++
      (if c.missing.isEmpty then [] else [" ".intercalate c.missing]))

/-- The lines about numbers. -/
def numericLines (c : Column π) : List String :=
  if c.isNumeric then
    "\t<NUMERIC>" :: (c.decimals?.map fun decimals => s!"\t<DECIMALS> {decimals}").toList
  else []

/-- The lines about the hierarchy; a tree needs a file. -/
def hierarchyLines (c : Column π) : Except Fault (List String) :=
  match c.hierarchy with
  | .flat _ => .ok []
  | .levels h =>
    .ok ["\t<HIERARCHICAL>", "\t<HIERLEVELS> " ++ " ".intercalate (h.widths.map toString)]
  | .tree h =>
    match h.path with
    | none => .error (.hierarchyWithoutFile c.name)
    | some path =>
      .ok ["\t<HIERARCHICAL>", "\t<HIERCODELIST> " ++ FileReference.shown path,
        "\t<HIERLEADSTRING> " ++ h.indent]

/-- The lines about recoding. -/
def recodeLines (c : Column π) : Except Fault (List String) :=
  if c.isRecodable then
    c.hierarchyLines.map fun lines => ["\t<RECODABLE>", "\t<TOTCODE> " ++ c.totalCode] ++ lines
  else .ok []

/-- The line about the code list, which needs a file. -/
def codeListLines (c : Column π) : Except Fault (List String) :=
  match c.codeList with
  | none => .ok []
  | some codeList =>
    match codeList.path with
    | none => .error (.codeListWithoutFile c.name)
    | some path => .ok ["\t<CODELIST> " ++ FileReference.shown path]

/-- All lines about the column, apart from its roles. -/
def metadataLines (c : Column π) (withLength : Bool) : Except Fault (List String) := do
  let recode ← c.recodeLines
  let codes ← c.codeListLines
  pure (c.headerLine withLength :: (c.numericLines ++ recode ++ codes))

end Column

end Disclosure
