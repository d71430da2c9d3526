import Disclosure.Override
import Disclosure.Recode.File
import Disclosure.Rule.Composition
import Disclosure.Suppression

/-!
# Tables

A table says what is tabulated and how it is protected: the variables that span it, the response
that is summed in its cells, rules that tell unsafe cells, changes to single cells, recodes, and the
method that chooses further cells to suppress. A table without a response counts contributors.
-/

namespace Disclosure

/-- What the cells of a table hold. -/
inductive Response where
  | frequency
  | column (name : String)
  deriving DecidableEq, Repr

namespace Response

/-- The name that stands for counting contributors. -/
def frequencyName : String := "<freq>"

/-- The response with a given name. -/
def ofName (name : String) : Response :=
  if name = frequencyName then frequency else column name

/-- The column that is summed. -/
def column? : Response → Option String
  | frequency => none
  | column name => some name

/-- The column of the response in files that the engine writes. -/
def resultColumn : Response → String
  | frequency => "Freq"
  | column name => name

end Response

/-- What it costs to suppress a cell. -/
inductive Cost where
  | column (name : String)
  | frequency
  | unity
  | distance
  deriving DecidableEq, Repr

namespace Cost

/-- The column that holds the costs. -/
def column? : Cost → Option String
  | column name => some name
  | _ => none

/-- The engine's number for costs that are not in a column. -/
def code? : Cost → Option Int
  | column _ => none
  | frequency => some (-1)
  | unity => some (-2)
  | distance => some (-3)

end Cost

/-- How the codes of a variable are made coarser in one table: as a file says, to a number of
levels, or to listed codes of its tree, for which a file is still to be written. -/
inductive Recode where
  | file (path : Path)
  | level (level : Nat)
  | tree (recode : TreeRecode)
  deriving DecidableEq, Repr

/-- One table to protect. -/
structure Table where
  explanatory : List String
  response : Response
  shadow : Option String
  cost : Option Cost
  lambda : Option Float
  rules : RuleSet
  overrides : Option CellOverrides
  recodes : List (String × Recode)
  suppression : Option Suppression
  writeOptions : List (String × Bool)
  outputPath : Option Path

namespace Table

/-- A table that is not protected in any way. -/
def new (explanatory : List String) (response : Response) : Table where
  explanatory := explanatory
  response := response
  shadow := none
  cost := none
  lambda := none
  rules := .empty
  overrides := none
  recodes := []
  suppression := none
  writeOptions := [("AS", true)]
  outputPath := none

/-- Turns an option for the written table on or off, at its place if it is there already. -/
def setWriteOption (t : Table) (key : String) (on : Bool) : Table :=
  { t with writeOptions := put t.writeOptions }
where
  put : List (String × Bool) → List (String × Bool)
    | [] => [(key, on)]
    | (other, old) :: rest =>
      if other = key then (other, on) :: rest else (other, old) :: put rest

/-- The variables whose codes matter: those that span the table, and those that are recoded. -/
def categoricalVariables (t : Table) : List String :=
  t.explanatory ++ t.recodes.map (·.1)

/-- The variables whose values are summed: response, shadow and cost. -/
def numericVariables (t : Table) : List String :=
  t.response.column?.toList ++ t.shadow.toList ++ (t.cost.bind Cost.column?).toList

/-- All variables of the table. -/
def allVariables (t : Table) : List String :=
  t.categoricalVariables ++ t.numericVariables

end Table

end Disclosure
