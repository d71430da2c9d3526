/-!
# Statuses of cells

The engine writes a number for every cell of a table that says what became of it. Cells that failed
a safety rule and cells that protect others are suppressed: their values must not be published.
-/

namespace Disclosure

/-- What became of a cell. -/
inductive CellStatus where
  | safe
  | sensitive
  | guarded
  | secondary
  | empty
  | unknown
  deriving DecidableEq, Repr

namespace CellStatus

/-- All statuses, in the order in which they are counted. -/
def all : List CellStatus :=
  [safe, sensitive, guarded, secondary, empty, unknown]

/-- The letter of a status. -/
def letter : CellStatus → String
  | safe => "S"
  | sensitive => "U"
  | guarded => "P"
  | secondary => "M"
  | empty => "Z"
  | unknown => "?"

/-- The name of a status. -/
def name : CellStatus → String
  | safe => "safe"
  | sensitive => "unsafe"
  | guarded => "protected"
  | secondary => "secondary unsafe"
  | empty => "empty"
  | unknown => "unknown"

/-- Whether the value of the cell must not be published. -/
def isSuppressed : CellStatus → Bool
  | sensitive | secondary => true
  | _ => false

/-- The status that a number stands for. -/
def ofCode (code : Int) : CellStatus :=
  if code = 1 ∨ code = 2 then safe
  else if (3 ≤ code ∧ code ≤ 6) ∨ code = 9 then sensitive
  else if code = 10 then guarded
  else if code = 11 ∨ code = 12 then secondary
  else if code = 13 ∨ code = 14 then empty
  else unknown

end CellStatus

end Disclosure
