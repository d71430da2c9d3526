import Disclosure.Decimal.Reading
import Disclosure.Fault
import Disclosure.Text.Line

/-!
# Changes to single cells

Before the engine protects a table, single cells of it can be changed by hand: set safe, unsafe or
protected, or given another cost or protection level. A line of an a priori file names a cell by its
codes and then says the change, with a separator between all parts:

```text
A,3,s
A,3,c,5
A,3,pl,20
```

On reading, parts are trimmed, and the case of keywords does not matter.
-/

namespace Disclosure

/-- A status that a cell can be given. -/
inductive OverrideStatus where
  | safe
  | sensitive
  | guarded
  deriving DecidableEq, Repr

namespace OverrideStatus

/-- The letter a status is written as. -/
def letter : OverrideStatus → String
  | safe => "s"
  | sensitive => "u"
  | guarded => "p"

/-- The status a letter stands for, in any case. -/
def ofLetter? (letter : String) : Option OverrideStatus :=
  match Text.lower letter with
  | "s" => some safe
  | "u" => some sensitive
  | "p" => some guarded
  | _ => none

end OverrideStatus

/-- What happens to a cell. -/
inductive CellChange where
  | status (status : OverrideStatus)
  | cost (cost : Float)
  | protectionLevel (level : Float)
  deriving BEq

/-- The parts a change is written as. -/
def CellChange.fields : CellChange → List String
  | status s => [s.letter]
  | cost x => ["c", numberText x]
  | protectionLevel x => ["pl", numberText x]

/-- A cell, named by its codes, and what happens to it. -/
structure CellOverride where
  cell : List String
  change : CellChange
  deriving BEq

/-- Changes to cells in order, the separator they are written with, what the engine is told about
them, and the file they were last read from or written to. -/
structure CellOverrides where
  changes : List CellOverride
  separator : String
  ignoreError : Bool
  expandTrivial : Bool
  path : Option Path

namespace CellOverrides

/-- The separator of files that are given none. -/
def defaultSeparator : String := ","

/-- No changes. -/
def empty (separator : String) : CellOverrides :=
  ⟨[], separator, false, true, none⟩

/-- Adds a change at the end. -/
def add (o : CellOverrides) (cell : List String) (change : CellChange) : CellOverrides :=
  { o with changes := o.changes ++ [⟨cell, change⟩] }

/-- Two sets of changes are the same when they say the same, wherever their files are. -/
def same (o p : CellOverrides) : Bool :=
  o.changes == p.changes && o.separator == p.separator && o.ignoreError == p.ignoreError &&
    o.expandTrivial == p.expandTrivial

/-- The line of one change. -/
def line (separator : String) (o : CellOverride) : String :=
  separator.intercalate (o.cell ++ o.change.fields)

/-- The text of the a priori file. -/
def toText (o : CellOverrides) : String :=
  Text.unlines (o.changes.map (line o.separator))

/-- A change needs a cell. -/
def forCell (cell : List String) (change : CellChange) : Except OverrideDefect CellOverride :=
  if cell.isEmpty then .error .noCell else .ok ⟨cell, change⟩

/-- Reads the change at the end of a row of parts, the last part first. -/
def readReversed : List String → Except OverrideDefect CellOverride
  | [] => .error .noCell
  | last :: before =>
    match OverrideStatus.ofLetter? last with
    | some status => forCell before.reverse (.status status)
    | none =>
      match before with
      | [] => .error .noKeyword
      | keyword :: cell =>
        match readFloat? last with
        | none => .error .notNumeric
        | some value =>
          match Text.lower keyword with
          | "c" => forCell cell.reverse (.cost value)
          | "pl" => forCell cell.reverse (.protectionLevel value)
          | _ => .error .unknownKeyword

/-- Reads one line. -/
def readLine (separator line : String) : Except OverrideDefect CellOverride :=
  readReversed ((Text.splitOnText separator line).map Text.trim).reverse

/-- Reads numbered lines; blank ones are skipped. -/
def readLines (separator : String) : List (Nat × String) → Except Fault (List CellOverride)
  | [] => .ok []
  | (number, line) :: rest =>
    if Text.trim line = "" then readLines separator rest
    else
      match readLine separator line with
      | .error defect => .error (.invalidOverride number line defect)
      | .ok change => (readLines separator rest).map (change :: ·)

/-- Reads the text of an a priori file. -/
def ofText (text separator : String) : Except Fault CellOverrides :=
  (readLines separator (Text.numbered (Text.lines text))).map fun changes =>
    { empty separator with changes }

/-- Reads an a priori file. -/
def load (fs : FileSystem) (path : Path) (separator : String) : Except Fault CellOverrides :=
  match fs.readText path with
  | .error fault => .error (.file path fault)
  | .ok text => (ofText text separator).map fun o => { o with path }

/-- Writes the a priori file and notes where it is. -/
def save (o : CellOverrides) (fs : FileSystem) (path : Path) :
    Except Fault (CellOverrides × FileSystem) :=
  match fs.writeText path o.toText with
  | .error fault => .error (.file path fault)
  | .ok written => .ok ({ o with path }, written)

end CellOverrides

end Disclosure
