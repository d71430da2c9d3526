import Disclosure.Fault
import Disclosure.Text.Justify
import Disclosure.Text.Line

/-!
# Recode files

A recode file says how codes are made coarser, in one of two ways. Behind the header `<TREERECODE>`
it lists the codes of a code tree that are kept, one a line. Without the header, each line names a
group and, behind a colon, the codes that go into it: single codes and ranges, with commas between
them.
-/

namespace Disclosure

/-- A range of codes, both ends included. -/
structure CodeInterval where
  start : String
  stop : String
  deriving DecidableEq, Repr

namespace CodeInterval

/-- The range of a single code. -/
def single (code : String) : CodeInterval := ⟨code, code⟩

/-- Codes are compared character by character. -/
def contains (i : CodeInterval) (code : String) : Bool :=
  i.start ≤ code && code ≤ i.stop

end CodeInterval

/-- Groups with the codes that go into them. -/
abbrev CodeGroups := List (String × List CodeInterval)

/-- The codes of a code tree that are kept, and the file they were last read from or written to. -/
structure TreeRecode where
  codes : List String
  path : Option Path
  deriving DecidableEq, Repr

/-- What a recode file says. -/
inductive RecodeFile where
  | tree (recode : TreeRecode)
  | intervals (groups : CodeGroups)
  deriving DecidableEq, Repr

/-- The line that files with kept codes start with. -/
def treeRecodeHeader : String := "<TREERECODE>"

namespace RecodeFile

/-- Reads a code or a range of codes. -/
def readInterval (cs : List Char) : CodeInterval :=
  match Text.cutAt? '-' cs with
  | some (start, stop) =>
    ⟨String.ofList (Text.trimChars start), String.ofList (Text.trimChars stop)⟩
  | none => .single (String.ofList cs)

/-- Reads the codes and ranges behind the colon; empty ones are skipped. -/
def readIntervals (cs : List Char) : List CodeInterval :=
  (((Text.piecesAt ',' cs).map Text.trimChars).filter (· != [])).map readInterval

/-- Reads a trimmed line with a group. -/
def readGroup (cs : List Char) : Except RecodeDefect (String × List CodeInterval) :=
  match Text.cutAt? ':' cs with
  | none => .error .noColon
  | some (group, ranges) =>
    if Text.trimChars group = [] then .error .noGroup
    else if readIntervals ranges = [] then .error .noCodes
    else .ok (String.ofList (Text.trimChars group), readIntervals ranges)

/-- Reads numbered lines with groups. -/
def readGroups : List (Nat × String) → Except Fault CodeGroups
  | [] => .ok []
  | (number, line) :: rest =>
    let text := Text.trim line
    if text = "" then readGroups rest
    else
      match readGroup text.toList with
      | .error defect => .error (.invalidRecode number text defect)
      | .ok group => (readGroups rest).map (group :: ·)

/-- Reads the text of a recode file. -/
def ofText (text : String) : Except Fault RecodeFile :=
  let lines := Text.lines text
  match (lines.map Text.trim).filter (· != "") with
  | [] => .ok (.intervals [])
  | first :: rest =>
    if first = treeRecodeHeader then .ok (.tree ⟨rest, none⟩)
    else (readGroups (Text.numbered lines)).map .intervals

/-- Reads a recode file. -/
def load (fs : FileSystem) (path : Path) : Except Fault RecodeFile :=
  match fs.readText path with
  | .error fault => .error (.file path fault)
  | .ok text =>
    (ofText text).map fun
      | .tree recode => .tree { recode with path }
      | other => other

end RecodeFile

namespace TreeRecode

/-- Kept codes without a file. -/
def ofCodes (codes : List String) : TreeRecode := ⟨codes, none⟩

/-- The text of the recode file, codes lined up to `width` characters. -/
def toText (r : TreeRecode) (width : Nat) : String :=
  Text.unlines (treeRecodeHeader :: r.codes.map (Text.justifyRight width))

/-- Writes the recode file and notes where it is. -/
def save (r : TreeRecode) (fs : FileSystem) (path : Path) (width : Nat) :
    Except Fault (TreeRecode × FileSystem) :=
  match fs.writeText path (r.toText width) with
  | .error fault => .error (.file path fault)
  | .ok written => .ok ({ r with path }, written)

/-- Reads a recode file that has to list kept codes. -/
def load (fs : FileSystem) (path : Path) : Except Fault TreeRecode :=
  (RecodeFile.load fs path).bind fun
    | .tree recode => .ok recode
    | .intervals _ => .error (.invalidRecode 1 path.text .noHeader)

end TreeRecode

end Disclosure
