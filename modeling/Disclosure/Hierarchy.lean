import Disclosure.CodeTree.Indented

/-!
# Hierarchies

The codes of a column are grouped in one of three ways. A **flat** hierarchy has only a total. A
**level** hierarchy cuts a code into groups of characters of fixed widths, each group adding one
level. A **tree** hierarchy spells the groups out as a code tree, which the engine reads from a
file. All three have a total code.
-/

namespace Disclosure

/-- Groups of characters of fixed widths. -/
structure LevelHierarchy where
  widths : List Nat
  totalCode : String
  deriving DecidableEq, Repr

namespace LevelHierarchy

/-- A level hierarchy has at least one level, and no level is without characters. -/
def ofWidths (widths : List Nat) : Except Fault LevelHierarchy :=
  if widths.isEmpty then .error .noLevels
  else if widths.contains 0 then .error (.zeroWidth widths)
  else .ok ⟨widths, defaultTotal⟩

/-- The length of a code that has all groups. -/
def codeLength (h : LevelHierarchy) : Nat :=
  h.widths.foldr (· + ·) 0

/-- Cuts a part of a text into groups. Widths count characters, while a cut is a position among the
bytes. The last group may be short, and none is empty. -/
def groups : List Nat → String.Slice → List String.Slice
  | [], _ => []
  | width :: widths, rest =>
    if rest.isEmpty then
      []
    else
      let cut := rest.startPos.nextn width
      rest.sliceTo cut :: groups widths (rest.sliceFrom cut)

/-- The groups of a code. -/
def split (h : LevelHierarchy) (code : String) : List String :=
  (groups h.widths code.toSlice).map String.Slice.copy

end LevelHierarchy

/-- A code tree, the indent its file is written with, and the file it was last read from or written
to. -/
structure TreeHierarchy (π : Type := Path) where
  tree : CodeTree
  indent : String
  path : Option π
  deriving Repr

namespace TreeHierarchy

/-- A tree hierarchy without a file. -/
def ofTree (tree : CodeTree) (indent : String) : TreeHierarchy :=
  ⟨tree, indent, none⟩

/-- The text of the hierarchy file. -/
def toText (h : TreeHierarchy) (width : Nat) : String :=
  h.tree.toIndented h.indent width

/-- Reads a hierarchy file. -/
def load (fs : FileSystem) (path : Path) (indent total : String) : Except Fault TreeHierarchy :=
  if indent = "" && fs.has path then .error .emptyIndent
  else
    match fs.read path with
    | .error fault => .error (.file path fault)
    | .ok content =>
      match CodeTree.ofIndentedLines (Text.byteLines content) indent total with
      | .error (.stream fault) => .error (.file path fault)
      | .error fault => .error fault
      | .ok tree => .ok ⟨tree, indent, path⟩

/-- Writes the hierarchy file and notes where it is. -/
def save (h : TreeHierarchy) (fs : FileSystem) (path : Path) (width : Nat) :
    Except Fault (TreeHierarchy × FileSystem) :=
  match fs.writeText path (h.toText width) with
  | .error fault => .error (.file path fault)
  | .ok written => .ok ({ h with path }, written)

end TreeHierarchy

/-- How the codes of a column are grouped. -/
inductive Hierarchy (π : Type := Path) where
  | flat (totalCode : String)
  | levels (levels : LevelHierarchy)
  | tree (tree : TreeHierarchy π)
  deriving Repr

namespace Hierarchy

variable {π : Type}

/-- Whether there is anything between the codes and the total. -/
def isHierarchical : Hierarchy π → Bool
  | flat _ => false
  | _ => true

/-- The code that stands for all codes together. -/
def totalCode : Hierarchy π → String
  | flat total => total
  | levels h => h.totalCode
  | tree h => h.tree.totalCode

/-- The same hierarchy with another total code. -/
def withTotalCode (h : Hierarchy) (total : String) : Hierarchy :=
  match h with
  | flat _ => flat total
  | levels h => levels { h with totalCode := total }
  | tree h => tree { h with tree := h.tree.setTotalCode total }

/-- The length of codes that the hierarchy asks for; a flat one asks for none. -/
def codeLength? : Hierarchy π → Option Nat
  | flat _ => none
  | levels h => some h.codeLength
  | tree h => some h.tree.codeLength

/-- The tree hierarchy, if it is one. -/
def tree? : Hierarchy → Option TreeHierarchy
  | tree h => some h
  | _ => none

end Hierarchy

end Disclosure
