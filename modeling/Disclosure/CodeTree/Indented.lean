import Disclosure.CodeTree.Basic
import Disclosure.Text.Justify
import Disclosure.Text.Line

/-!
# Trees as indented lines

A hierarchy file has one line for every code below the root, in pre-order. A line starts with as
many indents as there are codes above it, the total code not counted, and then has the code lined up
at the right.

The reader takes as many indents off a line as it can and trims the rest. Lines with nothing left
are skipped. A line may be at most one level deeper than the line before.
-/

namespace Disclosure.CodeTree

/-- The indent of files that are given none. -/
def defaultIndent : String := "@"

/-- Writes one line for every code below the root, codes lined up to `width` characters. -/
def toIndented (t : CodeTree) (indent : String) (width : Nat) : String :=
  Text.unlines <| (t.content.preorder 0).map fun (code, depth) =>
    Text.repeatText depth indent ++ Text.justifyRight width code

/-- Takes indents off the start of a line, as many as there are; gives their number and the rest. -/
def takeIndents (indent : List Char) : Nat → List Char → Nat × List Char
  | 0, cs => (0, cs)
  | fuel + 1, cs =>
    match Text.dropLead? indent cs with
    | none => (0, cs)
    | some rest =>
      let (count, rest) := takeIndents indent fuel rest
      (count + 1, rest)

/-- The depth and the code of a line; the code is empty if the line has none. -/
def readIndentedLine (indent : String) (line : String) : Nat × String :=
  let (depth, rest) := takeIndents indent.toList line.toList.length line.toList
  (depth, String.ofList (Text.trimChars rest))

/-- A tree that is being read: the node at each open level, the root first. -/
structure Reading where
  tree : CodeTree
  levels : List NodeId

/-- Puts a code at its depth below the nodes that are open. -/
def Reading.place (r : Reading) (line depth : Nat) (code : String) : Except Fault Reading :=
  match r.levels[depth]? with
  | none => .error (.indentJump line (depth + 1) (r.levels.length - 1))
  | some parent =>
    let (grown, id) := r.tree.createUnder parent [code]
    .ok ⟨grown, r.levels.take (depth + 1) ++ [id]⟩

/-- Reads numbered lines one after another; a line that is no text stops the reading. -/
def Reading.addLines (indent : String) (r : Reading) :
    List (Nat × Option String) → Except Fault Reading
  | [] => .ok r
  | (_, none) :: _ => .error (.stream .notText)
  | (line, some text) :: rest =>
    let (depth, code) := readIndentedLine indent text
    if code = "" then r.addLines indent rest
    else (r.place line depth code).bind fun r => r.addLines indent rest

/-- Reads the lines of a hierarchy file. -/
def ofIndentedLines (lines : List (Option String)) (indent total : String) :
    Except Fault CodeTree :=
  if indent = "" then .error .emptyIndent
  else
    (Reading.addLines indent ⟨new total, [root]⟩ (Text.numbered lines)).map (·.tree)

/-- Reads the text of a hierarchy file. -/
def ofIndented (text indent total : String) : Except Fault CodeTree :=
  ofIndentedLines ((Text.lines text).map some) indent total

end Disclosure.CodeTree
