import Disclosure.CodeTree.Basic

/-!
# Drawings of code trees

A drawing shows one code a line: first the total code, then every code behind branch marks that lead
back to the code above it. The last child of a node has a mark of its own, and below it the line to
the left stays open.
-/

namespace Disclosure

/-- Draws the codes of a forest, each line starting with `lead`. -/
def Forest.draw (lead : String) : Forest String → String
  | .nil => ""
  | .cons code below next =>
    let (branch, lane) := if next.isEmpty then ("`-- ", "    ") else ("|-- ", "|   ")
    lead ++ branch ++ code ++ "\n" ++ below.draw (lead ++ lane) ++ next.draw lead

/-- The drawing of a tree. -/
def CodeTree.draw (t : CodeTree) : String :=
  t.totalCode ++ "\n" ++ t.content.draw ""

end Disclosure
