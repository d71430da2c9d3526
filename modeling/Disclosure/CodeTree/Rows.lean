import Disclosure.CodeTree.Basic

/-!
# Trees as rows

A tree can be given as rows of codes, each leading from the top level down. Cells are trimmed and
empty ones are skipped, so rows may be padded. Rows that start alike share their nodes.
-/

namespace Disclosure.CodeTree

/-- The codes of a row: its cells trimmed, without the empty ones. -/
def cleanRow (row : List String) : List String :=
  (row.map Text.trim).filter (· != "")

/-- The tree that has the given rows as paths. -/
def ofRows (rows : List (List String)) (total : String) : CodeTree :=
  rows.foldl (fun t row => (t.createUnder root (cleanRow row)).1) (new total)

/-- The paths to the leaves, from left to right. -/
def toRows (t : CodeTree) : List (List String) :=
  t.content.rows

end Disclosure.CodeTree
