import Disclosure.CodeTree.Basic
import Disclosure.Recode.File

/-!
# Making codes coarser

Codes are mapped one by one, and a code that no rule speaks of is kept. A recoder is a list of
groups, a level of a code tree that every code below it is taken up to, or a list of codes of the
tree, each of which takes in what is below it.

A code may occur at several places of a tree. For a level, the last place in pre-order counts. For
listed codes, the first place counts at which the code above is mapped.
-/

namespace Disclosure

/-- How codes are made coarser. Level 0 is the total. -/
inductive Recoder where
  | intervals (groups : CodeGroups)
  | level (level : Nat)
  | leaves (codes : List String)
  deriving DecidableEq, Repr

namespace Forest

/-- All labels, in pre-order. -/
def labels (f : Forest α) : List α :=
  (f.preorder 1).map (·.1)

/-- Every node at depth `level` or below, with the label above it at that depth. -/
def atLevel (level : Nat) : Forest α → List (α × α)
  | .nil => []
  | .cons label below next =>
    (if level = 1 then (label, label) :: below.labels.map (·, label)
      else below.atLevel (level - 1)) ++ next.atLevel level

end Forest

namespace Recoder

/-- The group that takes a code in, if one does; the first one counts. -/
def groupOf? (groups : CodeGroups) (code : String) : Option String :=
  (groups.find? fun (_, ranges) => ranges.any (·.contains code)).map (·.1)

/-- What each code of a tree becomes at a level. -/
def levelPairs (t : CodeTree) (level : Nat) : List (String × String) :=
  if level = 0 then t.content.labels.map (·, t.totalCode) else t.content.atLevel level

/-- Adds a code to a mapping, if it is new and the code above it is mapped. -/
def inherit (mapping : List (String × String)) (pair : String × String) :
    List (String × String) :=
  match mapping.lookup pair.1, mapping.lookup pair.2 with
  | none, some target => (pair.1, target) :: mapping
  | _, _ => mapping

/-- What each code of a tree becomes when the listed codes take in what is below them. -/
def leafPairs (t : CodeTree) (codes : List String) : List (String × String) :=
  (t.content.relations t.totalCode).foldl inherit (codes.map fun code => (code, code))

/-- Maps codes one by one; recoding by level or leaves needs a tree. -/
def apply (recoder : Recoder) (tree : Option CodeTree) (codes : List String) :
    Except Fault (List String) :=
  match recoder, tree with
  | intervals groups, _ => .ok (codes.map fun code => (groupOf? groups code).getD code)
  | level n, some t =>
    .ok (codes.map fun code => ((levelPairs t n).reverse.lookup code).getD code)
  | leaves kept, some t =>
    .ok (codes.map fun code => ((leafPairs t kept).lookup code).getD code)
  | _, none => .error .recodeNeedsTree

end Recoder

end Disclosure
