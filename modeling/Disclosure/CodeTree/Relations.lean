import Disclosure.CodeTree.Basic

/-!
# Trees as pairs of codes

A tree can be given as pairs of a code and the code above it. An empty parent and the total code
both stand for the root. A parent that no pair has named yet is put at the top level, and one that
several nodes carry stands for the node that was named last.
-/

namespace Disclosure.CodeTree

/-- A tree that is being built from pairs: the node each code stands for now, the latest first. -/
structure Linking where
  tree : CodeTree
  known : List (String × NodeId)

/-- Makes a code below a node and notes that the code stands for it. -/
def Linking.place (l : Linking) (parent : NodeId) (code : String) : Linking × NodeId :=
  let (grown, id) := l.tree.createUnder parent [code]
  (⟨grown, (code, id) :: l.known⟩, id)

/-- Adds one pair of a code and the code above it. -/
def Linking.add (l : Linking) (pair : String × String) : Linking :=
  let child := Text.trim pair.1
  let parent := Text.trim pair.2
  if parent = "" || parent = l.tree.totalCode then (l.place root child).1
  else
    match l.known.lookup parent with
    | some id => (l.place id child).1
    | none =>
      let (grown, id) := l.place root parent
      (grown.place id child).1

/-- The tree with the given pairs. -/
def ofRelations (pairs : List (String × String)) (total : String) : CodeTree :=
  (pairs.foldl Linking.add ⟨new total, []⟩).tree

/-- Every code below the root with the code above it, in pre-order. -/
def toRelations (t : CodeTree) : List (String × String) :=
  t.content.relations t.totalCode

end Disclosure.CodeTree
