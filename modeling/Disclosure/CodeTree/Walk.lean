import Disclosure.CodeTree.Basic

/-!
# Walking through a tree step by step

Whoever wants the nodes below a node one at a time takes them from a walk. It keeps a stack of nodes
that are still to come. A step takes the node on top, and puts its children on the stack from the last
to the first, so that the first one is next.
-/

namespace Disclosure.CodeTree

/-- A walk under way: the nodes that it still has to go to, each with its depth below the start. What
comes next is on top. -/
structure Walk where
  stack : List (NodeId × Nat)
  deriving DecidableEq, Repr

namespace Walk

/-- Puts nodes of one depth on the stack, the last one first. -/
def push (w : Walk) (ids : List NodeId) (depth : Nat) : Walk :=
  ⟨ids.reverse.foldl (fun stack id => (id, depth) :: stack) w.stack⟩

/-- The next node with its depth, and the walk from there on; `none` at the end. -/
def next? (t : CodeTree) (w : Walk) : Option ((NodeId × Nat) × Walk) :=
  match w.stack with
  | [] => none
  | (id, depth) :: rest => some ((id, depth), (Walk.mk rest).push (t.children id) (depth + 1))

end Walk

/-- The walk through all that is below a node. -/
def walkBelow (t : CodeTree) (id : NodeId) : Walk :=
  (Walk.mk []).push (t.children id) 1

end Disclosure.CodeTree
