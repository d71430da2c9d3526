/-!
# Forests

A forest is a row of trees, each a label with a forest below it. It is the plain content of a code
tree: what a tree looks like from outside, without the numbers its nodes carry.
-/

namespace Disclosure

/-- A row of labelled trees: the first tree's label, what is below it, and the trees after it. -/
inductive Forest (α : Type u) where
  | nil
  | cons (label : α) (below next : Forest α)
  deriving DecidableEq, Repr

namespace Forest

variable {α β : Type}

/-- Relabels every node. -/
def map (f : α → β) : Forest α → Forest β
  | nil => nil
  | cons label below next => cons (f label) (below.map f) (next.map f)

/-- Whether there is no tree at all. -/
def isEmpty : Forest α → Bool
  | nil => true
  | cons .. => false

/-- Every label with its depth, each before those below it and those after it. The trees of the
forest itself are at depth `depth`. -/
def preorder (depth : Nat) : Forest α → List (α × Nat)
  | nil => []
  | cons label below next => (label, depth) :: (below.preorder (depth + 1) ++ next.preorder depth)

/-- The labels with nothing below them, from left to right. -/
def leaves : Forest α → List α
  | nil => []
  | cons label below next =>
    (if below.isEmpty then [label] else below.leaves) ++ next.leaves

/-- The rows of labels from the top down to each leaf. -/
def rows : Forest α → List (List α)
  | nil => []
  | cons label below next =>
    (if below.isEmpty then [[label]] else below.rows.map (label :: ·)) ++ next.rows

/-- Every label with the label right above it; `parent` stands above the whole forest. -/
def relations (parent : α) : Forest α → List (α × α)
  | nil => []
  | cons label below next => (label, parent) :: (below.relations label ++ next.relations parent)

end Forest

end Disclosure
