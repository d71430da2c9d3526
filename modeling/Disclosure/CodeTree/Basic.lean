import Disclosure.Fault
import Disclosure.Forest

/-!
# Code trees

The codes of a variable roll up into totals. A code tree keeps this as a store of numbered nodes:
node 0 is the root and carries the total code, and every node that is ever made takes the next
number. A number is never used again, so it stays a good handle on its node whatever happens to the
tree around it.

A node knows its parent and its children. The two links are kept in step by every operation here:
**creating** walks down a path and makes what is missing, **detaching** cuts one link and hands out
a copy of the part below, and **appending** grafts a copy of another tree. Siblings have different
codes throughout.

The length of the longest code below the root is asked for often and changes seldom, so it may be
remembered in the tree. Every change that could make it wrong forgets it.
-/

namespace Disclosure

/-- The number of a node in its tree. -/
abbrev NodeId := Nat

/-- A node: its code, and the links to the nodes around it. -/
structure CodeNode where
  code : String
  parent : Option NodeId
  children : List NodeId
  deriving DecidableEq, Repr, Inhabited

/-- A tree of codes. -/
structure CodeTree where
  nodes : Array CodeNode
  measured : Option Nat
  deriving DecidableEq, Repr, Inhabited

/-- The total code of trees that are given none. -/
def defaultTotal : String := "Total"

namespace CodeTree

/-- The number of the root. -/
def root : NodeId := 0

/-- A tree with nothing below its root. -/
def new (total : String) : CodeTree :=
  ⟨#[⟨total, none, []⟩], none⟩

/-! ## Looking at a node -/

/-- The code of a node. -/
def code (t : CodeTree) (id : NodeId) : String :=
  (t.nodes[id]?.map (·.code)).getD ""

/-- The node right above a node; the root and detached nodes have none. -/
def parent? (t : CodeTree) (id : NodeId) : Option NodeId :=
  t.nodes[id]?.bind (·.parent)

/-- The nodes right below a node, in order. -/
def children (t : CodeTree) (id : NodeId) : List NodeId :=
  (t.nodes[id]?.map (·.children)).getD []

/-- The code of the root. -/
def totalCode (t : CodeTree) : String :=
  t.code root

/-- The child of a node with a given code. -/
def child? (t : CodeTree) (id : NodeId) (code : String) : Option NodeId :=
  (t.children id).find? fun child => t.code child = code

/-- Whether nothing is below a node. -/
def isLeaf (t : CodeTree) (id : NodeId) : Bool :=
  (t.children id).isEmpty

/-- The nodes above a node, from its parent up. A parent has a smaller number than its children, so
the number of nodes bounds the way. -/
def ancestors (t : CodeTree) (id : NodeId) : List NodeId :=
  climb t.nodes.size id
where
  climb : Nat → NodeId → List NodeId
    | 0, _ => []
    | fuel + 1, id =>
      match t.parent? id with
      | none => []
      | some parent => parent :: climb fuel parent

/-- How many nodes are above a node. -/
def depth (t : CodeTree) (id : NodeId) : Nat :=
  (t.ancestors id).length

/-- The codes from the top level down to a node, without the total code. -/
def pathOf (t : CodeTree) (id : NodeId) : List String :=
  ((id :: t.ancestors id).dropLast.map t.code).reverse

/-- The node at the end of a path of codes that starts at `id`. -/
def follow? (t : CodeTree) (id : NodeId) : List String → Option NodeId
  | [] => some id
  | code :: rest => (t.child? id code).bind fun child => t.follow? child rest

/-- The node at the end of a path of codes from the root. -/
def get? (t : CodeTree) (path : List String) : Option NodeId :=
  t.follow? root path

/-! ## Everything below a node -/

/-- The nodes below the given ones, for `fuel` levels. -/
def forestOf (t : CodeTree) : Nat → List NodeId → Forest NodeId
  | 0, _ => .nil
  | fuel + 1, ids =>
    ids.foldr (fun id next => .cons id (t.forestOf fuel (t.children id)) next) .nil

/-- The nodes below a node. There are fewer levels than nodes. -/
def below (t : CodeTree) (id : NodeId) : Forest NodeId :=
  t.forestOf t.nodes.size (t.children id)

/-- The codes below a node. -/
def codesBelow (t : CodeTree) (id : NodeId) : Forest String :=
  (t.below id).map t.code

/-- The codes below the root: what the tree says, apart from its total code. -/
def content (t : CodeTree) : Forest String :=
  t.codesBelow root

/-- The nodes below a node in pre-order, each with its depth below that node. -/
def descendants (t : CodeTree) (id : NodeId) : List (NodeId × Nat) :=
  (t.below id).preorder 1

/-- How many nodes are below the root. -/
def size (t : CodeTree) : Nat :=
  (t.descendants root).length

/-- Whether nothing is below the root. -/
def isEmpty (t : CodeTree) : Bool :=
  t.isLeaf root

/-- The nodes with nothing below them, from left to right; the root is never one of them. -/
def leaves (t : CodeTree) : List NodeId :=
  (t.below root).leaves

/-- Two trees are the same when they have the same total code and the same codes below it, whatever
the numbers of their nodes. -/
def same (s t : CodeTree) : Bool :=
  s.totalCode = t.totalCode && s.content = t.content

/-! ## The length of codes -/

/-- The number of characters in the longest code below the root. -/
def longestCode (t : CodeTree) : Nat :=
  ((t.descendants root).map fun (id, _) => (t.code id).length).foldl max 0

/-- The length of the longest code, as remembered or else measured. -/
def codeLength (t : CodeTree) : Nat :=
  t.measured.getD t.longestCode

/-- Remembers the length of the longest code. -/
def measure (t : CodeTree) : CodeTree :=
  { t with measured := some t.codeLength }

/-! ## Changing a tree -/

/-- Gives a node another code, and forgets the length of codes. -/
def setCode (t : CodeTree) (id : NodeId) (code : String) : CodeTree :=
  ⟨t.nodes.modify id fun node => { node with code }, none⟩

/-- Gives the root another code. The total code does not count for the length of codes. -/
def setTotalCode (t : CodeTree) (code : String) : CodeTree :=
  { t with nodes := t.nodes.modify root fun node => { node with code } }

/-- Makes a node as the last child of another. -/
def pushChild (t : CodeTree) (parent : NodeId) (code : String) : CodeTree × NodeId :=
  let id := t.nodes.size
  let linked := t.nodes.modify parent fun node => { node with children := node.children ++ [id] }
  (⟨linked.push ⟨code, some parent, []⟩, none⟩, id)

/-- Walks down from a node along a path, making the nodes that are missing. -/
def createUnder (t : CodeTree) (id : NodeId) : List String → CodeTree × NodeId
  | [] => (t, id)
  | code :: rest =>
    match t.child? id code with
    | some child => t.createUnder child rest
    | none =>
      let (grown, child) := t.pushChild id code
      grown.createUnder child rest

/-- Walks down from the root along a path, making the nodes that are missing. A path cannot start
with the total code. -/
def create (t : CodeTree) (path : List String) : Except Fault (CodeTree × NodeId) :=
  match path with
  | code :: _ =>
    if code = t.totalCode then .error (.rootCodeInPath code) else .ok (t.createUnder root path)
  | [] => .ok (t, root)

/-- Gives a node another code, unless a sibling has it already. -/
def rename (t : CodeTree) (id : NodeId) (code : String) : Except Fault CodeTree :=
  match t.parent? id with
  | none => .ok (t.setCode id code)
  | some parent =>
    match t.child? parent code with
    | none => .ok (t.setCode id code)
    | some other =>
      if other = id then .ok (t.setCode id code)
      else .error (.duplicateChild (t.code parent) code)

/-- Makes new nodes below a node, with the codes of a forest. -/
def graft (t : CodeTree) (parent : NodeId) : Forest String → CodeTree
  | .nil => t
  | .cons code below next =>
    let (grown, id) := t.pushChild parent code
    (grown.graft id below).graft parent next

/-- A tree of its own with the code of a node and what is below it. -/
def copyOf (t : CodeTree) (id : NodeId) : CodeTree :=
  (new (t.code id)).graft root (t.codesBelow id)

/-- Cuts the link between a node and its parent. -/
def unlink (t : CodeTree) (parent id : NodeId) : CodeTree :=
  let cut := t.nodes.modify parent fun node =>
    { node with children := node.children.filter (· != id) }
  ⟨cut.modify id fun node => { node with parent := none }, none⟩

/-- Takes a node and what is below it out of the tree. Gives the tree that is left and a copy of the
part; the node itself stays in the store, without a parent. -/
def detach (t : CodeTree) (id : NodeId) : Except Fault (CodeTree × CodeTree) :=
  match t.parent? id with
  | none => .error .detachRoot
  | some parent => .ok (t.unlink parent id, t.copyOf id)

/-- Grafts a copy of another tree below a node, its root becoming the last child. -/
def append (t : CodeTree) (parent : NodeId) (part : CodeTree) :
    Except Fault (CodeTree × NodeId) :=
  match t.child? parent part.totalCode with
  | some _ => .error (.duplicateChild (t.code parent) part.totalCode)
  | none =>
    let (grown, id) := t.pushChild parent part.totalCode
    .ok (grown.graft id part.content, id)

end CodeTree

end Disclosure
