import Disclosure.Grid.Wrapping

/-!
# Grids and the widths of their columns

A grid is shown on a terminal: titled columns and rows of cells, each cell one or more lines of
text. If it fits, every column is as wide as its widest line. Otherwise the columns that need no
more than an equal share get what they need. Of the rest, those that would leave three places or
more of their share empty when wrapped get what they need then, and the others share what is left.
-/

namespace Disclosure

/-- Where the text of a column stands. -/
inductive Alignment where
  | left
  | centre
  | right
  deriving DecidableEq, Repr

/-- Titled columns and rows of cells. -/
structure Grid where
  columns : List (String × Alignment)
  rows : List (List String)

namespace Grid

/-- The cells of each column from top to bottom, with its title. -/
def columnCells (g : Grid) : List (List String) :=
  g.columns.zipIdx.map fun ((title, _), index) => title :: g.rows.map fun row => row.getD index ""

/-- The widest of some lines. -/
def widest (lines : List (List Char)) : Nat :=
  (lines.map Text.charsWidth).foldl max 0

/-- What a column needs to be shown without wrapping, one place at least. -/
def unwrappedWidth (cells : List String) : Nat :=
  max 1 (widest (cells.flatMap fun cell => Text.piecesAt '\n' cell.toList))

/-- What a column needs when its lines are wrapped at some width. -/
def wrappedWidth (width : Nat) (cells : List String) : Nat :=
  widest (cells.flatMap (cellLines width))

/-- The places that are left between the bars of a grid and the two blanks around each cell. -/
def room (limit columns : Nat) : Nat :=
  limit - (columns + 1) - 2 * columns

/-! ## Sharing -/

/-- Places to share, and the columns with the widths that are settled. -/
structure Sharing where
  left : Nat
  columns : List (List String × Option Nat)

namespace Sharing

/-- How many columns have no width yet. -/
def undecided (s : Sharing) : Nat :=
  s.columns.countP (·.2.isNone)

/-- Goes through the columns and settles those that `choose` gives a width for, seeing the equal
share of the places that are left at that moment. -/
def sweep (choose : Nat → List String → Option Nat) : Sharing → Sharing
  | ⟨left, columns⟩ => go left (Sharing.mk left columns).undecided columns
where
  go (left undecided : Nat) : List (List String × Option Nat) → Sharing
    | [] => ⟨left, []⟩
    | (cells, some width) :: rest =>
      let s := go left undecided rest
      { s with columns := (cells, some width) :: s.columns }
    | (cells, none) :: rest =>
      match choose (left / undecided) cells with
      | none =>
        let s := go left undecided rest
        { s with columns := (cells, none) :: s.columns }
      | some width =>
        let s := go (left - width) (undecided - 1) rest
        { s with columns := (cells, some width) :: s.columns }

/-- Sweeps until nothing is settled any more. -/
def settle (choose : Nat → List String → Option Nat) : Nat → Sharing → Sharing
  | 0, s => s
  | fuel + 1, s =>
    let t := s.sweep choose
    if t.undecided = s.undecided then t else settle choose fuel t

/-- The width of a column that needs no more than its share. -/
def fitting (share : Nat) (cells : List String) : Option Nat :=
  let width := unwrappedWidth cells
  if width ≤ share then some width else none

/-- The width of a column that leaves much of its share empty when it is wrapped. -/
def sparing (share : Nat) (cells : List String) : Option Nat :=
  let width := wrappedWidth share cells
  if 3 ≤ share - width then some width else none

/-- Gives every column a width, the columns on the left getting what cannot be shared equally. -/
def distribute (share : Nat) : Nat → List (List String × Option Nat) → List Nat
  | _, [] => []
  | extra, (_, some width) :: rest => width :: distribute share extra rest
  | 0, (_, none) :: rest => share :: distribute share 0 rest
  | extra + 1, (_, none) :: rest => (share + 1) :: distribute share extra rest

/-- The widths of all columns, one place at least for each. -/
def widths (s : Sharing) : List Nat :=
  let left := max s.left s.undecided
  (distribute (left / s.undecided) (left % s.undecided) s.columns).map (max 1)

end Sharing

/-- The widths of the columns of a grid that is to be no wider than `limit`. -/
def widths (g : Grid) (limit : Nat) : List Nat :=
  let count := g.columns.length
  let start : Sharing := ⟨room limit count, g.columnCells.map fun cells => (cells, none)⟩
  ((start.settle Sharing.fitting count).settle Sharing.sparing count).widths

end Grid

end Disclosure
