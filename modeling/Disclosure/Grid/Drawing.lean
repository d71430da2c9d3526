import Disclosure.Grid.Widths
import Disclosure.Text.Justify
import Disclosure.Text.Line

/-!
# Drawings of grids

A grid is drawn with lines around it and a double line below the titles, and its corners are round.
The rows have no lines between them.
-/

namespace Disclosure.Grid

/-- Blanks around a line so that it fills the column. What cannot be split equally goes to the
left. -/
def align (alignment : Alignment) (width : Nat) (line : List Char) : String :=
  let free := width - Text.charsWidth line
  let text := String.ofList line
  match alignment with
  | .left => text ++ Text.repeatText free " "
  | .right => Text.repeatText free " " ++ text
  | .centre =>
    Text.repeatText ((free + 1) / 2) " " ++ text ++ Text.repeatText (free / 2) " "

/-- A line across the grid, with its two ends and the marks where columns meet. -/
def rule (left stroke meet right : String) (widths : List Nat) : String :=
  left ++ meet.intercalate (widths.map fun width => Text.repeatText (width + 2) stroke) ++ right

/-- The lines of a row. A cell with fewer lines than others is filled up with blanks. -/
def rowLines (shape : List (Alignment × Nat)) (cells : List String) : List String :=
  let columns := shape.zipIdx.map fun ((alignment, width), index) =>
    (alignment, width, cellLines width (cells.getD index ""))
  let height := (columns.map (·.2.2.length)).foldl max 0
  (List.range height).map fun number =>
    let parts := columns.map fun (alignment, width, lines) =>
      " " ++ align alignment width (lines.getD number []) ++ " "
    "│" ++ "┆".intercalate parts ++ "│"

/-- The lines of a grid that is to be no wider than `limit`. -/
def drawLines (g : Grid) (limit : Nat) : List String :=
  let widths := g.widths limit
  let shape := (g.columns.map (·.2)).zip widths
  [rule "╭" "─" "┬" "╮" widths] ++ rowLines shape (g.columns.map (·.1)) ++
    [rule "╞" "═" "╪" "╡" widths] ++ g.rows.flatMap (rowLines shape) ++
    [rule "╰" "─" "┴" "╯" widths]

/-- The drawing of a grid that is to be no wider than `limit`. -/
def draw (g : Grid) (limit : Nat) : String :=
  Text.unlines (g.drawLines limit)

end Disclosure.Grid
