import Disclosure.Text.Split
import Disclosure.Text.Width

/-!
# Wrapped lines

A line that is wider than its column is wrapped at blanks. A word that is wider than the whole
column is cut, and what is left of the line before it is used for its beginning if there is room for
more than two places; a line with two places or less left over is full. Blanks at the start of a
wrapped line are lost.
-/

namespace Disclosure.Grid

/-- Cuts a word before the first character that does not fit into `width` places. -/
def cutWord (width : Nat) : List Char → List Char × List Char
  | [] => ([], [])
  | c :: cs =>
    if Text.charWidth c ≤ width then
      let (head, rest) := cutWord (width - Text.charWidth c) cs
      (c :: head, rest)
    else ([], c :: cs)

/-- Lines that are done and the one that is being filled. -/
structure Wrapped where
  done : List (List Char)
  current : List Char

namespace Wrapped

/-- The fewest places that are worth filling, less one. -/
def spare : Nat := 2

/-- Puts a line down: a full one is done, and another one can still be filled. -/
def settle (width : Nat) (done : List (List Char)) (line : List Char) : Wrapped :=
  if width - spare < Text.charsWidth line then ⟨done ++ [line], []⟩ else ⟨done, line⟩

/-- Starts a line with a word. A word that is too wide fills lines, each with one character at
least. -/
def startLine (width : Nat) : Nat → List (List Char) → List Char → Wrapped
  | 0, done, word => ⟨done, word⟩
  | fuel + 1, done, word =>
    if Text.charsWidth word ≤ width then settle width done word
    else
      match cutWord width word, word with
      | ([], _), c :: rest => startLine width fuel (done ++ [[c]]) rest
      | (head, rest), _ => startLine width fuel (done ++ [head]) rest

/-- Starts a line with a word, of which at most as many lines are filled as it has characters. -/
def startWord (width : Nat) (done : List (List Char)) (word : List Char) : Wrapped :=
  startLine width (word.length + 1) done word

/-- Adds the next word. -/
def add (width : Nat) (w : Wrapped) (word : List Char) : Wrapped :=
  if w.current = [] then startWord width w.done word
  else
    let used := Text.charsWidth w.current + 1
    if used + Text.charsWidth word ≤ width then settle width w.done (w.current ++ ' ' :: word)
    else if width < Text.charsWidth word && spare < width - used then
      let (head, rest) := cutWord (width - used) word
      startWord width (w.done ++ [w.current ++ ' ' :: head]) rest
    else startWord width (w.done ++ [w.current]) word

/-- All lines that have something in them. -/
def lines (w : Wrapped) : List (List Char) :=
  if w.current = [] then w.done else w.done ++ [w.current]

end Wrapped

/-- Wraps a line if it is wider than `width`. -/
def wrapLine (width : Nat) (line : List Char) : List (List Char) :=
  if Text.charsWidth line ≤ width then [line]
  else ((Text.piecesAt ' ' line).foldl (Wrapped.add width) ⟨[], []⟩).lines

/-- The lines of a cell in a column of some width. -/
def cellLines (width : Nat) (cell : String) : List (List Char) :=
  (Text.piecesAt '\n' cell.toList).flatMap (wrapLine width)

end Disclosure.Grid
