/-!
# Lines

A line ends at a line feed, and a carriage return right before that line feed belongs to the line
end. What follows the last line feed is a line of its own if it is not empty, and a carriage return
at its end is kept, because no line feed follows it.
-/

namespace Disclosure.Text

/-- Puts a character in front of the first line. -/
def consLine (c : Char) : List (List Char) → List (List Char)
  | [] => [[c]]
  | line :: rest => (c :: line) :: rest

/-- The lines of a text, without their ends. -/
def linesOf : List Char → List (List Char)
  | [] => []
  | '\n' :: rest => [] :: linesOf rest
  | '\r' :: '\n' :: rest => [] :: linesOf rest
  | c :: rest => consLine c (linesOf rest)

/-- The lines of a text, without their ends. -/
def lines (s : String) : List String :=
  (linesOf s.toList).map String.ofList

/-- Every line followed by a line feed. -/
def unlines (ls : List String) : String :=
  String.join (ls.map (· ++ "\n"))

/-- Pairs each line with its number, counted from 1. -/
def numbered (ls : List α) : List (Nat × α) :=
  ls.zipIdx.map fun (line, index) => (index + 1, line)

/-- The lines of a file given as bytes, cut at line feeds before decoding. A line whose bytes are
not UTF-8 is `none`, so that a reader can still use the lines before it. -/
def byteLines (bytes : ByteArray) : List (Option String) :=
  (pieces bytes.toList).map fun piece => String.fromUTF8? ⟨piece.toArray⟩
where
  /-- Puts a byte in front of the first piece. -/
  consByte (b : UInt8) : List (List UInt8) → List (List UInt8)
    | [] => [[b]]
    | piece :: rest => (b :: piece) :: rest
  /-- Cuts at line feeds, with the same rule for carriage returns as `linesOf`. -/
  pieces : List UInt8 → List (List UInt8)
    | [] => []
    | 10 :: rest => [] :: pieces rest
    | 13 :: 10 :: rest => [] :: pieces rest
    | b :: rest => consByte b (pieces rest)

end Disclosure.Text
