/-!
# Cutting texts apart

Cutting at a character gives one piece more than the text has such characters, so an empty text is
one empty piece. Cutting at a longer separator takes the leftmost occurrence each time, and an empty
separator cuts between all characters and at both ends.
-/

namespace Disclosure.Text

/-- The pieces between the occurrences of a character. -/
def piecesAt (sep : Char) : List Char → List (List Char)
  | [] => [[]]
  | c :: rest =>
    if c = sep then
      [] :: piecesAt sep rest
    else
      match piecesAt sep rest with
      | [] => [[c]]
      | piece :: more => (c :: piece) :: more

/-- The pieces of a text between the occurrences of a character. -/
def splitAt (sep : Char) (s : String) : List String :=
  (piecesAt sep s.toList).map String.ofList

/-- The parts before and after the first occurrence of a character. -/
def cutAt? (sep : Char) (cs : List Char) : Option (List Char × List Char) :=
  match cs.span (· != sep) with
  | (_, []) => none
  | (before, _ :: after) => some (before, after)

/-- What is left of `cs` after `lead`, if `cs` starts with it. -/
def dropLead? : List Char → List Char → Option (List Char)
  | [], cs => some cs
  | _ :: _, [] => none
  | l :: lead, c :: cs => if l = c then dropLead? lead cs else none

/-- The parts before and after the first occurrence of a separator. -/
def cutOnText? (sep : List Char) : List Char → Option (List Char × List Char)
  | [] => (dropLead? sep []).map fun rest => ([], rest)
  | c :: cs =>
    match dropLead? sep (c :: cs) with
    | some rest => some ([], rest)
    | none => (cutOnText? sep cs).map fun (before, after) => (c :: before, after)

/-- The pieces between the occurrences of a separator, at most `fuel + 1` of them. -/
def piecesOnFrom (sep : List Char) : Nat → List Char → List (List Char)
  | 0, cs => [cs]
  | fuel + 1, cs =>
    match cutOnText? sep cs with
    | none => [cs]
    | some (before, after) => before :: piecesOnFrom sep fuel after

/-- The pieces between the occurrences of a separator; an empty one matches around every
character. -/
def piecesOn (sep cs : List Char) : List (List Char) :=
  match sep with
  | [] => [] :: (cs.map ([·]) ++ [[]])
  | _ => piecesOnFrom sep cs.length cs

/-- The pieces of a text between the occurrences of a separator. -/
def splitOnText (sep s : String) : List String :=
  (piecesOn sep.toList s.toList).map String.ofList

/-- Whether `part` occurs somewhere in `cs`. -/
def occursIn (part cs : List Char) : Bool :=
  (cutOnText? part cs).isSome

/-- Whether a text has another as a part. -/
def hasPart (s part : String) : Bool :=
  occursIn part.toList s.toList

end Disclosure.Text
