import Disclosure.Text.Justify

/-!
# JSON

Values are written in two ways: on one line, or with two blanks of indent for each level and one
entry a line. Numbers are kept as the text they are written with, so no digit is lost on the way.
-/

namespace Disclosure

/-- A JSON value. The names of an object stay in the order in which they are given. -/
inductive Json where
  | null
  | boolean (value : Bool)
  | number (digits : String)
  | text (value : String)
  | list (items : List Json)
  | object (entries : List (String × Json))
  deriving Inhabited

namespace Json

/-- A hexadecimal digit. -/
def hexDigit (n : Nat) : Char :=
  Char.ofNat (if n < 10 then 48 + n else 87 + n)

/-- A character inside a quoted text. Quotes, backslashes and control characters are escaped. -/
def escape (c : Char) : List Char :=
  match c with
  | '"' => ['\\', '"']
  | '\\' => ['\\', '\\']
  | '\n' => ['\\', 'n']
  | '\r' => ['\\', 'r']
  | '\t' => ['\\', 't']
  | '\x08' => ['\\', 'b']
  | '\x0c' => ['\\', 'f']
  | _ =>
    if c.toNat < 32 then ['\\', 'u', '0', '0', hexDigit (c.toNat / 16), hexDigit (c.toNat % 16)]
    else [c]

/-- A text in quotes. -/
def quoted (s : String) : String :=
  String.ofList ('"' :: (s.toList.flatMap escape ++ ['"']))

mutual

/-- The value on one line. -/
def compact : Json → String
  | null => "null"
  | boolean value => if value then "true" else "false"
  | number digits => digits
  | text value => quoted value
  | list items => "[" ++ ",".intercalate (compactItems items) ++ "]"
  | object entries => "\x7b" ++ ",".intercalate (compactEntries entries) ++ "\x7d"

/-- Each value on one line. -/
def compactItems : List Json → List String
  | [] => []
  | item :: rest => item.compact :: compactItems rest

/-- Each entry on one line. -/
def compactEntries : List (String × Json) → List String
  | [] => []
  | (name, value) :: rest => (quoted name ++ ":" ++ value.compact) :: compactEntries rest

end

/-- The blanks at the start of a line. -/
def margin (depth : Nat) : String :=
  Text.repeatText depth "  "

/-- Entries on lines of their own between brackets; without entries the brackets stay together. -/
def block (depth : Nat) (left right : String) (entries : List String) : String :=
  if entries.isEmpty then left ++ right
  else
    left ++ "\n" ++ ",\n".intercalate (entries.map (margin (depth + 1) ++ ·)) ++ "\n" ++
      margin depth ++ right

mutual

/-- The value with one entry a line, inside `depth` levels. -/
def prettyAt (depth : Nat) : Json → String
  | list items => block depth "[" "]" (prettyItems (depth + 1) items)
  | object entries => block depth "\x7b" "\x7d" (prettyEntries (depth + 1) entries)
  | null => "null"
  | boolean value => if value then "true" else "false"
  | number digits => digits
  | text value => quoted value

/-- Each value with one entry a line. -/
def prettyItems (depth : Nat) : List Json → List String
  | [] => []
  | item :: rest => item.prettyAt depth :: prettyItems depth rest

/-- Each entry with its name. -/
def prettyEntries (depth : Nat) : List (String × Json) → List String
  | [] => []
  | (name, value) :: rest =>
    (quoted name ++ ": " ++ value.prettyAt depth) :: prettyEntries depth rest

end

/-- The value with one entry a line. -/
def pretty (value : Json) : String :=
  value.prettyAt 0

end Json

end Disclosure
