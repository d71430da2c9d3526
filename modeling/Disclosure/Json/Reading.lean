import Disclosure.Decimal.Reading
import Disclosure.Json.Basic

/-!
# Reading JSON

Reading goes from left to right and gives back what is left behind a value. Each value takes at
least one character, so the length of the text bounds the work. Numbers are kept as they are
written.
-/

namespace Disclosure.Json

/-- Blanks between the parts of a value. -/
def isBlank (c : Char) : Bool :=
  c = ' ' || c = '\t' || c = '\n' || c = '\r'

/-- The value of a hexadecimal digit. -/
def hexValue? (c : Char) : Option Nat :=
  if c.isDigit then some (c.toNat - 48)
  else if 'a' ≤ c && c ≤ 'f' then some (c.toNat - 87)
  else if 'A' ≤ c && c ≤ 'F' then some (c.toNat - 55)
  else none

/-- The value of four hexadecimal digits, and what is behind them. -/
def readUnit? : List Char → Option (Nat × List Char)
  | a :: b :: c :: d :: rest => do
    let a ← hexValue? a
    let b ← hexValue? b
    let c ← hexValue? c
    let d ← hexValue? d
    pure (((a * 16 + b) * 16 + c) * 16 + d, rest)
  | _ => none

/-- The character behind the mark of a numbered escape. Characters above the first plane are written
as two units. -/
def readEscape? (cs : List Char) : Option (Char × List Char) := do
  let (high, rest) ← readUnit? cs
  if 0xD800 ≤ high && high < 0xDC00 then
    match rest with
    | '\\' :: 'u' :: more =>
      let (low, rest) ← readUnit? more
      if 0xDC00 ≤ low && low < 0xE000 then
        pure (Char.ofNat (0x10000 + (high - 0xD800) * 0x400 + (low - 0xDC00)), rest)
      else none
    | _ => none
  else if 0xDC00 ≤ high && high < 0xE000 then none
  else pure (Char.ofNat high, rest)

/-- The characters with escapes of their own. -/
def shortEscape? : Char → Option Char
  | '"' => some '"'
  | '\\' => some '\\'
  | '/' => some '/'
  | 'b' => some '\x08'
  | 'f' => some '\x0c'
  | 'n' => some '\n'
  | 'r' => some '\r'
  | 't' => some '\t'
  | _ => none

/-- Reads a text up to its closing quote. -/
def readText? : Nat → List Char → Option (List Char × List Char)
  | 0, _ => none
  | fuel + 1, cs =>
    match cs with
    | [] => none
    | '"' :: rest => some ([], rest)
    | '\\' :: 'u' :: more => do
      let (c, rest) ← readEscape? more
      let (cs, rest) ← readText? fuel rest
      pure (c :: cs, rest)
    | '\\' :: mark :: more => do
      let c ← shortEscape? mark
      let (cs, rest) ← readText? fuel more
      pure (c :: cs, rest)
    | c :: more => do
      let (cs, rest) ← readText? fuel more
      pure (c :: cs, rest)

/-- A character that a number or a name can have. -/
def isPlain (c : Char) : Bool :=
  c.isAlphanum || c = '-' || c = '+' || c = '.'

/-- A value without quotes and brackets. -/
def plainValue? (word : String) : Option Json :=
  match word with
  | "null" => some null
  | "true" => some (boolean true)
  | "false" => some (boolean false)
  | _ => (readDecimal? (takeSign word.toList).2).map fun _ => number word

mutual

/-- Reads a value. -/
def readValue? : Nat → List Char → Option (Json × List Char)
  | 0, _ => none
  | fuel + 1, cs =>
    match cs.dropWhile isBlank with
    | '"' :: rest => (readText? fuel rest).map fun (s, rest) => (text (String.ofList s), rest)
    | '[' :: rest =>
      match rest.dropWhile isBlank with
      | ']' :: rest => some (list [], rest)
      | rest => (readItems? fuel rest).map fun (items, rest) => (list items, rest)
    | '\x7b' :: rest =>
      match rest.dropWhile isBlank with
      | '\x7d' :: rest => some (object [], rest)
      | rest => (readEntries? fuel rest).map fun (entries, rest) => (object entries, rest)
    | cs =>
      let (word, rest) := cs.span isPlain
      (plainValue? (String.ofList word)).map fun value => (value, rest)

/-- Reads the items of a list, of which there is at least one, and the bracket behind them. -/
def readItems? : Nat → List Char → Option (List Json × List Char)
  | 0, _ => none
  | fuel + 1, cs => do
    let (item, rest) ← readValue? fuel cs
    match rest.dropWhile isBlank with
    | ']' :: rest => pure ([item], rest)
    | ',' :: rest =>
      let (items, rest) ← readItems? fuel rest
      pure (item :: items, rest)
    | _ => none

/-- Reads the entries of an object, of which there is at least one, and the brace behind them. -/
def readEntries? : Nat → List Char → Option (List (String × Json) × List Char)
  | 0, _ => none
  | fuel + 1, cs => do
    match cs.dropWhile isBlank with
    | '"' :: rest =>
      let (name, rest) ← readText? fuel rest
      match rest.dropWhile isBlank with
      | ':' :: rest =>
        let (value, rest) ← readValue? fuel rest
        let entry := (String.ofList name, value)
        match rest.dropWhile isBlank with
        | '\x7d' :: rest => pure ([entry], rest)
        | ',' :: rest =>
          let (entries, rest) ← readEntries? fuel rest
          pure (entry :: entries, rest)
        | _ => none
      | _ => none
    | _ => none

end

/-- Reads a text that holds one value and nothing else. -/
def ofText? (s : String) : Option Json := do
  let (value, rest) ← readValue? (s.length + 1) s.toList
  if rest.all isBlank then pure value else none

/-! ## Looking into a value

A value of another form than the one asked for counts as missing. -/

/-- What stands under a name in an object; null if there is nothing. -/
def get (value : Json) (name : String) : Json :=
  match value with
  | object entries => (entries.lookup name).getD null
  | _ => null

/-- Whether the value is null. -/
def isNull : Json → Bool
  | null => true
  | _ => false

/-- The text of a value that is one. -/
def asText? : Json → Option String
  | text value => some value
  | _ => none

/-- Whether the value is true. -/
def isTrue : Json → Bool
  | boolean value => value
  | _ => false

/-- The items of a list. -/
def items : Json → List Json
  | list items => items
  | _ => []

/-- The item at a place of a list. -/
def item (value : Json) (place : Nat) : Json :=
  value.items[place]?.getD null

/-- The integer that a number is. -/
def asInt? : Json → Option Int
  | number digits => readInt? digits.toList
  | _ => none

/-- The float that is nearest to a number. -/
def asFloat? : Json → Option Float
  | number digits => readFloat? digits
  | _ => none

end Disclosure.Json
