import Disclosure.Decimal.Reading
import Disclosure.Json.Reading
import Disclosure.Text.Split
import Disclosure.Toml.Basic

/-!
# TOML texts, numbers and moments

Texts stand in double quotes, where a backslash starts an escape, or in single quotes, where every
character stands for itself. Three quotes start a text that may run over several lines; a line end
right behind them does not count.

Everything else is one unbroken word, apart from a blank that may stand between a date and a time.
Digits may be grouped by single underscores between them.
-/

namespace Disclosure.Toml

/-! ## Texts -/

/-- The quote of texts without escapes. -/
def singleQuote : Char := '\x27'

/-- Whether a character may stand for itself in a text or a comment. Of the control characters only
the tab may. -/
def isPrintable (c : Char) : Bool :=
  c = '\t' || (c.toNat ≥ 32 && c.toNat ≠ 127)

/-- Blanks within a line. -/
def isBlank (c : Char) : Bool :=
  c = ' ' || c = '\t'

/-- The character with a number in hexadecimal digits, if there is one. -/
def numberedChar? (digits : List Char) : Option Char := do
  let values ← digits.mapM Json.hexValue?
  let code := values.foldl (fun sum value => 16 * sum + value) 0
  if code < 0xD800 || (0xDFFF < code && code < 0x110000) then some (Char.ofNat code) else none

/-- The characters with escapes of their own. -/
def shortEscape? : Char → Option Char
  | '"' => some '"'
  | '\\' => some '\\'
  | 'b' => some '\x08'
  | 'f' => some '\x0c'
  | 'n' => some '\n'
  | 'r' => some '\r'
  | 't' => some '\t'
  | _ => none

/-- A text and what is left behind it. -/
abbrev TextAndRest := List Char × List Char

/-- Puts a character in front of a text that was read. -/
def consText (c : Char) (r : TextAndRest) : TextAndRest :=
  (c :: r.1, r.2)

/-- Reads a text in double quotes, from behind the first one. -/
def readQuoted? : List Char → Option TextAndRest
  | [] => none
  | '"' :: rest => some ([], rest)
  | '\\' :: 'u' :: a :: b :: c :: d :: rest =>
    (numberedChar? [a, b, c, d]).bind fun char => (readQuoted? rest).map (consText char)
  | '\\' :: 'U' :: a :: b :: c :: d :: e :: f :: g :: h :: rest =>
    (numberedChar? [a, b, c, d, e, f, g, h]).bind fun char =>
      (readQuoted? rest).map (consText char)
  | '\\' :: mark :: rest =>
    (shortEscape? mark).bind fun char => (readQuoted? rest).map (consText char)
  | c :: rest => if isPrintable c then (readQuoted? rest).map (consText c) else none

/-- Reads a text in single quotes, from behind the first one. -/
def readLiteral? : List Char → Option TextAndRest
  | [] => none
  | c :: rest =>
    if c = singleQuote then some ([], rest)
    else if isPrintable c then (readLiteral? rest).map (consText c)
    else none

/-- Whether nothing but blanks is left of the line. -/
def lineIsOver (cs : List Char) : Bool :=
  match cs.dropWhile isBlank with
  | '\n' :: _ | '\r' :: '\n' :: _ => true
  | _ => false

/-- Reads a text of several lines in double quotes. Up to two quotes may stand anywhere in it, also
right before the three that end it. A backslash at the end of a line joins the text with the next
character that is not blank; `joining` tells that it is being looked for. -/
def readQuotedLines? (joining : Bool) : List Char → Option TextAndRest
  | [] => none
  | '"' :: '"' :: '"' :: '"' :: '"' :: rest => some (['"', '"'], rest)
  | '"' :: '"' :: '"' :: '"' :: rest => some (['"'], rest)
  | '"' :: '"' :: '"' :: rest => some ([], rest)
  | '\\' :: 'u' :: a :: b :: c :: d :: rest =>
    (numberedChar? [a, b, c, d]).bind fun char =>
      (readQuotedLines? false rest).map (consText char)
  | '\\' :: 'U' :: a :: b :: c :: d :: e :: f :: g :: h :: rest =>
    (numberedChar? [a, b, c, d, e, f, g, h]).bind fun char =>
      (readQuotedLines? false rest).map (consText char)
  | '\r' :: '\n' :: rest =>
    if joining then readQuotedLines? true rest
    else (readQuotedLines? false rest).map (consText '\n')
  | c :: rest =>
    if c = '\n' then
      if joining then readQuotedLines? true rest
      else (readQuotedLines? false rest).map (consText '\n')
    else if joining && isBlank c then readQuotedLines? true rest
    else if c = '\\' then
      if lineIsOver rest then readQuotedLines? true rest
      else
        match rest with
        | [] => none
        | mark :: rest =>
          (shortEscape? mark).bind fun char => (readQuotedLines? false rest).map (consText char)
    else if isPrintable c then (readQuotedLines? false rest).map (consText c)
    else none

/-- Reads a text of several lines in single quotes, with the same rule for quotes in it. -/
def readLiteralLines? : List Char → Option TextAndRest
  | [] => none
  | '\x27' :: '\x27' :: '\x27' :: '\x27' :: '\x27' :: rest => some (['\x27', '\x27'], rest)
  | '\x27' :: '\x27' :: '\x27' :: '\x27' :: rest => some (['\x27'], rest)
  | '\x27' :: '\x27' :: '\x27' :: rest => some ([], rest)
  | '\r' :: '\n' :: rest => (readLiteralLines? rest).map (consText '\n')
  | c :: rest =>
    if c = '\n' || isPrintable c then (readLiteralLines? rest).map (consText c) else none

/-- Drops a line end. -/
def dropLineEnd : List Char → List Char
  | '\n' :: rest => rest
  | '\r' :: '\n' :: rest => rest
  | cs => cs

/-- Reads a text of one line; `none` if no text starts here. -/
def readLineText? : List Char → Option TextAndRest
  | '"' :: rest => readQuoted? rest
  | '\x27' :: rest => readLiteral? rest
  | _ => none

/-- Reads a text; `none` if no text starts here. -/
def readText? : List Char → Option TextAndRest
  | '"' :: '"' :: '"' :: rest => readQuotedLines? false (dropLineEnd rest)
  | '\x27' :: '\x27' :: '\x27' :: rest => readLiteralLines? (dropLineEnd rest)
  | cs => readLineText? cs

/-! ## Numbers -/

/-- Digits without the underscores between them. -/
def groupedDigits? (isDigit : Char → Bool) (cs : List Char) : Option (List Char) :=
  let groups := Text.piecesAt '_' cs
  if groups.all fun group => !group.isEmpty && group.all isDigit then some groups.flatten else none

/-- The digits of a whole number, which has no zeros in front. -/
def wholeDigits? (cs : List Char) : Option (List Char) :=
  (groupedDigits? Char.isDigit cs).bind fun
    | '0' :: _ :: _ => none
    | digits => some digits

/-- A number with another base. -/
def basedNumber? (base : Nat) (cs : List Char) : Option Nat := do
  let isDigit (c : Char) : Bool := (Json.hexValue? c).any (· < base)
  let digits ← groupedDigits? isDigit cs
  let values ← digits.mapM Json.hexValue?
  pure (values.foldl (fun sum value => base * sum + value) 0)

/-- Reads an integer of 64 bits. -/
def integer? (cs : List Char) : Option Int := do
  let value : Int ← match cs with
    | '0' :: 'x' :: digits => (basedNumber? 16 digits).map fun n => (n : Int)
    | '0' :: 'o' :: digits => (basedNumber? 8 digits).map fun n => (n : Int)
    | '0' :: 'b' :: digits => (basedNumber? 2 digits).map fun n => (n : Int)
    | _ =>
      let (negative, size) := takeSign cs
      ((wholeDigits? size).bind digitsValue?).map fun n => if negative then -(n : Int) else n
  if fitsWord value then some value else none

/-- The exponent of a float, without underscores. -/
def exponent? (cs : List Char) : Option (List Char) :=
  match cs with
  | '-' :: digits => (groupedDigits? Char.isDigit digits).map ('-' :: ·)
  | '+' :: digits => groupedDigits? Char.isDigit digits
  | digits => groupedDigits? Char.isDigit digits

/-- The size of a float, without underscores: a whole number with decimal places, an exponent, or
both. -/
def floatSize? (cs : List Char) : Option (List Char) := do
  let isMark (c : Char) : Bool := c = 'e' || c = 'E'
  let (front, back) := cs.span fun c => !isMark c
  let (whole, fraction) := front.span (· != '.')
  let digits ← wholeDigits? whole
  let places ← match fraction with
    | [] => if back.isEmpty then none else some []
    | _ :: places => (groupedDigits? Char.isDigit places).map ('.' :: ·)
  let power ← match back with
    | [] => some []
    | _ :: power => (exponent? power).map ('e' :: ·)
  pure (digits ++ places ++ power)

/-- Reads a float. One that is too large is refused, unless it is negative. -/
def float? (cs : List Char) : Option Float := do
  let (negative, size) := takeSign cs
  let signed (x : Float) : Float := if negative then -x else x
  match String.ofList size with
  | "inf" => some (signed (1 / 0))
  | "nan" => some (signed (0 / 0))
  | _ =>
    let digits ← floatSize? size
    let value := signed (← readFloat? (String.ofList digits))
    if value == 1 / 0 then none else some value

/-! ## Moments -/

/-- The number that `count` digits at the start stand for, and what is behind them. -/
def takeNumber? (count : Nat) (cs : List Char) : Option (Nat × List Char) := do
  let digits := cs.take count
  if digits.length = count then pure (← digitsValue? digits, cs.drop count) else none

/-- The same, for a number that may be at most `greatest`. -/
def takeUpTo? (greatest : Nat) (cs : List Char) : Option (Nat × List Char) :=
  (takeNumber? 2 cs).filter fun (n, _) => n ≤ greatest

/-- Drops a character that has to be there. -/
def expect? (c : Char) : List Char → Option (List Char)
  | d :: rest => if c = d then some rest else none
  | [] => none

/-- The days of a month. -/
def daysOf (year month : Nat) : Nat :=
  let leap := year % 4 = 0 && (year % 100 ≠ 0 || year % 400 = 0)
  match month with
  | 2 => if leap then 29 else 28
  | 4 | 6 | 9 | 11 => 30
  | _ => 31

/-- Reads a date and gives what is behind it. -/
def date? (cs : List Char) : Option (List Char) := do
  let (year, rest) ← takeNumber? 4 cs
  let (month, rest) ← takeUpTo? 12 (← expect? '-' rest)
  let (day, rest) ← takeNumber? 2 (← expect? '-' rest)
  if 1 ≤ month && 1 ≤ day && day ≤ daysOf year month then some rest else none

/-- Reads a time of day and gives what is behind it. -/
def time? (cs : List Char) : Option (List Char) := do
  let (_, rest) ← takeUpTo? 23 cs
  let (_, rest) ← takeUpTo? 59 (← expect? ':' rest)
  let (_, rest) ← takeUpTo? 60 (← expect? ':' rest)
  match rest with
  | '.' :: places =>
    let (digits, rest) := places.span Char.isDigit
    if digits.isEmpty then none else some rest
  | _ => some rest

/-- Whether the characters are an offset from world time, or nothing. -/
def isOffset (cs : List Char) : Bool :=
  match cs with
  | [] | ['Z'] | ['z'] => true
  | sign :: rest =>
    (sign = '+' || sign = '-') &&
      (do
        let (_, rest) ← takeUpTo? 23 rest
        let (_, rest) ← takeUpTo? 59 (← expect? ':' rest)
        pure rest.isEmpty : Option Bool).getD false

/-- Whether the characters are a date, a time, or both. -/
def isMoment (cs : List Char) : Bool :=
  match date? cs with
  | some [] => true
  | some (mark :: rest) =>
    (mark = 'T' || mark = 't' || mark = ' ') && (time? rest).any isOffset
  | none => (time? cs).any List.isEmpty

/-! ## Words -/

/-- A character of a word. -/
def isWordChar (c : Char) : Bool :=
  c.isAlphanum || c = '_' || c = '+' || c = '-' || c = '.' || c = ':'

/-- Takes a word. A blank belongs to it between a date and two digits. -/
def takeWord (cs : List Char) : TextAndRest :=
  let (word, rest) := cs.span isWordChar
  match date? word, rest with
  | some [], ' ' :: a :: b :: ':' :: more =>
    if a.isDigit && b.isDigit then
      let (time, rest) := (a :: b :: ':' :: more).span isWordChar
      (word ++ ' ' :: time, rest)
    else (word, rest)
  | _, _ => (word, rest)

/-- The value of a word. -/
def wordValue? (word : List Char) : Option TomlValue :=
  match String.ofList word with
  | "true" => some (.boolean true)
  | "false" => some (.boolean false)
  | written =>
    if isMoment word then some (.moment written)
    else (integer? word).map .integer <|> (float? word).map .float

end Disclosure.Toml
