/-!
# Blank characters and trimming

A character is blank when Unicode gives it the property White_Space. Codes, cells and fields read
from files are trimmed: blanks go at both ends and stay inside.
-/

namespace Disclosure.Text

/-- The twenty-five characters with the Unicode property White_Space. -/
def isBlank (c : Char) : Bool :=
  let n := c.toNat
  (9 ≤ n && n ≤ 13) || n == 0x20 || n == 0x85 || n == 0xA0 || n == 0x1680 ||
    (0x2000 ≤ n && n ≤ 0x200A) || n == 0x2028 || n == 0x2029 || n == 0x202F || n == 0x205F ||
    n == 0x3000

/-- Drops the blanks at the start. -/
def trimStart (cs : List Char) : List Char :=
  cs.dropWhile isBlank

/-- Drops the blanks at the end. -/
def trimEnd (cs : List Char) : List Char :=
  (cs.reverse.dropWhile isBlank).reverse

/-- Drops the blanks at both ends. -/
def trimChars (cs : List Char) : List Char :=
  trimEnd (trimStart cs)

/-- Drops the blanks at both ends of a text. -/
def trim (s : String) : String :=
  String.ofList (trimChars s.toList)

/-- A text is trimmed when trimming leaves it as it is. -/
def IsTrimmed (s : String) : Prop :=
  trim s = s

instance (s : String) : Decidable (IsTrimmed s) :=
  inferInstanceAs (Decidable (trim s = s))

end Disclosure.Text
