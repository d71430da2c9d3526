/-!
# Reading numbers

A number is digits with at most one point among or around them, an optional exponent and an optional
sign; `inf`, `infinity` and `nan` are read in any case of letters. Nothing may stand around it.
The value is the float nearest to the decimal that is written.
-/

namespace Disclosure

/-- The value of a row of decimal digits; `none` if there is another character. -/
def digitsValue? (cs : List Char) : Option Nat :=
  cs.foldl (fun sum c => if c.isDigit then sum.map (10 * · + (c.toNat - 48)) else none) (some 0)

/-- Splits off a plus or minus sign; the flag tells a minus. -/
def takeSign : List Char → Bool × List Char
  | '-' :: rest => (true, rest)
  | '+' :: rest => (false, rest)
  | cs => (false, cs)

/-- Reads an integer: digits behind an optional sign. -/
def readInt? (cs : List Char) : Option Int :=
  let (negative, digits) := takeSign cs
  if digits.isEmpty then none
  else (digitsValue? digits).map fun n => if negative then -(n : Int) else n

/-- Whether an integer fits into 64 bits, one of them for the sign. -/
def fitsWord (n : Int) : Bool :=
  -9223372036854775808 ≤ n && n ≤ 9223372036854775807

/-- Reads a natural number: digits only. -/
def readNat? (cs : List Char) : Option Nat :=
  if cs.isEmpty then none else digitsValue? cs

/-- The float nearest to `digits * 10 ^ exponent`. Exponents far outside the range of floats are
settled without computing the power. -/
def nearestFloat (digits : Nat) (exponent : Int) : Float :=
  let size := exponent + (toString digits).length
  if digits = 0 || size < -400 then 0
  else if size > 400 then 1 / 0
  else Float.ofScientific digits (exponent < 0) exponent.natAbs

/-- Reads digits with a point and an exponent; at least one digit has to stand before the
exponent. -/
def readDecimal? (cs : List Char) : Option (Nat × Int) := do
  let (whole, rest) := cs.span Char.isDigit
  let (places, rest) := match rest with
    | '.' :: after => after.span Char.isDigit
    | _ => ([], rest)
  if whole.isEmpty && places.isEmpty then none
  let exponent ← match rest with
    | [] => some 0
    | e :: power => if e = 'e' || e = 'E' then readInt? power else none
  let digits ← digitsValue? (whole ++ places)
  pure (digits, exponent - places.length)

/-- Reads a float. -/
def readFloat? (s : String) : Option Float :=
  let (negative, rest) := takeSign s.toList
  let word := String.ofList (rest.map Char.toLower)
  let size : Option Float :=
    if word == "inf" || word == "infinity" then some (1 / 0)
    else if word == "nan" then some (0 / 0)
    else (readDecimal? rest).map fun (digits, exponent) => nearestFloat digits exponent
  size.map fun x => if negative then -x else x

end Disclosure
