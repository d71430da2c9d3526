import Disclosure.Decimal.Shortest

/-!
# Ways to write a number

Positional layout never uses an exponent and writes a whole number without a point. Scientific
layout puts the point behind the first digit. Either starts from a decimal, so what is written is
exact for that decimal.
-/

namespace Disclosure

namespace Decimal

/-- The digits of a natural number. -/
def digitsOf (n : Nat) : List Char :=
  Nat.toDigits 10 n

/-- Digits with a point in front of the last `places`, zeros filling up on the left. -/
def pointed (digits : List Char) (places : Nat) : List Char :=
  let padded := List.replicate (places + 1 - digits.length) '0' ++ digits
  padded.take (padded.length - places) ++ '.' :: padded.drop (padded.length - places)

/-- The number without an exponent. -/
def positional (d : Decimal) : List Char :=
  match d.exponent with
  | .ofNat zeros =>
    if d.digits = 0 then ['0'] else digitsOf d.digits ++ List.replicate zeros '0'
  | .negSucc n => pointed (digitsOf d.digits) (n + 1)

/-- The number with exactly `places` digits behind the point. -/
def fixed (d : Decimal) : List Char :=
  match d.exponent with
  | .ofNat _ => d.positional
  | .negSucc n => pointed (digitsOf d.digits) (n + 1)

/-- The exponent of the first digit. -/
def firstExponent (d : Decimal) : Int :=
  d.exponent + ((digitsOf d.digits).length - 1 : Nat)

/-- The number with its point behind the first digit, and an exponent without a plus sign. -/
def scientific (d : Decimal) : List Char :=
  let exponent := 'e' :: (toString d.firstExponent).toList
  match digitsOf d.digits with
  | first :: second :: rest => first :: '.' :: second :: rest ++ exponent
  | digits => digits ++ exponent

end Decimal

/-- A minus sign in front of a negative number. -/
def signed (negative : Bool) (cs : List Char) : String :=
  String.ofList (if negative then '-' :: cs else cs)

/-- Writes a view, leaving the layout of finite sizes to `layout`. -/
def FloatView.write (view : FloatView) (layout : Binary → List Char) : String :=
  match view with
  | .notANumber => "NaN"
  | .infinite negative => signed negative ['i', 'n', 'f']
  | .finite negative size => signed negative (layout size)

/-- The shortest text that reads back, positional and without a point for whole numbers. -/
def plainText (x : Float) : String :=
  (viewOf x).write fun size => (Decimal.shortest size).positional

/-- The same for single precision. -/
def plainText32 (x : Float32) : String :=
  (viewOf32 x).write fun size => (Decimal.shortest size).positional

/-- The value rounded to `places` digits behind the point. -/
def fixedText (places : Nat) (x : Float) : String :=
  (viewOf x).write fun size => (Decimal.toPlaces size places).fixed

/-- The shortest text that reads back, in scientific layout. -/
def scientificText (x : Float) : String :=
  (viewOf x).write fun size => (Decimal.shortest size).scientific

/-- The value rounded to `count + 1` digits, in scientific layout. -/
def scientificTextTo (count : Nat) (x : Float) : String :=
  (viewOf x).write fun size => (Decimal.toDigitCount size count).scientific

/-- Whether a float is a whole number; infinities and NaN are not. -/
def isWhole (x : Float) : Bool :=
  match viewOf x with
  | .finite _ size => size.isWhole
  | _ => false

/-- Whether a float is neither NaN nor infinite. -/
def isFinite (x : Float) : Bool :=
  match viewOf x with
  | .finite .. => true
  | _ => false

/-- The whole part of a float as an integer, rounding toward zero; `none` for NaN and infinities. -/
def truncated? (x : Float) : Option Int :=
  match viewOf x with
  | .finite negative size =>
    let (num, den) := size.ratio
    some (if negative then -((num / den : Nat) : Int) else (num / den : Nat))
  | _ => none

end Disclosure
