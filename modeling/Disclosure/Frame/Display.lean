import Disclosure.Decimal.Layout
import Disclosure.Frame.Basic

/-!
# Values for people

In a listing of cells floats are written so that they stay short: a small whole number with one
place, a number that takes many characters rounded to six places or in scientific layout, and every
other number as the shortest text that reads back. Missing values are left out.
-/

namespace Disclosure

/-- Drops the zeros at the end of a decimal part, all but one right behind the point. -/
def dropZeros (text : String) : String :=
  match text.toList.reverse.dropWhile (· = '0') with
  | '.' :: whole => String.ofList ('0' :: '.' :: whole).reverse
  | kept => String.ofList kept.reverse

/-- A float in a listing. -/
def shortText (x : Float) : String :=
  if isWhole x && x.abs < 1e6 then fixedText 1 x
  else if 9 < (plainText x).length then
    if 0.000001 ≤ x.abs && x.abs ≤ 999999 then dropZeros (fixedText 6 x)
    else scientificTextTo 4 x
  else if isWhole x then scientificText x
  else plainText x

/-- A value in a listing. -/
def Value.display : Value → String
  | .missing => ""
  | .text value => value
  | .boolean value => toString value
  | .integer value => toString value
  | .double value => shortText value
  | .single value => shortText value.toFloat

end Disclosure
