import Disclosure.Csv
import Disclosure.Frame.Basic

/-!
# Data files for the engine

The engine reads records without a header line. A missing value is an empty field, and an empty
text stands in quotes to tell the two apart. Booleans become 0 and 1 before anything is written.

Floats are written with the fewest digits that read back. The point is always there, so `1.0` and
not `1`, unless the number is so large or so small that it has an exponent.
-/

namespace Disclosure

/-- Where floats of a format begin to be written with an exponent: from `10 ^ large` up and below
`10 ^ small`. -/
structure ExponentLimits where
  small : Int
  large : Int

/-- The limits for `Float`. -/
def doubleLimits : ExponentLimits := ⟨-5, 16⟩

/-- The limits for `Float32`. -/
def singleLimits : ExponentLimits := ⟨-6, 13⟩

/-- A decimal with a point or an exponent in it. -/
def Decimal.dataText (limits : ExponentLimits) (d : Decimal) : List Char :=
  if d.digits != 0 && (d.firstExponent < limits.small || limits.large ≤ d.firstExponent) then
    d.scientific
  else
    match d.exponent with
    | .ofNat _ => d.positional ++ ['.', '0']
    | .negSucc _ => d.positional

namespace Values

/-- Booleans as the integers 0 and 1; everything else as it is. -/
def forEngine : Values → Values
  | boolean values => integer .i32 (values.map (·.map fun b => if b then 1 else 0))
  | other => other

end Values

/-- A value as a field of a data file. -/
def Value.field (separator : UInt8) : Value → List UInt8
  | missing => []
  | text value =>
    let bytes := value.toUTF8.toList
    if bytes = [] then [34, 34] else Csv.written (Csv.bytes separator) bytes
  | boolean value => (toString value).toUTF8.toList
  | integer value => (toString value).toUTF8.toList
  | double value =>
    ((viewOf value).write fun size =>
      (Decimal.shortest size).dataText doubleLimits).toUTF8.toList
  | single value =>
    ((viewOf32 value).write fun size =>
      (Decimal.shortest size).dataText singleLimits).toUTF8.toList

namespace Frame

/-- The frame as the engine gets it. -/
def forEngine (f : Frame) : Frame :=
  ⟨f.columns.map fun series => { series with values := series.values.forEngine }⟩

/-- The values of each row. -/
def rows (f : Frame) : List (List Value) :=
  let columns := f.columns.map (·.values.toList.toArray)
  (List.range f.height).map fun row => columns.map fun column => column[row]?.getD .missing

/-- The record of a row, with the line feed that ends it. -/
def record (separator : UInt8) (row : List Value) : List UInt8 :=
  [separator].intercalate (row.map (·.field separator)) ++ [10]

/-- The content of the data file. -/
def toBytes (f : Frame) (separator : UInt8) : ByteArray :=
  ⟨(f.rows.flatMap (record separator)).toArray⟩

end Frame

end Disclosure
