import Disclosure.Fault

/-!
# Data frames

A frame is a row of named columns of one height. A column holds values of one type, any of which
may be missing. The integers of a column are kept as integers of any size together with the name of
the type they came from.

Data files have columns of these types only (`Values`). A frame from elsewhere may have columns of
other types, such as dates or lists. Of those we know what the library for frames tells: how it
shows a value, and which integers it makes of the values if it has such a cast (`ForeignValues`).
Frames can have columns of either kind (`FrameColumn`).
-/

namespace Disclosure

/-- The types of integers. -/
inductive IntegerType where
  | i32
  | i64
  | u32
  | u64
  deriving DecidableEq, Repr

/-- The name of a type of integers. -/
def IntegerType.name : IntegerType → String
  | i32 => "i32"
  | i64 => "i64"
  | u32 => "u32"
  | u64 => "u64"

/-- A single value. -/
inductive Value where
  | missing
  | text (value : String)
  | boolean (value : Bool)
  | integer (value : Int)
  | double (value : Float)
  | single (value : Float32)

/-- The values of a column. -/
inductive Values where
  | text (values : List (Option String))
  | boolean (values : List (Option Bool))
  | integer (type : IntegerType) (values : List (Option Int))
  | double (values : List (Option Float))
  | single (values : List (Option Float32))

namespace Values

/-- The number of values. -/
def size : Values → Nat
  | text values => values.length
  | boolean values => values.length
  | integer _ values => values.length
  | double values => values.length
  | single values => values.length

/-- The name of the type of the values. -/
def typeName : Values → String
  | text _ => "str"
  | boolean _ => "bool"
  | integer type _ => type.name
  | double _ => "f64"
  | single _ => "f32"

/-- The values one by one. -/
def toList : Values → List Value
  | text values => values.map fun v => (v.map Value.text).getD .missing
  | boolean values => values.map fun v => (v.map Value.boolean).getD .missing
  | integer _ values => values.map fun v => (v.map Value.integer).getD .missing
  | double values => values.map fun v => (v.map Value.double).getD .missing
  | single values => values.map fun v => (v.map Value.single).getD .missing

end Values

/-- The values of a column of any other type, as the library for frames tells them. -/
structure ForeignValues where
  /-- The values as they are shown, one by one; some may be missing. -/
  shown : List (Option String)
  /-- The values as integers of 64 bits; none if the type has no cast to integers. -/
  codes? : Option (List (Option Int))
  /-- A cast leaves no value out. -/
  length_codes : ∀ codes ∈ codes?, codes.length = shown.length

/-- The values of a column of any type. -/
inductive AnyValues where
  | known (values : Values)
  | foreign (values : ForeignValues)

/-- A single value of a column of any type. -/
inductive Cell where
  | value (value : Value)
  | foreign (shown : String)

namespace AnyValues

/-- The number of values. -/
def size : AnyValues → Nat
  | known values => values.size
  | foreign values => values.shown.length

/-- The values one by one. -/
def cells : AnyValues → List Cell
  | known values => values.toList.map .value
  | foreign values => values.shown.map fun shown => (shown.map Cell.foreign).getD (.value .missing)

end AnyValues

/-- What frames can have as columns. -/
class FrameColumn (κ : Type) where
  /-- The values of a column. -/
  view : κ → AnyValues
  /-- The column that some values make. -/
  ofValues : Values → κ
  /-- The values of such a column are those that were given. -/
  view_ofValues : ∀ values, view (ofValues values) = .known values

instance : FrameColumn Values where
  view := .known
  ofValues := id
  view_ofValues _ := rfl

instance : FrameColumn AnyValues where
  view := id
  ofValues := .known
  view_ofValues _ := rfl

/-- A named column of values. -/
structure Series (κ : Type := Values) where
  name : String
  values : κ

/-- Columns of one height. -/
structure Frame (κ : Type := Values) where
  columns : List (Series κ)

namespace Frame

variable {κ : Type}

/-- The number of rows. -/
def height [FrameColumn κ] (f : Frame κ) : Nat :=
  (f.columns.head?.map fun series => (FrameColumn.view series.values).size).getD 0

/-- The names of the columns. -/
def names (f : Frame κ) : List String :=
  f.columns.map (·.name)

/-- The column with a given name. -/
def find? (f : Frame κ) (name : String) : Option (Series κ) :=
  f.columns.find? fun series => series.name = name

/-- The first name that occurs twice. -/
def repeated? : List String → Option String
  | [] => none
  | name :: rest => if rest.contains name then some name else repeated? rest

/-- A frame from columns, which need different names and the same height. -/
def ofSeries [FrameColumn κ] (columns : List (Series κ)) : Except Fault (Frame κ) :=
  let frame : Frame κ := ⟨columns⟩
  match repeated? frame.names with
  | some name => .error (.repeatedColumn name)
  | none =>
    if columns.all fun series => (FrameColumn.view series.values).size = frame.height then .ok frame
    else .error .unequalColumns

end Frame

end Disclosure
