import Disclosure.Csv
import Disclosure.Decimal.Reading
import Disclosure.Frame.Basic
import Disclosure.Text.Case

/-!
# Frames from data files

The first line of a data file names its columns. The type of a column follows from its fields in the
first hundred rows: all booleans, all integers, or all integers and floats; anything else, and a
column without any field, is text. Columns that are asked for as text stay text, so that a code such
as `01` is not read as a number.

An empty field is a missing value, and a row that is too short is filled up with missing values. A
row that is too long, a field that does not fit its type, and bytes that are no text make the whole
file unreadable.
-/

namespace Disclosure

/-- The type a column is read as. -/
inductive FieldType where
  | text
  | boolean
  | integer
  | double
  deriving DecidableEq, Repr

namespace DataFile

/-- Where the reader is in a row. -/
inductive Mode where
  | rowStart
  | fieldStart
  | plain
  | quoted
  | unquoted
  deriving DecidableEq, Repr

/-- The rows of a file and their fields, as they stand there. Separators and line ends inside quotes
belong to the field. -/
def rowsFrom (separator : UInt8) : Mode → List UInt8 → List (List (List UInt8))
  | .rowStart, [] => []
  | _, [] => [[[]]]
  | .quoted, b :: rest =>
    Csv.push b (rowsFrom separator (if b = 34 then .unquoted else .quoted) rest)
  | _, 13 :: 10 :: rest => [[]] :: rowsFrom separator .rowStart rest
  | mode, b :: rest =>
    if b = 10 then [[]] :: rowsFrom separator .rowStart rest
    else if b = separator then Csv.endField (rowsFrom separator .fieldStart rest)
    else if b = 34 then
      match mode with
      | .plain => Csv.push b (rowsFrom separator .plain rest)
      | _ => Csv.push b (rowsFrom separator .quoted rest)
    else
      match mode with
      | .unquoted => Csv.push b (rowsFrom separator .unquoted rest)
      | _ => Csv.push b (rowsFrom separator .plain rest)

/-- Whether a field stands in quotes. -/
def isQuoted (field : List UInt8) : Bool :=
  field.head? == some 34 && field.length ≥ 2

/-- A field without the quotes around it. -/
def inner (field : List UInt8) : List UInt8 :=
  if isQuoted field then field.tail.dropLast else field

/-- Takes the first of every two quotes in a row away. -/
def mergeQuotes : Bool → List UInt8 → List UInt8
  | _, [] => []
  | seen, b :: rest =>
    if b = 34 then
      if seen then b :: mergeQuotes false rest else mergeQuotes true rest
    else b :: mergeQuotes false rest

/-- The text of a field. -/
def fieldText? (field : List UInt8) : Option String :=
  Text.decode? (if isQuoted field then mergeQuotes false (inner field) else field)

/-- Whether a row of characters is an integer as integers are told from other fields. -/
def looksInteger (cs : List Char) : Bool :=
  let digits := match cs with
    | '-' :: rest => rest
    | _ => cs
  !digits.isEmpty && digits.all Char.isDigit

/-- Whether an exponent, with its mark, is all that is there. -/
def looksExponent : List Char → Bool
  | e :: rest =>
    let digits := match rest with
      | '-' :: rest | '+' :: rest => rest
      | _ => rest
    (e = 'e' || e = 'E') && !digits.isEmpty && digits.all Char.isDigit
  | [] => false

/-- Whether a row of characters is a float as floats are told from other fields. It has to have a
point or an exponent, or be infinite or not a number. -/
def looksDouble (cs : List Char) : Bool :=
  let size := match cs with
    | '-' :: rest | '+' :: rest => rest
    | _ => cs
  let (whole, rest) := size.span Char.isDigit
  if size = ['i', 'n', 'f'] || size = ['N', 'a', 'N'] then true
  else
    match rest with
    | '.' :: rest =>
      let (places, rest) := rest.span Char.isDigit
      if places.isEmpty then !whole.isEmpty && rest.isEmpty
      else rest.isEmpty || looksExponent rest
    | rest => !whole.isEmpty && looksExponent rest

/-- The type that a field looks like. -/
def typeOf (text : String) : FieldType :=
  let small := Text.lower text
  if small = "true" || small = "false" then .boolean
  else if looksDouble text.toList then .double
  else if looksInteger text.toList then .integer
  else .text

/-- The type of a column whose fields look like the given types. -/
def commonType (types : List FieldType) : FieldType :=
  if types.isEmpty then .text
  else if types.all (· = .boolean) then .boolean
  else if types.all (· = .integer) then .integer
  else if types.all fun t => t = .integer || t = .double then .double
  else .text

/-- Blanks and tabs at the start of a number do not count. -/
def dropSpace (s : String) : String :=
  String.ofList (s.toList.dropWhile fun c => c = ' ' || c = '\t')

/-- Reads a field of a boolean column. -/
def readBoolean? (text : String) : Option (Option Bool) :=
  match Text.lower text with
  | "true" => some (some true)
  | "false" => some (some false)
  | "" => some none
  | _ => none

/-- Reads a field of a column of integers, which have 64 bits. -/
def readInteger? (text : String) : Option (Option Int) :=
  let digits := (dropSpace text).toList
  if digits = [] then some none
  else (readInt? digits).bind fun n => if fitsWord n then some (some n) else none

/-- Reads a field of a column of floats. -/
def readDouble? (text : String) : Option (Option Float) :=
  let digits := dropSpace text
  if digits = "" then some none else (readFloat? digits).map some

/-- The fields of one column, one for each row, missing where a row is too short. -/
def columnFields (rows : List (List (List UInt8))) (index : Nat) : List (List UInt8) :=
  rows.map fun row => row[index]?.getD []

/-- Reads all fields of a column as a type. -/
def readValues? (type : FieldType) (fields : List (List UInt8)) : Option Values :=
  match type with
  | .text =>
    (fields.mapM fun field => if field = [] then some none else (fieldText? field).map some).map
      .text
  | .boolean =>
    (fields.mapM fun field => (Text.decode? (inner field)).bind readBoolean?).map .boolean
  | .integer =>
    (fields.mapM fun field => (Text.decode? (inner field)).bind readInteger?).map (.integer .i64)
  | .double => (fields.mapM fun field => (Text.decode? (inner field)).bind readDouble?).map .double

/-- The type of a column, told by its first hundred fields. -/
def inferType? (fields : List (List UInt8)) : Option FieldType :=
  (((fields.take 100).filter (· ≠ [])).mapM fun field =>
    (Text.decode? (inner field)).map typeOf).map commonType

/-- Tells columns of one name apart by a number at the end of all but the first. -/
def distinctNames (names : List String) : List String :=
  go [] names
where
  go (before : List String) : List String → List String
    | [] => []
    | name :: rest =>
      let count := before.count name
      (if count = 0 then name else s!"{name}_duplicated_{count - 1}") :: go (name :: before) rest

/-- Reads one column. -/
def readColumn? (textColumns : List String) (rows : List (List (List UInt8)))
    (column : String × Nat) : Option Series := do
  let fields := columnFields rows column.2
  let type ← if textColumns.contains column.1 then some .text else inferType? fields
  let values ← readValues? type fields
  pure ⟨column.1, values⟩

/-- Drops a byte order mark at the start. -/
def dropMark : List UInt8 → List UInt8
  | 0xEF :: 0xBB :: 0xBF :: rest => rest
  | bytes => bytes

/-- The column names in the first record of a file; a file without records has none. -/
def headerNames? (separator : UInt8) (content : ByteArray) : Option (List String) :=
  match Csv.records (Csv.bytes separator) (dropMark content.toList) with
  | [] => some []
  | header :: _ => header.mapM Text.decode?

end DataFile

/-- Reads a data file with the given columns as text. -/
def Frame.ofDataFile? (separator : UInt8) (textColumns : List String) (content : ByteArray) :
    Option Frame := do
  match DataFile.rowsFrom separator .rowStart (DataFile.dropMark content.toList) with
  | [] => none
  | header :: rows =>
    let given ← header.mapM fun name => Text.decode? (DataFile.inner name)
    let names := DataFile.distinctNames given
    if rows.any fun row => row.length > names.length then none
    let columns ← names.zipIdx.mapM (DataFile.readColumn? textColumns rows)
    (Frame.ofSeries columns).toOption

end Disclosure
