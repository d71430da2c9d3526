/-!
# Separated values

A record is a row of fields with a separator between them, and ends at a line feed, a carriage
return or both. A field may stand in quotes; inside them a quote is written twice, and separators
and line ends are plain characters. Quotes have this meaning only at the start of a field.

The reader takes every input. Empty lines are no records, what follows a closing quote belongs to
the field, and a quote that is never closed runs to the end. The writer puts quotes only where they
are needed.

Files are read as characters or as bytes, so the marks of a dialect may be either.
-/

namespace Disclosure.Csv

/-- The marks that have a meaning. -/
structure Dialect (α : Type) where
  separator : α
  quote : α
  lineFeed : α
  carriageReturn : α

/-- The marks of code lists, as characters. -/
def commas : Dialect Char := ⟨',', '"', '\n', '\r'⟩

/-- The marks of data files with a given separator, as bytes. -/
def bytes (separator : UInt8) : Dialect UInt8 := ⟨separator, 34, 10, 13⟩

/-- Where the reader is. -/
inductive Mode where
  | recordStart
  | fieldStart
  | plain
  | quoted
  | quoteSeen
  deriving DecidableEq, Repr

section

variable {α : Type} [DecidableEq α]

/-- Whether a mark ends a record. -/
def Dialect.endsRecord (d : Dialect α) (c : α) : Bool :=
  c = d.lineFeed || c = d.carriageReturn

/-- Puts a mark in front of the first field of the first record. -/
def push (c : α) : List (List (List α)) → List (List (List α))
  | (field :: fields) :: records => ((c :: field) :: fields) :: records
  | _ => [[[c]]]

/-- Puts the end of a field in front of the first record. -/
def endField : List (List (List α)) → List (List (List α))
  | fields :: records => ([] :: fields) :: records
  | [] => [[[]]]

/-- The records of a text. Where a record is open, the first one in the result is what is left of
it, and its first field what is left of the open field. -/
def recordsFrom (d : Dialect α) : Mode → List α → List (List (List α))
  | .recordStart, [] => []
  | _, [] => [[[]]]
  | mode, c :: cs =>
    match mode with
    | .quoted =>
      if c = d.quote then recordsFrom d .quoteSeen cs
      else push c (recordsFrom d .quoted cs)
    | .recordStart =>
      if d.endsRecord c then recordsFrom d .recordStart cs
      else if c = d.quote then recordsFrom d .quoted cs
      else if c = d.separator then endField (recordsFrom d .fieldStart cs)
      else push c (recordsFrom d .plain cs)
    | .fieldStart =>
      if c = d.quote then recordsFrom d .quoted cs
      else if c = d.separator then endField (recordsFrom d .fieldStart cs)
      else if d.endsRecord c then [[]] :: recordsFrom d .recordStart cs
      else push c (recordsFrom d .plain cs)
    | .plain =>
      if c = d.separator then endField (recordsFrom d .fieldStart cs)
      else if d.endsRecord c then [[]] :: recordsFrom d .recordStart cs
      else push c (recordsFrom d .plain cs)
    | .quoteSeen =>
      if c = d.quote then push c (recordsFrom d .quoted cs)
      else if c = d.separator then endField (recordsFrom d .fieldStart cs)
      else if d.endsRecord c then [[]] :: recordsFrom d .recordStart cs
      else push c (recordsFrom d .plain cs)

/-- The records of a text. -/
def records (d : Dialect α) (cs : List α) : List (List (List α)) :=
  recordsFrom d .recordStart cs

/-- Whether a field has to stand in quotes. -/
def needsQuotes (d : Dialect α) (field : List α) : Bool :=
  field.any fun c => c = d.separator || c = d.quote || d.endsRecord c

/-- Writes every quote twice. -/
def doubleQuotes (d : Dialect α) (field : List α) : List α :=
  field.flatMap fun c => if c = d.quote then [c, c] else [c]

/-- A field in quotes. -/
def quoted (d : Dialect α) (field : List α) : List α :=
  d.quote :: (doubleQuotes d field ++ [d.quote])

/-- A field as it is written. -/
def written (d : Dialect α) (field : List α) : List α :=
  if needsQuotes d field then quoted d field else field

end

end Disclosure.Csv
