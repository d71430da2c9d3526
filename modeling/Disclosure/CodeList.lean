import Disclosure.Csv
import Disclosure.Fault
import Disclosure.Text.Justify

/-!
# Code lists

A code list gives codes their labels, in the order in which the codes were first put in. Each code
occurs once: putting it in again changes its label in place.

The file of a code list has one record a code, the code lined up at the right and then the label. On
reading, codes are trimmed and records without a code are skipped; the last label of a code counts.
-/

namespace Disclosure

/-- Codes with their labels, and the file they were last read from or written to. -/
structure CodeList (π : Type := Path) where
  entries : List (String × String)
  path : Option π
  deriving Repr

namespace CodeList

/-- The code list without codes. -/
def empty : CodeList := ⟨[], none⟩

/-- The label of a code. -/
def get? (l : CodeList) (code : String) : Option String :=
  l.entries.lookup code

/-- Gives a code a label, at its place if it is there and at the end if not. -/
def insert (l : CodeList) (code label : String) : CodeList :=
  { l with entries := put l.entries }
where
  put : List (String × String) → List (String × String)
    | [] => [(code, label)]
    | (other, old) :: rest =>
      if other = code then (other, label) :: rest else (other, old) :: put rest

/-- Takes a code out. -/
def remove (l : CodeList) (code : String) : CodeList :=
  { l with entries := l.entries.eraseP fun (other, _) => other = code }

/-- The code list that results from putting in pairs one after another. -/
def ofPairs (pairs : List (String × String)) : CodeList :=
  pairs.foldl (fun l (code, label) => l.insert code label) empty

/-- The number of codes. -/
def size (l : CodeList) : Nat :=
  l.entries.length

/-- The number of characters in the longest code. -/
def codeLength {π : Type} (l : CodeList π) : Nat :=
  (l.entries.map fun (code, _) => code.length).foldl max 0

/-- Two code lists are the same when they have the same codes and labels in the same order. -/
def same (l m : CodeList) : Bool :=
  l.entries = m.entries

/-- The record of a code and its label, with the line feed that ends it. -/
def line (width : Nat) (code label : String) : List Char :=
  Csv.written Csv.commas (Text.justifyRight width code).toList ++ ',' ::
    (Csv.written Csv.commas label.toList ++ ['\n'])

/-- The text of the file, codes lined up to `width` characters. -/
def toText (l : CodeList) (width : Nat) : String :=
  String.ofList (l.entries.flatMap fun (code, label) => line width code label)

/-- Reads one record into a code list. -/
def addRecord (l : CodeList) (record : List (List Char)) : CodeList :=
  let code := Text.trimChars (record.head?.getD [])
  let label := record[1]?.getD []
  if code = [] then l else l.insert (String.ofList code) (String.ofList label)

/-- Drops a byte order mark at the start. -/
def dropMark : List Char → List Char
  | '\uFEFF' :: rest => rest
  | cs => cs

/-- The code list in the text of a file. -/
def ofText (text : String) : CodeList :=
  (Csv.records Csv.commas (dropMark text.toList)).foldl addRecord empty

/-- Reads the file of a code list. -/
def load (fs : FileSystem) (path : Path) : Except Fault CodeList :=
  match fs.readText path with
  | .error fault => .error (.unreadableCodeList path fault)
  | .ok text => .ok { ofText text with path }

/-- Writes the file of a code list and notes where it is. -/
def save (l : CodeList) (fs : FileSystem) (path : Path) (width : Nat) :
    Except Fault (CodeList × FileSystem) :=
  match fs.writeText path (l.toText width) with
  | .error fault => .error (.file path fault)
  | .ok written => .ok ({ l with path }, written)

end CodeList

end Disclosure
