import Disclosure.Frame.Reading
import Disclosure.Result.Status
import Disclosure.Table

/-!
# Protected tables

The engine writes a protected table as a data file with the variables that span it, the response and
a column of statuses. Read back, each cell has a status, and the response can be shown with a marker
in place of every value that must not be published.
-/

namespace Disclosure

/-- The name of the column of statuses. -/
def statusColumn : String := "Status"

/-- The marker in place of values that must not be published, unless another is given. -/
def defaultMarker : String := "x"

/-- A protected table: its frame, the columns that span it, and the column of its values. -/
structure ProtectedTable (κ : Type := Values) where
  frame : Frame κ
  index : List String
  response : String

namespace ProtectedTable

variable {κ : Type}

/-- The first of some columns that a frame does not have. -/
def missing? (frame : Frame κ) (names : List String) : Option String :=
  names.find? fun name => !frame.names.contains name

/-- A protected table from a frame, which needs the index columns, the response and statuses. -/
def ofFrame (frame : Frame κ) (index : List String) (response : String) :
    Except Fault (ProtectedTable κ) :=
  match missing? frame (index ++ [response, statusColumn]) with
  | some column => .error (.missingColumn column)
  | none => .ok ⟨frame, index, response⟩

/-- Reads the frame of a protected table. The columns that span it are read as text. -/
def readFrame (fs : FileSystem) (path : Path) (index : List String) : Except Fault Frame :=
  match fs.read path with
  | .error _ => .error (.unreadableTable path)
  | .ok content =>
    match Frame.ofDataFile? 44 index content with
    | none => .error (.unreadableTable path)
    | some frame => .ok frame

/-- Reads a protected table. -/
def load (fs : FileSystem) (path : Path) (index : List String) (response : String) :
    Except Fault ProtectedTable :=
  (readFrame fs path index).bind fun frame => ofFrame frame index response

/-- Reads the output file of a table. -/
def ofTable (fs : FileSystem) (table : Table) : Except Fault ProtectedTable :=
  match table.outputPath with
  | none => .error .noOutputPath
  | some path => load fs path table.explanatory table.response.resultColumn

/-- The values of a column, if it is there. -/
def column? (t : ProtectedTable κ) (name : String) : Option κ :=
  (t.frame.find? name).map (·.values)

variable [FrameColumn κ]

/-- The number of cells. -/
def size (t : ProtectedTable κ) : Nat :=
  t.frame.height

/-! ## Statuses -/

/-- A value as a status number. Floats lose their decimal part, booleans are 0 and 1, and text has
to be an integer; what does not fit into 64 bits is no number. -/
def statusCode? : Value → Option Int
  | .missing => none
  | .text value => (readInt? value.toList).bind fits?
  | .boolean value => some (if value then 1 else 0)
  | .integer value => fits? value
  | .double value => (truncated? value).bind fits?
  | .single value => (truncated? value.toFloat).bind fits?
where
  fits? (n : Int) : Option Int :=
    if fitsWord n then some n else none

/-- The values of a column as status numbers; none if there is no cast to integers. -/
def castCodes? : AnyValues → Option (List (Option Int))
  | .known values => some (values.toList.map statusCode?)
  | .foreign values => values.codes?

/-- The status of a cell with a given number, or without. -/
def statusOf (code : Option Int) : CellStatus :=
  (code.map CellStatus.ofCode).getD .unknown

/-- The status of every cell; none if the column of statuses cannot be cast. -/
def statuses? (t : ProtectedTable κ) : Option (List CellStatus) := do
  let column ← t.column? statusColumn
  let codes ← castCodes? (FrameColumn.view column)
  pure (codes.map statusOf)

/-- How many cells have each status. -/
def statusCounts? (t : ProtectedTable κ) : Option (List (CellStatus × Nat)) := do
  let statuses ← t.statuses?
  pure (CellStatus.all.map fun status => (status, statuses.count status))

/-! ## Values -/

/-- A float as text: all digits of a whole number, and else the shortest text that reads back. -/
def floatText (x : Float) : String :=
  if isWhole x then fixedText 0 x else plainText x

/-- A value as text; a missing one is empty. -/
def valueText : Value → String
  | .missing => ""
  | .text value => value
  | .boolean value => toString value
  | .integer value => toString value
  | .double value => floatText value
  | .single value => floatText value.toFloat

/-- A value of any type as text. -/
def cellText : Cell → String
  | .value value => valueText value
  | .foreign shown => shown

/-- The text to show for a cell. -/
def maskedText (marker : String) (status : CellStatus) (cell : Cell) : String :=
  if status.isSuppressed then marker else cellText cell

/-- The response as text, with a marker in place of what must not be published. -/
def maskedValues? (t : ProtectedTable κ) (marker : String) : Option (List String) := do
  let raw ← t.column? t.response
  let statuses ← t.statuses?
  let cells := (FrameColumn.view raw).cells
  pure (statuses.mapIdx fun row status =>
    maskedText marker status (cells[row]?.getD (.value .missing)))

/-- The index columns, and for every cell what may be published, its status and its value. -/
def shownColumns? (t : ProtectedTable κ) (marker : String) : Option (List (Series κ)) := do
  let index ← t.index.mapM t.frame.find?
  let masked ← t.maskedValues? marker
  let statuses ← t.statuses?
  let raw ← t.column? t.response
  pure (index ++
    [⟨"safe", FrameColumn.ofValues (.text (masked.map some))⟩,
      ⟨"status", FrameColumn.ofValues (.text (statuses.map fun status => some status.letter))⟩,
      ⟨"unsafe", raw⟩])

/-- These columns as a frame; none also if two of them have one name. -/
def toFrame? (t : ProtectedTable κ) (marker : String) : Option (Frame κ) := do
  let columns ← t.shownColumns? marker
  (Frame.ofSeries columns).toOption

/-! ## Tables of data files

Every type of values that data files have can be cast, so nothing fails that is asked of a table
that was read. -/

/-- The values of the response, as the engine wrote them. -/
def rawValues (t : ProtectedTable) : Values :=
  (t.column? t.response).getD (.text [])

/-- The status of every cell. -/
def statuses (t : ProtectedTable) : List CellStatus :=
  t.statuses?.getD []

/-- How many cells have each status. -/
def statusCounts (t : ProtectedTable) : List (CellStatus × Nat) :=
  t.statusCounts?.getD []

/-- The response as text, with a marker in place of what must not be published. -/
def maskedValues (t : ProtectedTable) (marker : String) : List String :=
  (t.maskedValues? marker).getD []

/-- The index columns, and for every cell what may be published, its status and its value. -/
def toFrame (t : ProtectedTable) (marker : String) : Except Fault Frame :=
  Frame.ofSeries ((t.shownColumns? marker).getD [])

end ProtectedTable

end Disclosure
