import Disclosure.Input.Basic

/-!
# Metadata files

A metadata file tells the engine how to read the data file: the separator, for table data the
markers of statuses, and then each column with its properties and the roles it has. Microdata has
the length of each column in the column's first line; table data has not.
-/

namespace Disclosure.Input

variable {π : Type}

/-- The lines about the roles that a column of microdata has. -/
def microdataRoleLines (roles : MicrodataRoles) (name : String) : List String :=
  (if roles.weight = name then ["\t<WEIGHT>"] else []) ++
  (if roles.request = name then
    ["\t<REQUEST> " ++ " ".intercalate (roles.requestValues.map fun v => "\"" ++ v ++ "\"")]
  else []) ++
  (if roles.holding = name then ["\t<HOLDING>"] else [])

/-- The lines about the roles that a column of table data has. -/
def tableRoleLines (roles : TableRoles) (name : String) : List String :=
  (if roles.topContributors.contains name then ["\t<MAXSCORE>"] else []) ++
  (if roles.lowerProtectionLevel = name then ["\t<LOWERPL>"] else []) ++
  (if roles.upperProtectionLevel = name then ["\t<UPPERPL>"] else []) ++
  (if roles.frequency = name then ["\t<FREQUENCY>"] else []) ++
  (if roles.statusIndicator = name then ["\t<STATUS>"] else [])

/-- The lines about the roles that a column has. -/
def roleLines (roles : Roles) (name : String) : List String :=
  match roles with
  | .microdata roles => microdataRoleLines roles name
  | .tableData roles => tableRoleLines roles name

/-- The lines about statuses, if a column of table data holds them. -/
def statusLines : Roles → List String
  | .microdata _ => []
  | .tableData roles =>
    if roles.statusIndicator.isSome then
      roles.statusMarkers.map fun (status, marker) => "\t<" ++ status ++ "> " ++ marker
    else []

/-- The lines about all columns. -/
def columnLines [FileReference π] (roles : Roles) : List (Column π) → Except Fault (List String)
  | [] => .ok []
  | column :: rest => do
    let lines ← column.metadataLines (roles.kind = .microdata)
    let others ← columnLines roles rest
    pure (lines ++ roleLines roles column.name ++ others)

/-- The separator as a character. -/
def separatorChar (i : Input π) : Char :=
  Char.ofNat i.separator.toNat

/-- The text of the metadata file. -/
def metadataText [FileReference π] (i : Input π) : Except Fault String := do
  let lines ← columnLines i.roles i.columns
  pure (Text.unlines
    (("\t<SEPARATOR> " ++ String.singleton i.separatorChar) :: (statusLines i.roles ++ lines)))

/-- Writes the metadata file and notes where it is. -/
def saveMetadata (i : Input) (fs : FileSystem) (path : Path) : Except Fault (Input × FileSystem) :=
  match i.metadataText with
  | .error fault => .error fault
  | .ok text =>
    match fs.writeText path text with
    | .error fault => .error (.file path fault)
    | .ok written => .ok ({ i with metadataPath := path }, written)

end Disclosure.Input
