import Disclosure.JobFile.Basic
import Disclosure.Toml.Document

/-!
# Reading job files

A job file is a TOML document. Every section has a fixed row of fields; a field that is missing has
a usual value or stays open, and a field that no section knows makes the whole file invalid. Only
the details of a suppression may have further fields, which are passed over.

Where a section is expected, a list of all its fields in order does as well. Whole numbers do where
a float is expected.
-/

namespace Disclosure.JobFile

/-! ## Single values -/

/-- Reads a text. -/
def text? : TomlValue → Option String
  | .text value => some value
  | _ => none

/-- Reads a path. -/
def path? (value : TomlValue) : Option Path :=
  (text? value).map Path.mk

/-- Reads a text of one character. -/
def char? (value : TomlValue) : Option Char :=
  match (text? value).map String.toList with
  | some [c] => some c
  | _ => none

/-- Reads yes or no. -/
def flag? : TomlValue → Option Bool
  | .boolean value => some value
  | _ => none

/-- Reads a number of things. -/
def count? : TomlValue → Option Nat
  | .integer value => if 0 ≤ value then some value.toNat else none
  | _ => none

/-- Reads a small number of things, which has 32 bits. -/
def smallCount? (value : TomlValue) : Option Nat :=
  (count? value).filter (· < 4294967296)

/-- Reads a float. -/
def float? : TomlValue → Option Float
  | .float value => some value
  | .integer value => some (Float.ofInt value)
  | _ => none

/-- Reads a list. -/
def list? (read : TomlValue → Option α) : TomlValue → Option (List α)
  | .list items => items.mapM read
  | .tables items => items.mapM fun entries => read (.table .header entries)
  | _ => none

/-- Reads a table with names of any kind, in the order of the names. -/
def sorted? (read : TomlValue → Option α) : TomlValue → Option (List (String × α))
  | .table _ entries =>
    (entries.mergeSort fun a b => decide (a.1 ≤ b.1)).mapM fun (name, value) =>
      (read value).map fun value => (name, value)
  | _ => none

/-! ## Sections -/

/-- The fields of a section with the names it knows. Without names the fields go by their place. -/
structure Fields where
  names : List String
  values : TomlEntries ⊕ List TomlValue

namespace Fields

/-- The fields of a section that knows the given names, and no others. -/
def of? (names : List String) : TomlValue → Option Fields
  | .table _ entries =>
    if entries.all fun (name, _) => names.contains name then some ⟨names, .inl entries⟩ else none
  | .list items => some ⟨names, .inr items⟩
  | .tables items => some ⟨names, .inr (items.map (.table .header))⟩
  | _ => none

/-- The value of a field, if it is there. -/
def value? (f : Fields) (name : String) : Option TomlValue :=
  match f.values with
  | .inl entries => entries.lookup name
  | .inr items => items[f.names.idxOf name]?

/-- Reads a field that has to be there. -/
def required (f : Fields) (name : String) (read : TomlValue → Option α) : Option α :=
  (f.value? name).bind read

/-- Reads a field that may stay open; where fields go by place, it may not. -/
def optional (f : Fields) (name : String) (read : TomlValue → Option α) : Option (Option α) :=
  match f.value? name, f.values with
  | some value, _ => (read value).map some
  | none, .inl _ => some none
  | none, .inr _ => none

/-- Reads a field that has a usual value. -/
def withUsual (f : Fields) (name : String) (usual : α) (read : TomlValue → Option α) : Option α :=
  match f.value? name with
  | some value => read value
  | none => some usual

end Fields

/-! ## Settings -/

/-- Reads a recode: a number, a list or a text. -/
def recode? : TomlValue → Option RecodeSetting
  | .text path => some (.file ⟨path⟩)
  | value => (smallCount? value).map .level <|> (list? text? value).map .codes

/-- Reads an argument of a method; the empty text leaves it open. -/
def argument? : TomlValue → Option (Option MethodArgument)
  | .boolean value => some (some (.flag value))
  | .integer value => some (some (.integer value))
  | .float value => some (some (.number value))
  | .text value => some (if value = "" then none else some (.text value))
  | _ => none

/-- Reads a suppression: the name of a method, or a table with its name and arguments. -/
def suppression? : TomlValue → Option SuppressionSetting
  | .text method => some (.usual method)
  | .table _ entries => do
    let method ← (entries.lookup "method").bind text?
    let arguments ← match entries.lookup "args" with
      | none => some []
      | some value => list? argument? value
    pure (.detailed method arguments)
  | _ => none

/-- The kind of input with a name. -/
def namedKind? (name : String) : Option InputKind :=
  [.microdata, .tableData].find? fun kind => kind.name = name

/-- Reads a kind of input: its name, or a table that has nothing but the name of the kind. -/
def kind? : TomlValue → Option InputKind
  | .text name => namedKind? name
  | .table _ [(name, .table _ [])] | .table _ [(name, .list [])] => namedKind? name
  | _ => none

/-- Reads what is said about a table. -/
def table? (value : TomlValue) : Option TableSection := do
  let f ← Fields.of?
    ["name", "explanatory", "response", "shadow", "cost", "lambda", "safety_rule", "holding_rule",
      "overrides", "overrides_separator", "recodes", "suppression", "write_options", "output"] value
  pure {
    name := ← f.optional "name" text?
    explanatory := ← f.required "explanatory" (list? text?)
    response := ← f.withUsual "response" "<freq>" text?
    shadow := ← f.optional "shadow" text?
    cost := ← f.optional "cost" text?
    lambda := ← f.optional "lambda" float?
    safetyRule := ← f.optional "safety_rule" text?
    holdingRule := ← f.optional "holding_rule" text?
    overrides := ← f.optional "overrides" path?
    overridesSeparator := ← f.optional "overrides_separator" text?
    recodes := ← f.withUsual "recodes" [] (sorted? recode?)
    suppression := ← f.optional "suppression" suppression?
    writeOptions := ← f.withUsual "write_options" [] (sorted? flag?)
    output := ← f.optional "output" path? }

/-- Reads what is said about the input. -/
def input? (value : TomlValue) : Option InputSection := do
  let f ← Fields.of?
    ["kind", "data", "separator", "weight", "request", "request_values", "holding", "frequency",
      "top_contributors", "lower_protection_level", "upper_protection_level", "status_indicator",
      "status_markers", "table"] value
  pure {
    kind := ← f.withUsual "kind" .microdata kind?
    data := ← f.required "data" path?
    separator := ← f.withUsual "separator" ',' char?
    weight := ← f.optional "weight" text?
    request := ← f.optional "request" text?
    requestValues := ← f.optional "request_values" (list? text?)
    holding := ← f.optional "holding" text?
    frequency := ← f.optional "frequency" text?
    topContributors := ← f.withUsual "top_contributors" [] (list? text?)
    lowerProtectionLevel := ← f.optional "lower_protection_level" text?
    upperProtectionLevel := ← f.optional "upper_protection_level" text?
    statusIndicator := ← f.optional "status_indicator" text?
    statusMarkers := ← f.optional "status_markers" (sorted? text?)
    table := ← f.optional "table" table? }

/-- Reads what is said about a column. -/
def column? (value : TomlValue) : Option ColumnSection := do
  let f ← Fields.of?
    ["levels", "hierarchy_file", "hierarchy", "indent", "total_code", "codelist_file", "codelist",
      "length", "decimals", "missing"] value
  pure {
    levels := ← f.optional "levels" (list? smallCount?)
    hierarchyFile := ← f.optional "hierarchy_file" path?
    hierarchy := ← f.optional "hierarchy" (list? (list? text?))
    indent := ← f.optional "indent" text?
    totalCode := ← f.optional "total_code" text?
    codeListFile := ← f.optional "codelist_file" path?
    codeList := ← f.optional "codelist" (sorted? text?)
    length := ← f.optional "length" count?
    decimals := ← f.optional "decimals" smallCount?
    missing := ← f.withUsual "missing" [] (list? text?) }

/-- Reads what a document says about a job. -/
def ofEntries? (entries : TomlEntries) : Option JobFile := do
  let f ← Fields.of?
    ["name", "directory", "input", "columns", "tables", "linked_suppression", "logbook",
      "interactive"] (.table .header entries)
  pure {
    name := ← f.optional "name" text?
    directory := ← f.optional "directory" path?
    input := ← f.required "input" input?
    columns := ← f.withUsual "columns" [] (sorted? column?)
    tables := ← f.withUsual "tables" [] (list? table?)
    linkedSuppression := ← f.optional "linked_suppression" suppression?
    logbook := ← f.optional "logbook" text?
    interactive := ← f.withUsual "interactive" false flag? }

/-- Reads the text of a job file. -/
def ofText? (text : String) : Option JobFile :=
  (Toml.read? text).bind ofEntries?

end Disclosure.JobFile
