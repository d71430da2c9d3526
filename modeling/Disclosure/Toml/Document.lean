import Disclosure.Toml.Scalar

/-!
# TOML documents

A document is read line by line. A line has a name and a value, or it is a header that says which
table the following lines belong to. Where a table is filled from several places of the document,
the rules are about how it came about: nothing is ever given twice, a table in braces is never added
to, dotted names only add to tables made by dotted names, and a header cannot name a table that
dotted names or another header have made.
-/

namespace Disclosure.Toml

/-! ## Adding to tables -/

/-- Puts a value at the place of a name. -/
def replace (name : String) (value : TomlValue) : TomlEntries → TomlEntries
  | [] => [(name, value)]
  | (other, old) :: rest =>
    if other = name then (name, value) :: rest else (other, old) :: replace name value rest

/-- Adds a value under a dotted name. `open` tells whether the table at hand takes the last part of
the name. -/
def insertAt? (value : TomlValue) (takesLast : Bool) : List String → TomlEntries →
    Option TomlEntries
  | [], _ => none
  | [name], entries =>
    if takesLast && (entries.lookup name).isNone then some (entries ++ [(name, value)]) else none
  | name :: rest, entries =>
    match entries.lookup name with
    | none =>
      (insertAt? value true rest []).map fun below => entries ++ [(name, .table .dotted below)]
    | some (.table .dotted below) =>
      (insertAt? value true rest below).map fun below =>
        replace name (.table .dotted below) entries
    | some (.table .passed below) =>
      (insertAt? value false rest below).map fun below =>
        replace name (.table .passed below) entries
    | some (.tables items) =>
      match items.getLast? with
      | none => none
      | some last =>
        (insertAt? value false rest last).map fun last =>
          replace name (.tables (items.dropLast ++ [last])) entries
    | some _ => none

/-- Adds several values under dotted names. -/
def insertAll? (pairs : List (List String × TomlValue)) (entries : TomlEntries) :
    Option TomlEntries :=
  pairs.foldlM (fun entries (path, value) => insertAt? value true path entries) entries

/-- Goes to the table that holds the last part of a header's name and changes it there. Tables that
are missing on the way are made. -/
def underHeader? (change : String → TomlEntries → Option TomlEntries) : List String → TomlEntries →
    Option TomlEntries
  | [], _ => none
  | [name], entries => change name entries
  | name :: rest, entries =>
    match entries.lookup name with
    | none =>
      (underHeader? change rest []).map fun below => entries ++ [(name, .table .passed below)]
    | some (.table .braces _) => none
    | some (.table origin below) =>
      (underHeader? change rest below).map fun below =>
        replace name (.table origin below) entries
    | some (.tables items) =>
      match items.getLast? with
      | none => none
      | some last =>
        (underHeader? change rest last).map fun last =>
          replace name (.tables (items.dropLast ++ [last])) entries
    | some _ => none

/-- A header and the lines that belong to it. The first section of a document has no header. -/
structure Section where
  path : List String
  repeated : Bool
  pairs : List (List String × TomlValue)

/-- Adds a section to a table that holds it. -/
def Section.addTo? (s : Section) (name : String) (entries : TomlEntries) : Option TomlEntries :=
  match s.repeated, entries.lookup name with
  | true, none => (insertAll? s.pairs []).map fun own => entries ++ [(name, .tables [own])]
  | true, some (.tables items) =>
    (insertAll? s.pairs []).map fun own => replace name (.tables (items ++ [own])) entries
  | false, none =>
    (insertAll? s.pairs []).map fun own => entries ++ [(name, .table .header own)]
  | false, some (.table .passed below) =>
    (insertAll? s.pairs below).map fun own => replace name (.table .header own) entries
  | _, _ => none

/-- Adds a section to a document. -/
def Section.place? (s : Section) (document : TomlEntries) : Option TomlEntries :=
  if s.path.isEmpty then insertAll? s.pairs document
  else underHeader? s.addTo? s.path document

/-! ## Names and values -/

/-- A character of a name without quotes. -/
def isNameChar (c : Char) : Bool :=
  c.isAlphanum || c = '_' || c = '-'

/-- Reads one part of a name. -/
def readName? (cs : List Char) : Option (String × List Char) :=
  match readLineText? cs with
  | some (name, rest) => some (String.ofList name, rest)
  | none =>
    match cs.span isNameChar with
    | ([], _) => none
    | (name, rest) => some (String.ofList name, rest)

/-- Reads a name with dots between its parts; blanks may stand around the dots and behind it. -/
def readPath? : Nat → List Char → Option (List String × List Char)
  | 0, _ => none
  | fuel + 1, cs => do
    let (name, rest) ← readName? (cs.dropWhile isBlank)
    match rest.dropWhile isBlank with
    | '.' :: rest =>
      let (path, rest) ← readPath? fuel rest
      pure (name :: path, rest)
    | rest => pure ([name], rest)

/-- Drops a comment up to the end of its line. -/
def dropComment? : List Char → Option (List Char)
  | '\x23' :: rest =>
    match rest.dropWhile isPrintable with
    | [] => some []
    | '\n' :: rest => some ('\n' :: rest)
    | '\r' :: '\n' :: rest => some ('\n' :: rest)
    | _ => none
  | cs => some cs

/-- Drops blanks, line ends and comments, at most `fuel` of them. -/
def skipLines : Nat → List Char → Option (List Char)
  | 0, cs => some cs
  | fuel + 1, cs =>
    match cs with
    | '\n' :: rest | '\r' :: '\n' :: rest | ' ' :: rest | '\t' :: rest => skipLines fuel rest
    | '\x23' :: _ => (dropComment? cs).bind (skipLines fuel)
    | _ => some cs

mutual

/-- Reads a value. -/
def readValue? : Nat → List Char → Option (TomlValue × List Char)
  | 0, _ => none
  | fuel + 1, cs =>
    match cs with
    | '[' :: rest => (readItems? fuel rest).map fun (items, rest) => (.list items, rest)
    | '\x7b' :: rest => do
      let rest := rest.dropWhile isBlank
      let (pairs, rest) ← match rest with
        | '\x7d' :: rest => some ([], rest)
        | _ => readPairs? fuel rest
      let entries ← insertAll? pairs []
      pure (.table .braces entries, rest)
    | '"' :: _ | '\x27' :: _ =>
      (readText? cs).map fun (text, rest) => (.text (String.ofList text), rest)
    | _ =>
      let (word, rest) := takeWord cs
      (wordValue? word).map fun value => (value, rest)

/-- Reads the items of a list and the bracket behind them. -/
def readItems? : Nat → List Char → Option (List TomlValue × List Char)
  | 0, _ => none
  | fuel + 1, cs => do
    match ← skipLines cs.length cs with
    | ']' :: rest => pure ([], rest)
    | cs =>
      let (item, rest) ← readValue? fuel cs
      match ← skipLines rest.length rest with
      | ']' :: rest => pure ([item], rest)
      | ',' :: rest =>
        let (items, rest) ← readItems? fuel rest
        pure (item :: items, rest)
      | _ => none

/-- Reads the entries of a table in braces, of which there is at least one, and the brace behind
them. -/
def readPairs? : Nat → List Char → Option (List (List String × TomlValue) × List Char)
  | 0, _ => none
  | fuel + 1, cs => do
    let (pair, rest) ← readPair? fuel cs
    match rest.dropWhile isBlank with
    | '\x7d' :: rest => pure ([pair], rest)
    | ',' :: rest =>
      let (pairs, rest) ← readPairs? fuel rest
      pure (pair :: pairs, rest)
    | _ => none

/-- Reads a name and its value. -/
def readPair? : Nat → List Char → Option ((List String × TomlValue) × List Char)
  | 0, _ => none
  | fuel + 1, cs => do
    let (path, rest) ← readPath? cs.length cs
    match rest with
    | '=' :: rest =>
      let (value, rest) ← readValue? fuel (rest.dropWhile isBlank)
      pure ((path, value), rest)
    | _ => none

end

/-! ## Lines -/

/-- What a line of a document says. -/
inductive Line where
  | header (path : List String) (repeated : Bool)
  | pair (path : List String) (value : TomlValue)

/-- Drops what may stand behind a header or a value: blanks, a comment and the end of the line. -/
def endLine? (cs : List Char) : Option (List Char) := do
  match ← dropComment? (cs.dropWhile isBlank) with
  | [] => some []
  | '\n' :: rest | '\r' :: '\n' :: rest => some rest
  | _ => none

/-- Reads a line that is not empty. -/
def readLine? (cs : List Char) : Option (Line × List Char) := do
  match cs with
  | '[' :: '[' :: rest =>
    let (path, rest) ← readPath? rest.length rest
    match rest with
    | ']' :: ']' :: rest => pure (.header path true, ← endLine? rest)
    | _ => none
  | '[' :: rest =>
    let (path, rest) ← readPath? rest.length rest
    match rest with
    | ']' :: rest => pure (.header path false, ← endLine? rest)
    | _ => none
  | _ =>
    let ((path, value), rest) ← readPair? (cs.length + 1) cs
    pure (.pair path value, ← endLine? rest)

/-- Reads all lines. -/
def readLines? : Nat → List Char → Option (List Line)
  | 0, _ => some []
  | fuel + 1, cs => do
    match ← skipLines cs.length cs with
    | [] => pure []
    | cs =>
      let (line, rest) ← readLine? cs
      let lines ← readLines? fuel rest
      pure (line :: lines)

/-- Groups the lines of a document by their headers. -/
def sections : List Line → List Section
  | [] => [⟨[], false, []⟩]
  | .pair path value :: rest =>
    match sections rest with
    | [] => []
    | first :: more => { first with pairs := (path, value) :: first.pairs } :: more
  | .header path repeated :: rest =>
    match sections rest with
    | [] => []
    | first :: more => ⟨[], false, []⟩ :: { first with path, repeated } :: more

/-- Reads a document. -/
def read? (text : String) : Option TomlEntries := do
  let cs := match text.toList with
    | '\uFEFF' :: rest => rest
    | cs => cs
  let lines ← readLines? (cs.length + 1) cs
  (sections lines).foldlM (fun document part => part.place? document) []

end Disclosure.Toml
