import Disclosure.Json.Basic
import Disclosure.Log.Event
import Disclosure.Text.Case
import Disclosure.Text.Justify

/-!
# Log lines

A shown event is one line: the level lined up to five characters, the scopes with colons behind
them, the message and the fields. The full layout has the fields of a scope in braces behind its
name; the compact layout has them at the end of the line. The third layout is a JSON object.
-/

namespace Disclosure

/-- How log lines are laid out. -/
inductive LogLayout where
  | full
  | compact
  | json
  deriving DecidableEq, Repr

/-- The names of the levels in log lines. -/
def LogLevel.heading (level : LogLevel) : String :=
  Text.justifyRight 5 (Text.upper level.name)

namespace LogEntry

/-- Fields with blanks between them. -/
def fieldText (fields : List (String × String)) : String :=
  " ".intercalate (fields.map fun (name, value) => name ++ "=" ++ value)

/-- The line in the full layout. -/
def fullLine (entry : LogEntry) : String :=
  let scopes := entry.scopes.map fun scope =>
    scope.name ++ "\x7b" ++ fieldText scope.fields ++ "\x7d:"
  let lead := if scopes.isEmpty then "" else String.join scopes ++ " "
  " ".intercalate
    [entry.event.level.heading, lead ++ entry.event.message, fieldText entry.event.fields]

/-- The line in the compact layout. -/
def compactLine (entry : LogEntry) : String :=
  let scopes := entry.scopes.map fun scope => scope.name ++ ":"
  let lead := if scopes.isEmpty then "" else String.join scopes ++ " "
  " ".intercalate
    ([entry.event.level.heading, lead ++ entry.event.message, fieldText entry.event.fields] ++
      entry.scopes.map fun scope => fieldText scope.fields)

/-- Fields as entries of a JSON object. -/
def jsonFields (fields : List (String × String)) : List (String × Json) :=
  fields.map fun (name, value) => (name, .text value)

/-- A scope as a JSON object. -/
def jsonScope (scope : LogScope) : Json :=
  .object (jsonFields scope.fields ++ [("name", .text scope.name)])

/-- The line in the JSON layout; the innermost scope is told twice. -/
def jsonLine (entry : LogEntry) : String :=
  let fields := ("message", entry.event.message) :: entry.event.fields
  let scopes := entry.scopes.map jsonScope
  let innermost := scopes.getLast?.toList.map fun scope => ("span", scope)
  let all := if scopes.isEmpty then [] else [("spans", Json.list scopes)]
  (Json.object
    ([("level", .text (Text.upper entry.event.level.name)), ("fields", .object (jsonFields fields))]
      ++ innermost ++ all)).compact

/-- The line in some layout. -/
def line (entry : LogEntry) : LogLayout → String
  | .full => entry.fullLine
  | .compact => entry.compactLine
  | .json => entry.jsonLine

end LogEntry

end Disclosure
