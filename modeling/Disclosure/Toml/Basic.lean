/-!
# TOML values

A document is a table: names with values, some of which are tables again. A table keeps how it came
about, because that decides whether a later line may still add to it: a table written in braces is
closed, one that a header names cannot be named again, one that was only passed on the way to a
header can still get a header of its own, and one that was made by dotted names only takes more
dotted names.
-/

namespace Disclosure

/-- How a table came about. -/
inductive TomlOrigin where
  | braces
  | header
  | passed
  | dotted
  deriving DecidableEq, Repr

/-- A value of a document. `tables` is a list that grows by one table with every header for it. -/
inductive TomlValue where
  | text (value : String)
  | integer (value : Int)
  | float (value : Float)
  | boolean (value : Bool)
  | moment (written : String)
  | list (items : List TomlValue)
  | table (origin : TomlOrigin) (entries : List (String × TomlValue))
  | tables (items : List (List (String × TomlValue)))
  deriving Inhabited

/-- The names of a table with their values, in the order in which they came. -/
abbrev TomlEntries := List (String × TomlValue)

end Disclosure
