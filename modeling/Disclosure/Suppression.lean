import Disclosure.Fault

/-!
# Secondary suppression

Suppressing the unsafe cells of a table is not enough, because a suppressed value can be computed
from the totals. The engine has several methods to choose further cells. A method is written with
the index of its table and a row of arguments; an argument that is left open keeps its place.
-/

namespace Disclosure

/-- A way to choose the cells that protect others. -/
inductive SuppressMethod where
  | hypercube
  | modular
  | optimal
  | network
  | rounding
  | tabularAdjustment
  deriving DecidableEq, Repr

/-- An argument of a method. -/
inductive MethodArgument where
  | integer (value : Int)
  | number (value : Float)
  | flag (value : Bool)
  | text (value : String)

/-- An argument as it is written. -/
def MethodArgument.render : MethodArgument → String
  | integer value => toString value
  | number value => numberText value
  | flag value => if value then "1" else "0"
  | text value => value

namespace SuppressMethod

/-- The code of a method. -/
def code : SuppressMethod → String
  | hypercube => "GH"
  | modular => "MOD"
  | optimal => "OPT"
  | network => "NET"
  | rounding => "RND"
  | tabularAdjustment => "CTA"

/-- The arguments that a method usually has. -/
def usualArguments : SuppressMethod → List Int
  | hypercube => [0, 1]
  | modular => [5, 1, 1, 1]
  | optimal => [5]
  | rounding => [0, 10, 0, 3]
  | network | tabularAdjustment => []

/-- The method with a given code or name, in any case of letters. -/
def ofName? (name : String) : Except Fault SuppressMethod :=
  match Text.upper (Text.trim name) with
  | "GH" | "GHMITER" | "HYPERCUBE" => .ok hypercube
  | "MOD" | "MODULAR" => .ok modular
  | "OPT" | "OPTIMAL" => .ok optimal
  | "NET" | "NETWORK" => .ok network
  | "RND" | "ROUNDING" => .ok rounding
  | "CTA" | "TABULAR_ADJUSTMENT" => .ok tabularAdjustment
  | _ => .error (.unknownMethod name)

end SuppressMethod

/-- A method with its arguments; `none` is an argument that is left open. -/
structure Suppression where
  method : SuppressMethod
  arguments : List (Option MethodArgument)

namespace Suppression

/-- A method with its usual arguments. -/
def usual (method : SuppressMethod) : Suppression :=
  ⟨method, method.usualArguments.map fun value => some (.integer value)⟩

/-- The suppression of the table at an index, as it is written. -/
def render (s : Suppression) (table : Nat) : String :=
  let arguments := s.arguments.map fun
    | some argument => argument.render
    | none => ""
  s.method.code ++ "(" ++ ",".intercalate (toString table :: arguments) ++ ")"

end Suppression

end Disclosure
