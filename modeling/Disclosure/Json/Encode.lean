import Disclosure.Json.Basic
import Disclosure.Path

/-!
# Values as JSON

Texts, numbers and paths stand for themselves, a value that may be absent is null where it is, lists
become lists, and a pair becomes a list of two.
-/

namespace Disclosure

/-- How the values of a type are told as JSON. -/
class ToJson (α : Type) where
  toJson : α → Json

export ToJson (toJson)

instance : ToJson Json := ⟨id⟩

instance : ToJson String := ⟨.text⟩

instance : ToJson Nat := ⟨fun n => .number (toString n)⟩

instance : ToJson Int := ⟨fun n => .number (toString n)⟩

instance : ToJson Bool := ⟨.boolean⟩

instance : ToJson Path := ⟨fun p => .text p.text⟩

instance [ToJson α] : ToJson (List α) := ⟨fun l => .list (l.map toJson)⟩

instance [ToJson α] : ToJson (Option α) := ⟨fun a => (a.map toJson).getD .null⟩

instance [ToJson α] [ToJson β] : ToJson (α × β) := ⟨fun (a, b) => .list [toJson a, toJson b]⟩

end Disclosure
