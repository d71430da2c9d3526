import Disclosure.Fault

/-!
# Rules of both levels in one list

The engine gets the rules of both levels as one list and tells the levels apart by counting: the
first rules of a kind, up to the maximum of the kind, are individual rules, and those after them
are rules for holdings. So dummies have to stand between the two parts wherever a kind is used for
holdings and the individual rules leave places of it free.
-/

namespace Disclosure

/-- The written rules of a table, by level. -/
structure RuleSet where
  individual : List String
  holding : List String
  deriving DecidableEq, Repr

namespace RuleSet

/-- Cuts a text at its bars into trimmed rules; empty ones are skipped. -/
def splitRules (text : String) : List String :=
  ((Text.splitAt '|' text).map Text.trim).filter (· != "")

/-- No rules. -/
def empty : RuleSet := ⟨[], []⟩

/-- Individual rules read from a text with bars between them. -/
def ofText (text : String) : RuleSet :=
  ⟨splitRules text, []⟩

/-- Whether there is no rule at either level. -/
def isEmpty (r : RuleSet) : Bool :=
  r.individual.isEmpty && r.holding.isEmpty

/-- How many rules of a list are of a kind. -/
def countKind (kind : RuleKind) (rules : List String) : Nat :=
  rules.countP fun rule => RuleKind.classify? rule = some kind

/-- The dummies that a kind needs between the two parts, if neither part has too many rules of
it. -/
def padding (r : RuleSet) (kind : RuleKind) : Except RuleFault (List String) :=
  match kind.maximum? with
  | none => .ok []
  | some maximum =>
    let individual := countKind kind r.individual
    let holding := countKind kind r.holding
    if individual > maximum then .error (.tooMany kind .individual maximum)
    else if holding > maximum then .error (.tooMany kind .holding maximum)
    else if holding = 0 then .ok []
    else
      match kind.dummy? with
      | none => .ok []
      | some dummy => .ok (List.replicate (maximum - individual) dummy)

/-- The dummies of several kinds, one kind after another. -/
def paddings (r : RuleSet) : List RuleKind → Except RuleFault (List String)
  | [] => .ok []
  | kind :: rest => do
    let here ← r.padding kind
    let after ← r.paddings rest
    pure (here ++ after)

/-- The rules of both levels as the engine wants them. -/
def compose (r : RuleSet) : Except RuleFault (List String) := do
  let dummies ← r.paddings RuleKind.all
  pure (r.individual ++ dummies ++ r.holding)

/-- The composed rules with bars between them. -/
def render (r : RuleSet) : Except RuleFault String := do
  let rules ← r.compose
  pure ("|".intercalate rules)

end RuleSet

end Disclosure
