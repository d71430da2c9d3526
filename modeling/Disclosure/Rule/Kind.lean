import Disclosure.Text.Blank
import Disclosure.Text.Case
import Disclosure.Text.Split

/-!
# Kinds of safety rules

A safety rule decides whether a cell of a table may be published. A written rule starts with the
code of its kind and a bracket, as in `NK(3, 75)`. Some kinds may be used only a few times at each
of the two levels, and of these most have a dummy rule that fills an unused place.
-/

namespace Disclosure

/-- What a rule looks at. -/
inductive RuleKind where
  | dominance
  | percent
  | frequency
  | request
  | zero
  | missing
  | weight
  | manual
  deriving DecidableEq, Repr

/-- The level a rule applies to: single contributors, or holdings that own several of them. -/
inductive RuleLevel where
  | individual
  | holding
  deriving DecidableEq, Repr

/-- The name of a level in messages. -/
def RuleLevel.name : RuleLevel → String
  | .individual => "individual"
  | .holding => "holding"

namespace RuleKind

/-- All kinds, in the order in which rules are composed. -/
def all : List RuleKind :=
  [.dominance, .percent, .frequency, .request, .zero, .missing, .weight, .manual]

/-- The code a written rule starts with. -/
def code : RuleKind → String
  | .dominance => "NK"
  | .percent => "P"
  | .frequency => "FREQ"
  | .request => "REQ"
  | .zero => "ZERO"
  | .missing => "MIS"
  | .weight => "WGT"
  | .manual => "MAN"

/-- The name of a kind in messages. -/
def name : RuleKind → String
  | .dominance => "dominance"
  | .percent => "p%"
  | .frequency => "frequency"
  | .request => "request"
  | .zero => "zero"
  | .missing => "missing"
  | .weight => "weight"
  | .manual => "manual"

/-- How often the kind may be used at one level, if that is limited. -/
def maximum? : RuleKind → Option Nat
  | .dominance | .percent => some 2
  | .request | .zero => some 1
  | .frequency | .missing | .weight | .manual => none

/-- The rule that fills an unused place of the kind. -/
def dummy? : RuleKind → Option String
  | .dominance => some "NK(0, 0)"
  | .percent => some "P(0, 0)"
  | .request => some "REQ(0, 0, 0)"
  | .frequency | .zero | .missing | .weight | .manual => none

/-- The kind with a given code, in any case of letters. -/
def ofCode? (code : String) : Option RuleKind :=
  all.find? fun kind => Text.sameLetters kind.code code

/-- The kind of a written rule, told by what stands before the bracket. -/
def classify? (rule : String) : Option RuleKind :=
  ofCode? (Text.trim (String.ofList (rule.toList.takeWhile (· != '('))))

end RuleKind

end Disclosure
