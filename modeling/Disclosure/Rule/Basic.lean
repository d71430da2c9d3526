import Disclosure.Fault

/-!
# Safety rules

A rule has a kind and a row of numbers, and is written as its code and the numbers in brackets.
Rules are checked when they are made: counts are positive and percentages lie between 0 and 100.
What the engine takes any number for is not checked.
-/

namespace Disclosure

/-- A rule, as in `NK(3, 75)`. -/
structure SafetyRule where
  kind : RuleKind
  parameters : List Float

namespace SafetyRule

/-- The rule as it is written. -/
def render (r : SafetyRule) : String :=
  r.kind.code ++ "(" ++ ", ".intercalate (r.parameters.map numberText) ++ ")"

/-- Lets a number pass that lies between 0 and 100. -/
def percentage (kind : RuleKind) (parameter : String) (value : Float) : Except RuleFault Float :=
  if 0 ≤ value && value ≤ 100 then .ok value else .error (.notPercentage kind parameter value)

/-- Lets a count pass that is at least 1. -/
def positive (kind : RuleKind) (parameter : String) (value : Int) : Except RuleFault Float :=
  if 1 ≤ value then .ok (Float.ofInt value) else .error (.notPositive kind parameter value)

/-- A cell is unsafe when its `n` largest contributors make up more than `k` percent of it. -/
def dominance (n : Int) (k : Float) : Except RuleFault SafetyRule := do
  let n ← positive .dominance "n" n
  let k ← percentage .dominance "k" k
  pure ⟨.dominance, [n, k]⟩

/-- A cell is unsafe when `n` contributors together can guess another up to `p` percent. -/
def percent (p : Float) (n : Int) : Except RuleFault SafetyRule := do
  let n ← positive .percent "n" n
  let p ← percentage .percent "p" p
  pure ⟨.percent, [p, n]⟩

/-- A cell is unsafe when it has fewer than `n` contributors. -/
def frequency (n : Int) (safetyRange : Float) : Except RuleFault SafetyRule := do
  let n ← positive .frequency "n" n
  let safetyRange ← percentage .frequency "safety_range" safetyRange
  pure ⟨.frequency, [n, safetyRange]⟩

/-- A cell is unsafe when a contributor who asked for protection has a large part of it. -/
def request (percent1 percent2 safetyMargin : Float) : Except RuleFault SafetyRule := do
  let percent1 ← percentage .request "percent1" percent1
  let percent2 ← percentage .request "percent2" percent2
  pure ⟨.request, [percent1, percent2, safetyMargin]⟩

/-- Cells that are zero are unsafe. -/
def zero (safetyRange : Float) : SafetyRule :=
  ⟨.zero, [safetyRange]⟩

/-- The number that stands for a yes or no. -/
def flag (on : Bool) : Float :=
  if on then 1 else 0

/-- Says whether cells with missing codes are safe. -/
def missing (isSafe : Bool) : SafetyRule :=
  ⟨.missing, [flag isSafe]⟩

/-- Says whether weights are used in the rules. -/
def weight (applyWeights : Bool) : SafetyRule :=
  ⟨.weight, [flag applyWeights]⟩

/-- The safety range of cells that are set unsafe by hand. -/
def manual (margin : Float) : Except RuleFault SafetyRule := do
  let margin ← percentage .manual "margin" margin
  pure ⟨.manual, [margin]⟩

end SafetyRule

end Disclosure
