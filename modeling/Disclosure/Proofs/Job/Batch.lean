import Disclosure.Job.Command
import Disclosure.Proofs.Decimal
import Disclosure.Proofs.Path
import Disclosure.Proofs.Text.Joined
import Mathlib.Data.List.Forall2
import Mathlib.Data.Option.Basic

/-!
# No two batches share a text

A batch is a line for each command, and a line has the keyword up to an angle bracket. What is
behind it goes by position: names, paths and separators stand in quotes, numbers end where a
character comes that is in no numeral, and a part that is left out leaves its separator behind. So
each part is told from the text that begins with it, whatever comes next, and a line is read from
left to right.

Three kinds of parts are not looked into, because they are written as they come: the number that
lambda stands for, the rules, and the arguments of a suppression.
-/

namespace Disclosure

variable {rest more : List Char}

/-! ## Parts of an argument -/

theorem toList_quoteArgument (text : String) :
    (quoteArgument text).toList = '"' :: (text.toList ++ ['"']) := by
  simp [quoteArgument]

theorem quoteArgument_append_inj {text other : String} (htext : '"' ∉ text.toList)
    (hother : '"' ∉ other.toList)
    (h : (quoteArgument text).toList ++ rest = (quoteArgument other).toList ++ more) :
    text = other ∧ rest = more := by
  rw [toList_quoteArgument, toList_quoteArgument] at h
  obtain ⟨htexts, hrest⟩ := Text.quoted_append_inj htext hother (by simpa using h)
  exact ⟨String.toList_inj.mp htexts, hrest⟩

theorem numeral_append_inj {n m : Nat} {sep : Char} (hsep : ¬ IsNumeralChar sep)
    (h : (toString n).toList ++ sep :: rest = (toString m).toList ++ sep :: more) :
    n = m ∧ rest = more := by
  obtain ⟨hnumerals, hrest⟩ := Text.append_sep_inj (not_mem_nat hsep n) (not_mem_nat hsep m) h
  exact ⟨toString_nat_inj (String.toList_inj.mp hnumerals), hrest⟩

theorem flagDigit_append_inj {flag other : Bool}
    (h : (flagDigit flag).toList ++ rest = (flagDigit other).toList ++ more) :
    flag = other ∧ rest = more := by
  cases flag <;> cases other <;> simp [flagDigit] at h ⊢ <;> exact h

theorem after_comma (h : ',' :: ' ' :: rest = ',' :: ' ' :: more) : rest = more := by
  simpa using h

/-- Names in quotes, one behind the other, up to something that is no quote. -/
theorem quotedNames_append_inj : ∀ {names others : List String},
    (∀ name ∈ names, '"' ∉ name.toList) → (∀ name ∈ others, '"' ∉ name.toList) →
    rest.head? ≠ some '"' → more.head? ≠ some '"' →
    (String.join (names.map quoteArgument)).toList ++ rest =
      (String.join (others.map quoteArgument)).toList ++ more → names = others ∧ rest = more
  | [], [], _, _, _, _, h => ⟨rfl, by simpa using h⟩
  | [], other :: others, _, _, hrest, _, h => by
    simp [String.join_cons, toList_quoteArgument] at h
    simp [h] at hrest
  | name :: names, [], _, _, _, hmore, h => by
    simp [String.join_cons, toList_quoteArgument] at h
    simp [← h] at hmore
  | name :: names, other :: others, hnames, hothers, hrest, hmore, h => by
    rw [List.forall_mem_cons] at hnames hothers
    rw [List.map_cons, List.map_cons, String.join_cons, String.join_cons, String.toList_append,
      String.toList_append, List.append_assoc, List.append_assoc] at h
    obtain ⟨hfirst, htail⟩ := quoteArgument_append_inj hnames.1 hothers.1 h
    obtain ⟨hnext, hend⟩ := quotedNames_append_inj hnames.2 hothers.2 hrest hmore htail
    exact ⟨by rw [hfirst, hnext], hend⟩

/-- A name in quotes, if there is one. -/
theorem quotedName_append_inj {name other : Option String}
    (hname : ∀ n ∈ name.toList, '"' ∉ n.toList) (hother : ∀ n ∈ other.toList, '"' ∉ n.toList)
    (hrest : rest.head? ≠ some '"') (hmore : more.head? ≠ some '"')
    (h : ((name.map quoteArgument).getD "").toList ++ rest =
      ((other.map quoteArgument).getD "").toList ++ more) : name = other ∧ rest = more := by
  have hjoin : ∀ o : Option String,
      (o.map quoteArgument).getD "" = String.join (o.toList.map quoteArgument) := by
    intro o
    cases o <;> simp [String.join_cons]
  rw [hjoin, hjoin] at h
  obtain ⟨hnames, hend⟩ := quotedNames_append_inj hname hother hrest hmore h
  exact ⟨by simpa using congrArg List.head? hnames, hend⟩

/-- The response counts contributors, or its column has another name than that. -/
theorem Response.argument_append_inj {r s : Response}
    (hr : ∀ n ∈ r.column?.toList, '"' ∉ n.toList ∧ n ≠ frequencyName)
    (hs : ∀ n ∈ s.column?.toList, '"' ∉ n.toList ∧ n ≠ frequencyName)
    (h : r.argument.toList ++ rest = s.argument.toList ++ more) : r = s ∧ rest = more := by
  have hfrequency : '"' ∉ frequencyName.toList := by decide
  cases r with
  | frequency =>
    cases s with
    | frequency => exact ⟨rfl, List.append_cancel_left h⟩
    | column other =>
      obtain ⟨hplain, hother⟩ := hs other (by simp [column?])
      exact absurd (quoteArgument_append_inj hfrequency hplain h).1.symm hother
  | column name =>
    obtain ⟨hplain, hname⟩ := hr name (by simp [column?])
    cases s with
    | frequency => exact absurd (quoteArgument_append_inj hplain hfrequency h).1 hname
    | column other =>
      obtain ⟨hplain', _⟩ := hs other (by simp [column?])
      obtain ⟨rfl, hend⟩ := quoteArgument_append_inj hplain hplain' h
      exact ⟨rfl, hend⟩

/-- The usual measures are numbers below zero, so none of them begins like a column. -/
theorem Cost.argument_append_inj {cost other : Cost}
    (hcost : ∀ n ∈ cost.column?.toList, '"' ∉ n.toList)
    (hother : ∀ n ∈ other.column?.toList, '"' ∉ n.toList)
    (h : cost.argument.toList ++ rest = other.argument.toList ++ more) :
    cost = other ∧ rest = more := by
  have hmeasures : argument .frequency = "-1" ∧ argument .unity = "-2" ∧
      argument .distance = "-3" := ⟨rfl, rfl, rfl⟩
  have hcolumn : ∀ name, argument (.column name) = quoteArgument name := fun _ => rfl
  cases cost <;> cases other
  case column.column name name' =>
    obtain ⟨rfl, hend⟩ := quoteArgument_append_inj (hcost name (by simp [column?]))
      (hother name' (by simp [column?])) h
    exact ⟨rfl, hend⟩
  all_goals simp [hmeasures, hcolumn, toList_quoteArgument] at h ⊢
  all_goals exact h

theorem Cost.argument_begins (cost : Cost) :
    ∃ c tail, cost.argument.toList = c :: tail ∧ c ≠ '|' := by
  cases cost with
  | column name => exact ⟨'"', _, toList_quoteArgument name, by decide⟩
  | frequency => exact ⟨'-', ['1'], rfl, by decide⟩
  | unity => exact ⟨'-', ['2'], rfl, by decide⟩
  | distance => exact ⟨'-', ['3'], rfl, by decide⟩

/-- The costs, if there are any, in front of what begins with a bar. -/
theorem Cost.optional_append_inj {cost other : Option Cost}
    (hcost : ∀ n ∈ (cost.bind column?).toList, '"' ∉ n.toList)
    (hother : ∀ n ∈ (other.bind column?).toList, '"' ∉ n.toList)
    (hrest : ∀ c ∈ rest.head?, c = '|') (hmore : ∀ c ∈ more.head?, c = '|')
    (h : ((cost.map argument).getD "").toList ++ rest =
      ((other.map argument).getD "").toList ++ more) : cost = other ∧ rest = more := by
  cases cost with
  | none =>
    cases other with
    | none => exact ⟨rfl, by simpa using h⟩
    | some other =>
      obtain ⟨c, tail, hbegins, hbar⟩ := other.argument_begins
      have hstart : rest = c :: (tail ++ more) := by simpa [hbegins] using h
      exact absurd (hrest c (by simp [hstart])) hbar
  | some cost =>
    cases other with
    | none =>
      obtain ⟨c, tail, hbegins, hbar⟩ := cost.argument_begins
      have hstart : c :: (tail ++ rest) = more := by simpa [hbegins] using h
      exact absurd (hmore c (by simp [← hstart])) hbar
    | some other =>
      obtain ⟨rfl, hend⟩ := argument_append_inj hcost hother h
      exact ⟨rfl, hend⟩

/-- A path begins with a quote, and no numeral has one. -/
theorem RecodeTarget.argument_inj {target other : RecodeTarget}
    (h : target.argument = other.argument) : target = other := by
  have hquote : ∀ (path : Path) (n : Nat), quoteArgument path.text ≠ toString n := by
    intro path n heq
    have hmem : '"' ∈ (toString n).toList := by simp [← heq, toList_quoteArgument]
    exact not_mem_nat (by decide) n hmem
  cases target with
  | file path =>
    cases other with
    | file place =>
      have hlists := congrArg String.toList h
      simp only [argument, toList_quoteArgument, List.cons.injEq, true_and,
        List.append_cancel_right_eq] at hlists
      rw [Path.text_inj (String.toList_inj.mp hlists)]
    | level n => exact absurd h (hquote path n)
  | level n =>
    cases other with
    | file place => exact absurd h.symm (hquote place n)
    | level m => rw [toString_nat_inj h]

/-! ## The options of a written table -/

/-- A key ends at its sign. -/
theorem optionText_append_inj {option other : String × Bool}
    (hoption : '+' ∉ option.1.toList ∧ '-' ∉ option.1.toList)
    (hother : '+' ∉ other.1.toList ∧ '-' ∉ other.1.toList)
    (h : (BatchCommand.optionText option).toList ++ rest =
      (BatchCommand.optionText other).toList ++ more) : option = other ∧ rest = more := by
  obtain ⟨key, on⟩ := option
  obtain ⟨key', on'⟩ := other
  have hkey : ∀ {s : String}, '+' ∉ s.toList ∧ '-' ∉ s.toList →
      ∀ c ∈ s.toList, (c != '+' && c != '-') = true := by
    intro s hs c hc
    have hplus : c ≠ '+' := fun heq => hs.1 (heq ▸ hc)
    have hminus : c ≠ '-' := fun heq => hs.2 (heq ▸ hc)
    simp [hplus, hminus]
  have htext : ∀ (s : String) (b : Bool) (tail : List Char),
      (BatchCommand.optionText (s, b)).toList ++ tail =
        s.toList ++ (if b then '+' else '-') :: tail := by
    intro s b tail
    cases b <;> simp [BatchCommand.optionText]
  rw [htext, htext] at h
  obtain ⟨hkeys, hsigns⟩ := Text.append_inj_of_begin (hkey hoption) (hkey hother)
    (by cases on <;> simp) (by cases on' <;> simp) h
  obtain ⟨hsign, hend⟩ := List.cons.inj hsigns
  have hon : on = on' := by cases on <;> cases on' <;> simp at hsign ⊢
  exact ⟨Prod.ext (String.toList_inj.mp hkeys) hon, hend⟩

theorem optionText_ne_empty (option : String × Bool) : BatchCommand.optionText option ≠ "" := by
  obtain ⟨key, on⟩ := option
  cases on <;> simp [BatchCommand.optionText]

theorem optionTexts_inj : ∀ {options others : List (String × Bool)},
    (∀ o ∈ options, '+' ∉ o.1.toList ∧ '-' ∉ o.1.toList) →
    (∀ o ∈ others, '+' ∉ o.1.toList ∧ '-' ∉ o.1.toList) →
    String.join (options.map BatchCommand.optionText) =
      String.join (others.map BatchCommand.optionText) → options = others
  | [], [], _, _, _ => rfl
  | [], other :: others, _, _, h => by
    simp [String.join_cons, optionText_ne_empty, eq_comm (a := "")] at h
  | option :: options, [], _, _, h => by
    simp [String.join_cons, optionText_ne_empty] at h
  | option :: options, other :: others, hoptions, hothers, h => by
    rw [List.forall_mem_cons] at hoptions hothers
    have hlists := congrArg String.toList h
    rw [List.map_cons, List.map_cons, String.join_cons, String.join_cons, String.toList_append,
      String.toList_append] at hlists
    obtain ⟨hfirst, htail⟩ := optionText_append_inj hoptions.1 hothers.1 hlists
    rw [hfirst, optionTexts_inj hoptions.2 hothers.2 (String.toList_inj.mp htail)]

/-! ## Suppressions -/

theorem SuppressMethod.code_inj {m n : SuppressMethod} (h : m.code = n.code) : m = n := by
  cases m <;> cases n <;> first | rfl | simp [code] at h

/-- An argument of a method as it is written; one that is left open is nothing. -/
def MethodArgument.written : Option MethodArgument → String
  | some argument => argument.render
  | none => ""

/-- The arguments of a method, with commas between them. -/
def Suppression.argumentText (s : Suppression) : String :=
  ",".intercalate (s.arguments.map MethodArgument.written)

theorem Suppression.render_eq (s : Suppression) (table : Nat) : s.render table =
    s.method.code ++ "(" ++
      ",".intercalate (toString table :: s.arguments.map MethodArgument.written) ++ ")" :=
  rfl

theorem Suppression.toList_render (s : Suppression) (table : Nat) :
    (s.render table).toList = s.method.code.toList ++ '(' :: ((toString table).toList ++
      (if s.arguments = [] then [] else ',' :: s.argumentText.toList) ++ [')']) := by
  rw [render_eq, argumentText]
  cases s.arguments with
  | nil => simp
  | cons argument rest => simp [String.intercalate_cons_cons]

theorem Suppression.render_inj {s t : Suppression} {table other : Nat}
    (h : s.render table = t.render other) :
    table = other ∧ s.method = t.method ∧ s.argumentText = t.argumentText := by
  have hlists := congrArg String.toList h
  rw [toList_render, toList_render] at hlists
  have hcode : ∀ m : SuppressMethod, '(' ∉ m.code.toList := by
    intro m
    cases m <;> decide
  obtain ⟨hmethod, hinner⟩ := Text.append_sep_inj (hcode _) (hcode _) hlists
  have hnumeral : ∀ n : Nat, ',' ∉ (toString n).toList := not_mem_nat (by decide)
  have hinner := List.append_cancel_right hinner
  have hmethod := SuppressMethod.code_inj (String.toList_inj.mp hmethod)
  by_cases hs : s.arguments = []
  · by_cases ht : t.arguments = []
    · rw [if_pos hs, if_pos ht, List.append_nil, List.append_nil] at hinner
      refine ⟨toString_nat_inj (String.toList_inj.mp hinner), hmethod, ?_⟩
      rw [argumentText, argumentText, hs, ht]
    · rw [if_pos hs, if_neg ht, List.append_nil] at hinner
      exact absurd (hinner ▸ List.mem_append_right _ List.mem_cons_self) (hnumeral table)
  · by_cases ht : t.arguments = []
    · rw [if_neg hs, if_pos ht, List.append_nil] at hinner
      exact absurd (hinner ▸ List.mem_append_right _ List.mem_cons_self) (hnumeral other)
    · rw [if_neg hs, if_neg ht] at hinner
      obtain ⟨htable, htexts⟩ := numeral_append_inj (by decide) hinner
      exact ⟨htable, hmethod, String.toList_inj.mp htexts⟩

/-! ## Commands -/

namespace BatchCommand

variable {c d : BatchCommand}

/-- The names, paths and separators of a command, which stand in quotes. -/
def quotedTexts : BatchCommand → List String
  | logbook path | versionInfo path | openMicrodata path | openTableData path
  | openMetadata path | writeTable _ _ _ path => [path.text]
  | specifyTable explanatory response shadow cost _ =>
    explanatory ++ response.column?.toList ++ shadow.toList ++ (cost.bind Cost.column?).toList
  | apriori path _ separator _ _ => [path.text, separator]
  | recode _ column (.file path) => [column, path.text]
  | recode _ column (.level _) => [column]
  | _ => []

/-- The rules of a command and the texts among the arguments of a suppression. -/
def bareTexts : BatchCommand → List String
  | safetyRule rules => rules
  | suppress _ s => s.arguments.filterMap fun
    | some (.text text) => some text
    | _ => none
  | _ => []

/-- The keys of the options of a written table. -/
def optionKeys : BatchCommand → List String
  | writeTable _ _ options _ => options.map (·.1)
  | _ => []

/-- The column that is the response. -/
def responseColumn? : BatchCommand → Option String
  | specifyTable _ response _ _ _ => response.column?
  | _ => none

/-- No text of the command has a character that would end it where it stands. -/
structure IsPlain (c : BatchCommand) : Prop where
  /-- Names, paths and separators have no quotes and line feeds. -/
  quoted : ∀ text ∈ c.quotedTexts, '"' ∉ text.toList ∧ '\n' ∉ text.toList
  /-- Rules and arguments of a suppression have no line feeds. -/
  bare : ∀ text ∈ c.bareTexts, '\n' ∉ text.toList
  /-- Keys of options have no signs, commas and line feeds. -/
  keys : ∀ key ∈ c.optionKeys, '+' ∉ key.toList ∧ '-' ∉ key.toList ∧ ',' ∉ key.toList ∧
    '\n' ∉ key.toList
  /-- No column is named like the count of contributors. -/
  response : ∀ name ∈ c.responseColumn?.toList, name ≠ Response.frequencyName

instance (c : BatchCommand) : Decidable c.IsPlain :=
  decidable_of_iff ((∀ text ∈ c.quotedTexts, '"' ∉ text.toList ∧ '\n' ∉ text.toList) ∧
      (∀ text ∈ c.bareTexts, '\n' ∉ text.toList) ∧
      (∀ key ∈ c.optionKeys, '+' ∉ key.toList ∧ '-' ∉ key.toList ∧ ',' ∉ key.toList ∧
        '\n' ∉ key.toList) ∧
      ∀ name ∈ c.responseColumn?.toList, name ≠ Response.frequencyName)
    ⟨fun ⟨hquoted, hbare, hkeys, hresponse⟩ => ⟨hquoted, hbare, hkeys, hresponse⟩,
      fun h => ⟨h.quoted, h.bare, h.keys, h.response⟩⟩

/-- Two commands are the same, as far as the engine is told: equal, but that lambda goes by its
numeral, rules by their text and arguments of a suppression by theirs. -/
inductive Agree : BatchCommand → BatchCommand → Prop
  | same (c : BatchCommand) : Agree c c
  | specifyTable {lambda other : Option Float} (explanatory : List String) (response : Response)
      (shadow : Option String) (cost : Option Cost) :
      lambda.map numberText = other.map numberText →
      Agree (.specifyTable explanatory response shadow cost lambda)
        (.specifyTable explanatory response shadow cost other)
  | safetyRule {rules others : List String} : "|".intercalate rules = "|".intercalate others →
      Agree (.safetyRule rules) (.safetyRule others)
  | suppress (table : Nat) {s t : Suppression} : s.method = t.method →
      s.argumentText = t.argumentText → Agree (.suppress table s) (.suppress table t)

/-! ## Keywords -/

theorem not_mem_keyword (c : BatchCommand) : '>' ∉ c.keyword.toList ∧ '\n' ∉ c.keyword.toList := by
  cases c <;> simp [keyword]

theorem toList_render (c : BatchCommand) : c.render.toList =
    '<' :: (c.keyword.toList ++ '>' :: (c.argument?.map fun a => '\t' :: a.toList).getD []) := by
  rw [render]
  cases c.argument? <;> simp

/-- A line tells the keyword and the argument. -/
theorem render_inj (h : c.render = d.render) :
    c.keyword = d.keyword ∧ c.argument? = d.argument? := by
  have hlists := congrArg String.toList h
  rw [toList_render, toList_render, List.cons.injEq] at hlists
  obtain ⟨hkeyword, htail⟩ := Text.append_sep_inj c.not_mem_keyword.1 d.not_mem_keyword.1 hlists.2
  refine ⟨String.toList_inj.mp hkeyword, ?_⟩
  cases hc : c.argument? with
  | none =>
    cases hd : d.argument? with
    | none => rfl
    | some argument => simp [hc, hd] at htail
  | some argument =>
    cases hd : d.argument? with
    | none => simp [hc, hd] at htail
    | some other =>
      rw [hc, hd] at htail
      exact congrArg some (String.toList_inj.mp (List.tail_eq_of_cons_eq htail))

/-! ## Commands with arguments -/

/-- The lambda of a table behind its bar, or nothing. -/
def lambdaTail (lambda : Option Float) : List Char :=
  ((lambda.map numberText).map fun text => '|' :: text.toList).getD []

theorem lambdaTail_inj {lambda other : Option Float} (h : lambdaTail lambda = lambdaTail other) :
    lambda.map numberText = other.map numberText := by
  rw [lambdaTail, lambdaTail] at h
  cases hl : lambda.map numberText with
  | none =>
    cases ho : other.map numberText with
    | none => rfl
    | some text => simp [hl, ho] at h
  | some text =>
    cases ho : other.map numberText with
    | none => simp [hl, ho] at h
    | some word =>
      rw [hl, ho] at h
      exact congrArg some (String.toList_inj.mp (List.tail_eq_of_cons_eq h))

theorem lambdaTail_head (lambda : Option Float) : ∀ c ∈ (lambdaTail lambda).head?, c = '|' := by
  cases lambda <;> simp [lambdaTail]

theorem toList_specifyTable (explanatory : List String) (response : Response)
    (shadow : Option String) (cost : Option Cost) (lambda : Option Float) :
    (argument? (.specifyTable explanatory response shadow cost lambda)).map String.toList =
      some ((String.join (explanatory.map quoteArgument)).toList ++ '|' ::
        (response.argument.toList ++ '|' :: (((shadow.map quoteArgument).getD "").toList ++ '|' ::
          (((cost.map Cost.argument).getD "").toList ++ lambdaTail lambda)))) := by
  cases lambda <;> simp [argument?, lambdaTail, String.intercalate_cons_cons]

theorem specifyTable_agree {explanatory names : List String} {response other : Response}
    {shadow shade : Option String} {cost price : Option Cost} {lambda number : Option Float}
    (hc : (specifyTable explanatory response shadow cost lambda).IsPlain)
    (hd : (specifyTable names other shade price number).IsPlain)
    (h : argument? (.specifyTable explanatory response shadow cost lambda) =
      argument? (.specifyTable names other shade price number)) :
    Agree (.specifyTable explanatory response shadow cost lambda)
      (.specifyTable names other shade price number) := by
  have hlists := congrArg (Option.map String.toList) h
  rw [toList_specifyTable, toList_specifyTable, Option.some.injEq] at hlists
  -- what is quoted has no quote inside, wherever in the command it stands
  have hquoted := hc.quoted
  have hquoted' := hd.quoted
  simp only [quotedTexts, List.mem_append, or_imp, forall_and] at hquoted hquoted'
  obtain ⟨⟨⟨⟨hexplanatory, hresponse⟩, hshadow⟩, hcost⟩, -⟩ := hquoted
  obtain ⟨⟨⟨⟨hexplanatory', hresponse'⟩, hshadow'⟩, hcost'⟩, -⟩ := hquoted'
  obtain ⟨rfl, h₁⟩ := quotedNames_append_inj hexplanatory hexplanatory' (by simp) (by simp) hlists
  obtain ⟨rfl, h₂⟩ := Response.argument_append_inj
    (fun n hn => ⟨hresponse n hn, hc.response n hn⟩)
    (fun n hn => ⟨hresponse' n hn, hd.response n hn⟩) (List.tail_eq_of_cons_eq h₁)
  obtain ⟨rfl, h₃⟩ := quotedName_append_inj hshadow hshadow' (by simp) (by simp)
    (List.tail_eq_of_cons_eq h₂)
  obtain ⟨rfl, h₄⟩ := Cost.optional_append_inj hcost hcost' (lambdaTail_head lambda)
    (lambdaTail_head number) (List.tail_eq_of_cons_eq h₃)
  exact .specifyTable _ _ _ _ (lambdaTail_inj h₄)

theorem toList_apriori (path : Path) (table : Nat) (separator : String) (ignore expand : Bool) :
    (argument? (.apriori path table separator ignore expand)).map String.toList =
      some ((quoteArgument path.text).toList ++ ',' :: ' ' :: ((toString table).toList ++ ',' ::
        ' ' :: ((quoteArgument separator).toList ++ ',' :: ' ' :: ((flagDigit ignore).toList ++
          ',' :: ' ' :: (flagDigit expand).toList)))) := by
  simp [argument?, String.intercalate_cons_cons]

theorem apriori_inj {path other : Path} {table number : Nat} {separator mark : String}
    {ignore skip expand spread : Bool} (hc : (apriori path table separator ignore expand).IsPlain)
    (hd : (apriori other number mark skip spread).IsPlain)
    (h : argument? (.apriori path table separator ignore expand) =
      argument? (.apriori other number mark skip spread)) :
    apriori path table separator ignore expand = apriori other number mark skip spread := by
  have hlists := congrArg (Option.map String.toList) h
  rw [toList_apriori, toList_apriori, Option.some.injEq] at hlists
  have hquoted := hc.quoted
  have hquoted' := hd.quoted
  simp only [quotedTexts, List.forall_mem_cons] at hquoted hquoted'
  obtain ⟨hpath, h₁⟩ := quoteArgument_append_inj hquoted.1.1 hquoted'.1.1 hlists
  obtain ⟨rfl, h₂⟩ := numeral_append_inj (by decide) (after_comma h₁)
  obtain ⟨rfl, h₃⟩ := quoteArgument_append_inj hquoted.2.1.1 hquoted'.2.1.1
    (List.tail_eq_of_cons_eq h₂)
  obtain ⟨rfl, h₄⟩ := flagDigit_append_inj (after_comma h₃)
  obtain ⟨rfl, -⟩ := flagDigit_append_inj (congrArg (· ++ []) (after_comma h₄))
  rw [Path.text_inj hpath]

theorem toList_recode (table : Nat) (column : String) (target : RecodeTarget) :
    (argument? (.recode table column target)).map String.toList =
      some ((toString table).toList ++ ',' :: ' ' :: ((quoteArgument column).toList ++
        ',' :: ' ' :: target.argument.toList)) := by
  simp [argument?, String.intercalate_cons_cons]

theorem recode_inj {table number : Nat} {column other : String} {target aim : RecodeTarget}
    (hc : (recode table column target).IsPlain) (hd : (recode number other aim).IsPlain)
    (h : argument? (.recode table column target) = argument? (.recode number other aim)) :
    recode table column target = recode number other aim := by
  have hlists := congrArg (Option.map String.toList) h
  rw [toList_recode, toList_recode, Option.some.injEq] at hlists
  have hcolumn : ∀ {table : Nat} {name : String} {target : RecodeTarget},
      (recode table name target).IsPlain → '"' ∉ name.toList := by
    intro table name target hplain
    cases target <;> exact (hplain.quoted name (by simp [quotedTexts])).1
  obtain ⟨rfl, h₁⟩ := numeral_append_inj (by decide) hlists
  obtain ⟨rfl, h₂⟩ := quoteArgument_append_inj (hcolumn hc) (hcolumn hd)
    (List.tail_eq_of_cons_eq h₁)
  have htarget := RecodeTarget.argument_inj (String.toList_inj.mp (after_comma h₂))
  rw [htarget]

/-- What is in no key and is no sign is in no option. -/
theorem not_mem_options {ch : Char} (hch : ch ∉ ['+', '-']) {options : List (String × Bool)}
    (h : ∀ key ∈ options.map (·.1), ch ∉ key.toList) :
    ch ∉ (String.join (options.map optionText)).toList := by
  refine Text.not_mem_join fun part hpart => ?_
  obtain ⟨⟨key, on⟩, ho, rfl⟩ := List.mem_map.mp hpart
  have hkey := h key (List.mem_map_of_mem (f := Prod.fst) ho)
  have hsigns : ch ≠ '+' ∧ ch ≠ '-' := by simpa using hch
  cases on <;> simp [optionText, hkey, hsigns]

theorem toList_writeTable (table kind : Nat) (options : List (String × Bool)) (path : Path) :
    (argument? (.writeTable table kind options path)).map String.toList =
      some ('(' :: ((toString table).toList ++ ',' :: ' ' :: ((toString kind).toList ++
        ',' :: ' ' :: ((String.join (options.map optionText)).toList ++ ',' :: ' ' ::
          ((quoteArgument path.text).toList ++ [')']))))) := by
  simp [argument?, String.intercalate_cons_cons]

theorem writeTable_inj {table number kind sort : Nat} {options others : List (String × Bool)}
    {path other : Path} (hc : (writeTable table kind options path).IsPlain)
    (hd : (writeTable number sort others other).IsPlain)
    (h : argument? (.writeTable table kind options path) =
      argument? (.writeTable number sort others other)) :
    writeTable table kind options path = writeTable number sort others other := by
  have hlists := congrArg (Option.map String.toList) h
  rw [toList_writeTable, toList_writeTable, Option.some.injEq, List.cons.injEq] at hlists
  obtain ⟨rfl, h₁⟩ := numeral_append_inj (by decide) hlists.2
  obtain ⟨rfl, h₂⟩ := numeral_append_inj (by decide) (List.tail_eq_of_cons_eq h₁)
  obtain ⟨hoptions, h₃⟩ := Text.append_sep_inj
    (not_mem_options (by decide) fun key hkey => (hc.keys key hkey).2.2.1)
    (not_mem_options (by decide) fun key hkey => (hd.keys key hkey).2.2.1)
    (List.tail_eq_of_cons_eq h₂)
  have hsigns : ∀ {table kind : Nat} {options : List (String × Bool)} {path : Path},
      (writeTable table kind options path).IsPlain →
      ∀ o ∈ options, '+' ∉ o.1.toList ∧ '-' ∉ o.1.toList := by
    intro table kind options path hplain o ho
    obtain ⟨hplus, hminus, -⟩ := hplain.keys o.1 (List.mem_map_of_mem ho)
    exact ⟨hplus, hminus⟩
  have hsame := optionTexts_inj (hsigns hc) (hsigns hd) (String.toList_inj.mp hoptions)
  obtain ⟨hpath, -⟩ := quoteArgument_append_inj (hc.quoted path.text (by simp [quotedTexts])).1
    (hd.quoted other.text (by simp [quotedTexts])).1 (List.tail_eq_of_cons_eq h₃)
  rw [hsame, Path.text_inj hpath]

/-! ## Lines -/

theorem feed_not_mem_numeral {cs : List Char} (h : ∀ ch ∈ cs, IsNumeralChar ch) : '\n' ∉ cs :=
  fun hmem => absurd (h _ hmem) (by decide)

theorem feed_not_mem_quoteArgument {text : String} (h : '\n' ∉ text.toList) :
    '\n' ∉ (quoteArgument text).toList := by
  simpa [toList_quoteArgument] using h

theorem feed_not_mem_flagDigit (flag : Bool) : '\n' ∉ (flagDigit flag).toList := by
  cases flag <;> decide

theorem feed_not_mem_suppression {s : Suppression} {table : Nat}
    (h : (suppress table s).IsPlain) : '\n' ∉ (s.render table).toList := by
  have hargument : ∀ argument ∈ s.arguments, '\n' ∉ (MethodArgument.written argument).toList := by
    intro argument hmem
    rcases argument with _ | value | value | value | text
    · simp [MethodArgument.written]
    · exact feed_not_mem_numeral fun _ => isNumeralChar_int
    · exact feed_not_mem_numeral fun _ => isNumeralChar_numberText
    · exact feed_not_mem_flagDigit value
    · refine h.bare text ?_
      exact List.mem_filterMap.mpr ⟨_, hmem, rfl⟩
  have hcode : '\n' ∉ s.method.code.toList := by
    cases s.method <;> decide
  have hinner : '\n' ∉ (",".intercalate
      (toString table :: s.arguments.map MethodArgument.written)).toList := by
    refine Text.not_mem_intercalate (by decide) ?_
    rw [List.forall_mem_cons, List.forall_mem_map]
    exact ⟨not_mem_nat (by decide) _, hargument⟩
  rw [Suppression.render_eq]
  simp only [String.toList_append, List.mem_append, not_or]
  exact ⟨⟨⟨hcode, by decide⟩, hinner⟩, by decide⟩

theorem IsPlain.feed_not_mem_argument (h : c.IsPlain) {argument : String}
    (hargument : c.argument? = some argument) : '\n' ∉ argument.toList := by
  have hquoted := h.quoted
  cases c with
  | logbook path | versionInfo path | openMicrodata path | openTableData path
  | openMetadata path =>
    rw [← Option.some.inj hargument]
    exact feed_not_mem_quoteArgument (hquoted path.text (by simp [quotedTexts])).2
  | specifyTable explanatory response shadow cost lambda =>
    simp only [quotedTexts, List.mem_append, or_imp, forall_and] at hquoted
    obtain ⟨-, ⟨⟨hexplanatory, hresponse⟩, hshadow⟩, hcost⟩ := hquoted
    rw [← Option.some.inj hargument]
    refine Text.not_mem_intercalate (by decide) ?_
    simp only [List.cons_append, List.nil_append, List.forall_mem_cons]
    refine ⟨Text.not_mem_join ?_, ?_, ?_, ?_, ?_⟩
    · rw [List.forall_mem_map]
      exact fun name hname => feed_not_mem_quoteArgument (hexplanatory name hname)
    · cases response with
      | frequency => decide
      | column name =>
        exact feed_not_mem_quoteArgument (hresponse name (by simp [Response.column?]))
    · cases shadow with
      | none => simp
      | some name => exact feed_not_mem_quoteArgument (hshadow name (by simp))
    · rcases cost with _ | name | _ | _ | _
      · simp
      · exact feed_not_mem_quoteArgument (hcost name (by simp [Cost.column?]))
      · decide
      · decide
      · decide
    · cases lambda with
      | none => simp
      | some value => simpa using feed_not_mem_numeral fun _ => isNumeralChar_numberText
  | safetyRule rules =>
    rw [← Option.some.inj hargument]
    exact Text.not_mem_intercalate (by decide) h.bare
  | readTable totals =>
    obtain ⟨flag, _, rfl⟩ := Option.map_eq_some_iff.mp hargument
    exact feed_not_mem_flagDigit flag
  | apriori path table separator ignore expand =>
    rw [← Option.some.inj hargument]
    refine Text.not_mem_intercalate (by decide) ?_
    simp only [List.forall_mem_cons]
    exact ⟨feed_not_mem_quoteArgument (hquoted path.text (by simp [quotedTexts])).2,
      not_mem_nat (by decide) _,
      feed_not_mem_quoteArgument (hquoted separator (by simp [quotedTexts])).2,
      feed_not_mem_flagDigit ignore, feed_not_mem_flagDigit expand, by simp⟩
  | recode table column target =>
    rw [← Option.some.inj hargument]
    refine Text.not_mem_intercalate (by decide) ?_
    simp only [List.forall_mem_cons]
    refine ⟨not_mem_nat (by decide) _, ?_, ?_, by simp⟩
    · cases target <;>
        exact feed_not_mem_quoteArgument (hquoted column (by simp [quotedTexts])).2
    · cases target with
      | file path => exact feed_not_mem_quoteArgument (hquoted path.text (by simp [quotedTexts])).2
      | level n => exact not_mem_nat (by decide) _
  | suppress table s =>
    rw [← Option.some.inj hargument]
    exact feed_not_mem_suppression h
  | writeTable table kind options path =>
    have hinner : '\n' ∉ (", ".intercalate [toString table, toString kind,
        String.join (options.map optionText), quoteArgument path.text]).toList := by
      refine Text.not_mem_intercalate (by decide) ?_
      simp only [List.forall_mem_cons]
      exact ⟨not_mem_nat (by decide) _,
        not_mem_nat (by decide) _,
        not_mem_options (by decide) fun key hkey => (h.keys key hkey).2.2.2,
        feed_not_mem_quoteArgument (hquoted path.text (by simp [quotedTexts])).2, by simp⟩
    rw [← Option.some.inj hargument]
    simp only [String.toList_append, List.mem_append, not_or]
    exact ⟨⟨by decide, hinner⟩, by decide⟩
  | readMicrodata | goInteractive | clear => exact nomatch hargument

/-- Commands of one line agree. -/
theorem agree_of_render (hc : c.IsPlain) (hd : d.IsPlain) (h : c.render = d.render) :
    c.Agree d := by
  obtain ⟨hkeyword, hargument⟩ := render_inj h
  have hpath : ∀ {path other : Path}, some (quoteArgument path.text) =
      some (quoteArgument other.text) → path = other := by
    intro path other heq
    have htarget : RecodeTarget.file path = .file other :=
      RecodeTarget.argument_inj (Option.some.inj heq)
    exact RecodeTarget.file.inj htarget
  cases c <;> cases d
  case logbook.logbook => exact hpath hargument ▸ .same _
  case versionInfo.versionInfo => exact hpath hargument ▸ .same _
  case openMicrodata.openMicrodata => exact hpath hargument ▸ .same _
  case openTableData.openTableData => exact hpath hargument ▸ .same _
  case openMetadata.openMetadata => exact hpath hargument ▸ .same _
  case specifyTable.specifyTable => exact specifyTable_agree hc hd hargument
  case safetyRule.safetyRule => exact .safetyRule (Option.some.inj hargument)
  case readMicrodata.readMicrodata => exact .same _
  case readTable.readTable totals others =>
    have htotals : totals = others := Option.map_injective (fun _ _ heq =>
      (flagDigit_append_inj (congrArg (·.toList ++ []) heq)).1) hargument
    exact htotals ▸ .same _
  case apriori.apriori => exact apriori_inj hc hd hargument ▸ .same _
  case recode.recode => exact recode_inj hc hd hargument ▸ .same _
  case suppress.suppress table s number t =>
    obtain ⟨rfl, hmethod, htexts⟩ := Suppression.render_inj (Option.some.inj hargument)
    exact .suppress table hmethod htexts
  case writeTable.writeTable => exact writeTable_inj hc hd hargument ▸ .same _
  case goInteractive.goInteractive => exact .same _
  case clear.clear => exact .same _
  -- the keywords of two kinds differ
  all_goals simp [keyword] at hkeyword

theorem IsPlain.feed_not_mem_render (h : c.IsPlain) : '\n' ∉ c.render.toList := by
  rw [toList_render]
  cases hargument : c.argument? with
  | none => simp [c.not_mem_keyword.2]
  | some argument => simp [c.not_mem_keyword.2, h.feed_not_mem_argument hargument]

theorem agree_of_renders : ∀ {cs ds : List BatchCommand}, (∀ c ∈ cs, c.IsPlain) →
    (∀ d ∈ ds, d.IsPlain) → cs.map render = ds.map render → List.Forall₂ Agree cs ds
  | [], [], _, _, _ => .nil
  | [], _ :: _, _, _, h => absurd h (by simp)
  | _ :: _, [], _, _, h => absurd h (by simp)
  | c :: cs, d :: ds, hcs, hds, h => by
    rw [List.forall_mem_cons] at hcs hds
    obtain ⟨hfirst, hrest⟩ := List.cons.inj h
    exact .cons (agree_of_render hcs.1 hds.1 hfirst) (agree_of_renders hcs.2 hds.2 hrest)

end BatchCommand

/-- **No two batches share a text.** If two lists of plain commands are written alike, they are of
one length and agree command by command. -/
theorem agree_of_renderBatch_eq {cs ds : List BatchCommand} (hcs : ∀ c ∈ cs, c.IsPlain)
    (hds : ∀ d ∈ ds, d.IsPlain) (h : renderBatch cs = renderBatch ds) :
    cs.length = ds.length ∧ List.Forall₂ BatchCommand.Agree cs ds := by
  have hlines : cs.map BatchCommand.render = ds.map BatchCommand.render := by
    refine Text.unlines_inj ?_ ?_ h
    · rw [List.forall_mem_map]
      exact fun c hc => (hcs c hc).feed_not_mem_render
    · rw [List.forall_mem_map]
      exact fun d hd => (hds d hd).feed_not_mem_render
  have hagree := BatchCommand.agree_of_renders hcs hds hlines
  exact ⟨hagree.length_eq, hagree⟩

/-- A batch for one table of a survey. -/
def surveyBatch (rules : List String) (arguments : List (Option MethodArgument)) :
    List BatchCommand :=
  [.openMicrodata ⟨"survey.csv"⟩, .openMetadata ⟨"survey.rda"⟩,
    .specifyTable ["region", "sex"] .frequency none (some .unity) none, .safetyRule rules,
    .readMicrodata, .apriori ⟨"changes.hst"⟩ 1 "," false true, .recode 1 "region" (.level 2),
    .suppress 1 ⟨.optimal, arguments⟩, .writeTable 1 2 [("AS", true), ("SE", false)] ⟨"table.csv"⟩]

/-- Rules and arguments that are cut differently are no difference to the engine. -/
theorem surveyBatch_agree :
    List.Forall₂ BatchCommand.Agree (surveyBatch ["P(10,1)", "NK(3,70)"] [some (.integer 5), none])
      (surveyBatch ["P(10,1)|NK(3,70)"] [some (.text "5,")]) := by
  have hlines : (surveyBatch ["P(10,1)", "NK(3,70)"] [some (.integer 5), none]).map
      BatchCommand.render =
      (surveyBatch ["P(10,1)|NK(3,70)"] [some (.text "5,")]).map BatchCommand.render := by
    decide +kernel
  exact (agree_of_renderBatch_eq (by decide +kernel) (by decide +kernel)
    (congrArg Text.unlines hlines)).2

end Disclosure
