import Disclosure.Job.Basic
import Disclosure.Proofs.Decimal
import Disclosure.Proofs.Text.Split

/-!
# What a job is refused for

`Job.problems` goes over the tables and the columns and tells what is wrong in words. What can be
wrong is said here without any order of work and without words: a `Violation` is one of four things,
and it holds of a job or it does not. `problems_exact` says that the two are the same.

The words of a problem have names and numbers in them, and a name may look like anything. So half of
the argument is that no two violations are told in the same words. The ends of the messages tell the
four kinds apart, and within a kind a message is read from its end.
-/

namespace Disclosure

theorem nodup_eraseDups {α : Type} [BEq α] [LawfulBEq α] (xs : List α) : xs.eraseDups.Nodup := by
  cases xs with
  | nil => exact .nil
  | cons x rest =>
    rw [List.eraseDups_cons, List.nodup_cons, List.mem_eraseDups]
    exact ⟨by simp, nodup_eraseDups _⟩
termination_by xs.length
decreasing_by exact Nat.lt_succ_of_le (List.length_filter_le _ _)

/-! ## What the tables ask for -/

namespace Table

variable {t : Table} {name : String}

/-- The table goes by the codes of the column: it is spanned by it, or recodes it. -/
def Classifies (t : Table) (name : String) : Prop :=
  name ∈ t.explanatory ∨ ∃ recode, (name, recode) ∈ t.recodes

/-- The table adds the values of the column up. Counting contributors and the usual measures of cost
are no columns. -/
def Sums (t : Table) (name : String) : Prop :=
  t.response = .column name ∨ t.shadow = some name ∨ t.cost = some (.column name)

theorem mem_categoricalVariables : name ∈ t.categoricalVariables ↔ t.Classifies name := by
  simp [categoricalVariables, Classifies]

theorem mem_numericVariables : name ∈ t.numericVariables ↔ t.Sums name := by
  have hresponse : t.response.column? = some name ↔ t.response = .column name := by
    cases t.response <;> simp [Response.column?]
  have hcost : t.cost.bind Cost.column? = some name ↔ t.cost = some (.column name) := by
    rcases t.cost with _ | _ | _ | _ | _ <;> simp [Cost.column?]
  simp [numericVariables, Sums, hresponse, hcost]

theorem mem_allVariables : name ∈ t.allVariables ↔ t.Classifies name ∨ t.Sums name := by
  rw [allVariables, List.mem_append, mem_categoricalVariables, mem_numericVariables]

end Table

theorem Input.contains_eq_false_iff {i : Input} {name : String} :
    i.contains name = false ↔ ∀ c ∈ i.columns, c.name ≠ name := by
  simp [contains, column?]

namespace Job

/-- The job makes the table: it was added, or it is the one that the input forms and no other was
added. -/
def Makes (j : Job) (t : Table) : Prop :=
  (∃ name, (name, t) ∈ j.ownTables) ∨ j.ownTables = [] ∧ j.input.table? = some t

theorem mem_tables_iff {j : Job} {t : Table} : (∃ name, (name, t) ∈ j.tables) ↔ j.Makes t := by
  rw [tables, Makes]
  by_cases hempty : j.ownTables = []
  · simp [hempty]
  · simp [hempty]

/-! ## Violations -/

/-- What can be wrong with a job. -/
inductive Violation where
  | absent (name : String)
  | notRecodable (name : String)
  | notNumeric (name : String)
  | unequalLength (name : String) (given levels : Nat)

/-- How a violation is told. -/
def Violation.message : Violation → String
  | absent name => s!"Variable {name} not present in input data."
  | notRecodable name =>
    s!"Variable {name} not recodable. Add a hierarchy or total code to resolve."
  | notNumeric name => s!"Variable {name} not numeric."
  | unequalLength name given levels =>
    s!"Variable {name} has length {given} but its hierarchy levels add up to {levels}."

/-- The job has what is told. -/
def Violation.HoldsOf (j : Job) : Violation → Prop
  | absent name =>
    (∃ t, j.Makes t ∧ (t.Classifies name ∨ t.Sums name)) ∧ ∀ c ∈ j.input.columns, c.name ≠ name
  | notRecodable name =>
    (∃ t, j.Makes t ∧ t.Classifies name) ∧
      ∃ c, j.input.column? name = some c ∧ (∃ total, c.hierarchy = .flat total) ∧
        c.explicitTotal = false
  | notNumeric name =>
    (∃ t, j.Makes t ∧ t.Sums name) ∧ ∃ c, j.input.column? name = some c ∧ c.kind = .text
  | unequalLength name given levels =>
    ∃ c ∈ j.input.columns, c.name = name ∧
      ∃ h, c.hierarchy = .levels h ∧ c.explicitLength = some given ∧
        h.widths.foldr (· + ·) 0 = levels ∧ given ≠ levels

/-! ## No two violations are told alike -/

namespace Violation

/-- The sign before the full stop of a message. -/
def closing : Violation → Option Char
  | absent _ => some 'a'
  | notRecodable _ => some 'e'
  | notNumeric _ => some 'c'
  | unequalLength _ _ levels => (Decimal.digitsOf levels).getLast?

theorem closing_eq (v : Violation) : v.message.toList.reverse.tail.head? = v.closing := by
  cases v with
  | absent name => simp [message, closing, toString]
  | notRecodable name => simp [message, closing, toString]
  | notNumeric name => simp [message, closing, toString]
  | unequalLength name given levels =>
    have hdigits : Decimal.digitsOf levels ≠ [] := Nat.toDigits_ne_nil
    have hnumeral : levels.repr.toList = Decimal.digitsOf levels := toList_toString_nat levels
    simp [message, closing, toString, hnumeral, List.getLast?_eq_some_getLast hdigits]

theorem isDigit_of_closing {name : String} {given levels : Nat} {c : Char}
    (h : (unequalLength name given levels).closing = some c) : c.isDigit = true :=
  Nat.isDigit_of_mem_toDigits (by decide) (by decide) (List.mem_of_getLast? h)

theorem name_of_told {name other before after : String}
    (h : before ++ name ++ after = before ++ other ++ after) : name = other := by
  have hlists := congrArg String.toList h
  simp only [String.toList_append, List.append_cancel_right_eq,
    List.append_cancel_left_eq] at hlists
  exact String.toList_inj.mp hlists

/-- A text that ends in a numeral is read from its end. -/
theorem numeral_of_told {before other after : String} {n m : Nat}
    (h : before ++ " " ++ toString n ++ after = other ++ " " ++ toString m ++ after) :
    before = other ∧ n = m := by
  have hspace : ∀ k : Nat, ' ' ∉ (toString k).toList := not_mem_nat (by decide)
  have hlists : before.toList ++ ' ' :: (toString n).toList ++ after.toList =
      other.toList ++ ' ' :: (toString m).toList ++ after.toList := by
    simpa using congrArg String.toList h
  obtain ⟨hbefore, hnumeral⟩ := Text.append_last_sep_inj (hspace n) (hspace m)
    (List.append_cancel_right hlists)
  exact ⟨String.toList_inj.mp hbefore, toString_nat_inj (String.toList_inj.mp hnumeral)⟩

/-- The two numerals of a message stand between words of their own. -/
theorem unequalLength_message (name : String) (given levels : Nat) :
    (unequalLength name given levels).message = ("Variable " ++ name ++ " has length") ++ " " ++
      toString given ++ " but its hierarchy levels add up to" ++ " " ++ toString levels ++ "." := by
  rw [← String.toList_inj]
  simp [message, toString]

theorem message_inj {v w : Violation} (h : v.message = w.message) : v = w := by
  have hclosing : v.closing = w.closing := by rw [← closing_eq, ← closing_eq, h]
  cases v <;> cases w
  case absent.absent => exact congrArg absent (name_of_told h)
  case notRecodable.notRecodable => exact congrArg notRecodable (name_of_told h)
  case notNumeric.notNumeric => exact congrArg notNumeric (name_of_told h)
  case unequalLength.unequalLength name given levels other length sum =>
    rw [unequalLength_message, unequalLength_message] at h
    obtain ⟨hfront, rfl⟩ := numeral_of_told h
    obtain ⟨hname, rfl⟩ := numeral_of_told hfront
    have hsame : name = other := name_of_told hname
    rw [hsame]
  -- messages of two kinds differ before the full stop
  all_goals first
    | exact absurd (isDigit_of_closing hclosing) (by decide)
    | exact absurd (isDigit_of_closing hclosing.symm) (by decide)
    | simp [closing] at hclosing

end Violation

/-! ## What is told is what holds -/

variable {j : Job} {m : String}

theorem mem_tableProblems_iff {input : Input} {t : Table} :
    m ∈ tableProblems input t ↔
      (∃ name, (t.Classifies name ∨ t.Sums name) ∧ (∀ c ∈ input.columns, c.name ≠ name) ∧
        m = (Violation.absent name).message) ∨
      (∃ name, t.Classifies name ∧ (∃ c, input.column? name = some c ∧ c.isRecodable = false) ∧
        m = (Violation.notRecodable name).message) ∨
      ∃ name, t.Sums name ∧ (∃ c, input.column? name = some c ∧ c.isNumeric = false) ∧
        m = (Violation.notNumeric name).message := by
  rw [tableProblems]
  simp only [List.mem_append, List.mem_map, List.mem_filter, Table.mem_allVariables,
    Table.mem_categoricalVariables, Table.mem_numericVariables, Bool.not_eq_true',
    Input.contains_eq_false_iff, Option.any_eq_true, and_assoc, or_assoc, Violation.message,
    eq_comm (a := m)]

theorem columnProblem?_eq_some_iff {c : Column} :
    columnProblem? c = some m ↔ ∃ h given, c.hierarchy = .levels h ∧ c.explicitLength = some given ∧
      given ≠ h.codeLength ∧ m = (Violation.unequalLength c.name given h.codeLength).message := by
  have hwords : ∀ given levels : Nat,
      s!"Variable {c.name} has length {given} but its hierarchy levels add up to " ++
        s!"{levels}." = (Violation.unequalLength c.name given levels).message := by
    intro given levels
    rw [← String.toList_inj]
    simp [Violation.message, toString]
  rw [columnProblem?]
  split
  · rename_i h given hlevels hgiven
    by_cases heq : given = h.codeLength
    · simp [hlevels, hgiven, heq]
    · rw [if_neg heq, hwords]
      simp [hlevels, hgiven, heq, eq_comm (a := m)]
  · rename_i hother
    simp only [reduceCtorEq, false_iff]
    rintro ⟨h, given, hlevels, hgiven, _⟩
    exact hother h given hlevels hgiven

theorem isRecodable_eq_false_iff {c : Column} :
    c.isRecodable = false ↔ (∃ total, c.hierarchy = .flat total) ∧ c.explicitTotal = false := by
  cases hh : c.hierarchy <;> simp [Column.isRecodable, Hierarchy.isHierarchical, hh]

theorem isNumeric_eq_false_iff {c : Column} : c.isNumeric = false ↔ c.kind = .text := by
  simp [Column.isNumeric, ValueKind.isNumeric]

theorem mem_problems_iff : m ∈ j.problems ↔ ∃ v : Violation, v.HoldsOf j ∧ m = v.message := by
  rw [problems, List.mem_eraseDups, List.mem_append, List.mem_flatMap, List.mem_filterMap]
  simp only [mem_tableProblems_iff, columnProblem?_eq_some_iff]
  constructor
  · rintro (⟨⟨key, t⟩, ht, h⟩ | ⟨c, hc, h, given, hlevels, hgiven, hne, rfl⟩)
    · have hmakes : j.Makes t := mem_tables_iff.mp ⟨key, ht⟩
      rcases h with ⟨name, huse, hnone, rfl⟩ | ⟨name, huse, ⟨c, hc, hflat⟩, rfl⟩ |
        ⟨name, huse, ⟨c, hc, htext⟩, rfl⟩
      · exact ⟨.absent name, ⟨⟨t, hmakes, huse⟩, hnone⟩, rfl⟩
      · exact ⟨.notRecodable name,
          ⟨⟨t, hmakes, huse⟩, c, hc, isRecodable_eq_false_iff.mp hflat⟩, rfl⟩
      · exact ⟨.notNumeric name, ⟨⟨t, hmakes, huse⟩, c, hc, isNumeric_eq_false_iff.mp htext⟩, rfl⟩
    · exact ⟨.unequalLength c.name given _, ⟨c, hc, rfl, h, hlevels, hgiven, rfl, hne⟩, rfl⟩
  · rintro ⟨v, hv, rfl⟩
    cases v with
    | absent name =>
      obtain ⟨⟨t, hmakes, huse⟩, hnone⟩ := hv
      obtain ⟨key, ht⟩ := mem_tables_iff.mpr hmakes
      exact .inl ⟨_, ht, .inl ⟨name, huse, hnone, rfl⟩⟩
    | notRecodable name =>
      obtain ⟨⟨t, hmakes, huse⟩, c, hc, hflat⟩ := hv
      obtain ⟨key, ht⟩ := mem_tables_iff.mpr hmakes
      exact .inl ⟨_, ht, .inr (.inl ⟨name, huse, ⟨c, hc, isRecodable_eq_false_iff.mpr hflat⟩, rfl⟩)⟩
    | notNumeric name =>
      obtain ⟨⟨t, hmakes, huse⟩, c, hc, htext⟩ := hv
      obtain ⟨key, ht⟩ := mem_tables_iff.mpr hmakes
      exact .inl ⟨_, ht, .inr (.inr ⟨name, huse, ⟨c, hc, isNumeric_eq_false_iff.mpr htext⟩, rfl⟩)⟩
    | unequalLength name given levels =>
      obtain ⟨c, hc, rfl, h, hlevels, hgiven, rfl, hne⟩ := hv
      exact .inr ⟨c, hc, h, given, hlevels, hgiven, hne, rfl⟩

theorem check_eq_ok_iff : j.check = .ok () ↔ j.problems = [] := by
  rw [check]
  split
  · rename_i hnone
    simpa using hnone
  · rename_i hsome
    simpa using hsome

/-- Where the check passes, the columns that tables go by are there and can be recoded. -/
theorem recodable_of_check (h : j.check = .ok ()) {t : Table} (ht : j.Makes t) {name : String}
    (hname : t.Classifies name) : ∃ c, j.input.column? name = some c ∧ c.isRecodable = true := by
  have hnone : ∀ v : Violation, ¬ v.HoldsOf j := fun v hv =>
    List.eq_nil_iff_forall_not_mem.mp (check_eq_ok_iff.mp h) _ (mem_problems_iff.mpr ⟨v, hv, rfl⟩)
  cases hc : j.input.column? name with
  | none =>
    refine absurd ⟨⟨t, ht, .inl hname⟩, ?_⟩ (hnone (.absent name))
    exact Input.contains_eq_false_iff.mp (by rw [Input.contains, hc]; rfl)
  | some c =>
    refine ⟨c, rfl, ?_⟩
    by_contra hflat
    obtain ⟨htotal, hexplicit⟩ := isRecodable_eq_false_iff.mp (Bool.not_eq_true _ ▸ hflat)
    exact hnone (.notRecodable name) ⟨⟨t, ht, hname⟩, c, hc, htotal, hexplicit⟩

/-- **A job is told exactly what is wrong with it.** Whatever its tables and columns are, no problem
comes twice, a violation is told if and only if the job has it, nothing else is told, and the check
passes if and only if there is no violation. -/
theorem problems_exact (j : Job) :
    j.problems.Nodup ∧
    (∀ v : Violation, v.message ∈ j.problems ↔ v.HoldsOf j) ∧
    (∀ m ∈ j.problems, ∃ v : Violation, m = v.message) ∧
    (j.check = .ok () ↔ ∀ v : Violation, ¬ v.HoldsOf j) := by
  have hmem : ∀ v : Violation, v.message ∈ j.problems ↔ v.HoldsOf j := by
    intro v
    rw [mem_problems_iff]
    constructor
    · rintro ⟨w, hw, hmessage⟩
      rwa [Violation.message_inj hmessage]
    · exact fun hv => ⟨v, hv, rfl⟩
  have htold : ∀ m ∈ j.problems, ∃ v : Violation, m = v.message := by
    intro m hm
    obtain ⟨v, _, rfl⟩ := mem_problems_iff.mp hm
    exact ⟨v, rfl⟩
  refine ⟨nodup_eraseDups _, hmem, htold, ?_⟩
  rw [check_eq_ok_iff, List.eq_nil_iff_forall_not_mem]
  constructor
  · exact fun hnone v hv => hnone _ ((hmem v).mpr hv)
  · intro hnone m hm
    obtain ⟨v, hv, _⟩ := mem_problems_iff.mp hm
    exact hnone v hv

end Job

end Disclosure
