import Disclosure.CommandLine.Run
import Disclosure.Proofs.Job.Faults
import Disclosure.Proofs.Job.Untouched
import Disclosure.Proofs.JobFile

/-!
# Checking a job and setting it up agree

A job can be checked as it is, and it is checked when it is set up, after nearly everything has been
written. By then it has changed: there are places where there were none, and lengths that columns
remembered are forgotten. None of that is looked at. What a job is refused for can be read off the
job without its places, and without its places it is the same job.
-/

namespace Disclosure

/-! ## Problems do not hang on places -/

theorem Column.isRecodable_bare (c : Column) : c.bare.isRecodable = c.isRecodable := by
  have hlevel : c.hierarchy.bare.isHierarchical = c.hierarchy.isHierarchical := by
    cases c.hierarchy <;> rfl
  show (c.hierarchy.bare.isHierarchical || c.explicitTotal) = _
  rw [hlevel]
  rfl

theorem Table.categoricalVariables_bare (t : Table) :
    t.bare.categoricalVariables = t.categoricalVariables := by
  simp [categoricalVariables, bare, Function.comp_def]

theorem Table.numericVariables_bare (t : Table) :
    t.bare.numericVariables = t.numericVariables :=
  rfl

theorem Input.column?_bare (i : Input) (name : String) :
    i.bare.column? name = (i.column? name).map Column.bare := by
  simp only [column?, bare, List.find?_map]
  rfl

namespace Job

theorem tables_bare (j : Job) : j.bare.tables = j.tables.map fun t => (t.1, t.2.bare) := by
  have htables : ({ j with input := j.input.bare } : Job).tables = j.tables := rfl
  refine tables_withTables ?_
  rw [htables]
  simp

theorem columns_bare (j : Job) : j.bare.input.columns = j.input.columns.map Column.bare :=
  (withTables_input _ _).1

theorem column?_bare (j : Job) (name : String) :
    j.bare.input.column? name = (j.input.column? name).map Column.bare := by
  rw [← Input.column?_bare, Input.column?, Input.column?, columns_bare]
  rfl

theorem tableProblems_bare (j : Job) (t : Table) :
    tableProblems j.bare.input t.bare = tableProblems j.input t := by
  have hcontains : ∀ name, j.bare.input.contains name = j.input.contains name := by
    intro name
    rw [Input.contains, column?_bare, Option.isSome_map, Input.contains]
  have hrecodable : ∀ name, ((j.bare.input.column? name).any fun c => !c.isRecodable) =
      (j.input.column? name).any fun c => !c.isRecodable := by
    intro name
    rw [column?_bare, Option.any_map]
    simp only [Column.isRecodable_bare]
  have hnumeric : ∀ name, ((j.bare.input.column? name).any fun c => !c.isNumeric) =
      (j.input.column? name).any fun c => !c.isNumeric := by
    intro name
    rw [column?_bare, Option.any_map]
    rfl
  unfold tableProblems Table.allVariables
  rw [Table.categoricalVariables_bare, Table.numericVariables_bare]
  simp only [hcontains, hrecodable, hnumeric]

theorem columnProblem?_bare (c : Column) : columnProblem? c.bare = columnProblem? c := by
  obtain ⟨name, kind, decimals, hierarchy, codeList, total, given, values, known, missing⟩ := c
  cases hierarchy <;> rfl

/-- What a job is refused for does not hang on the places it has. -/
theorem problems_bare (j : Job) : j.bare.problems = j.problems := by
  rw [problems, problems, tables_bare, columns_bare, List.flatMap_map, List.filterMap_map]
  simp only [tableProblems_bare, Function.comp_def, columnProblem?_bare]

/-- Wherever setting up stops, the job has the problems that it had. -/
theorem setUp_problems (j : Job) (fs : FileSystem) : (j.setUp fs).value.problems = j.problems := by
  rw [← problems_bare, (j.setUp_fills fs).bare, problems_bare]

/-! ## The two checks -/

/-- A job that was written comes to be checked with its places filled in. -/
theorem setUp_of_written {j : Job} {fs : FileSystem} (htables : j.tables ≠ [])
    (hwrites : (Step.inOrder (createDirectories j.directories :: writings) j fs).fault = none) :
    ∃ files, (j.setUp fs).value = (Step.inOrder [reportProblems, writeBatch] j.placed files).value ∧
      (j.setUp fs).fault = (Step.inOrder [reportProblems, writeBatch] j.placed files).fault := by
  have hrequire : (requireTables j fs).Done j fs := by
    rw [requireTables, if_neg (by simpa using htables)]
    exact Step.done_done ..
  obtain ⟨a, made, hmade, hrest⟩ := Step.of_inOrder_cons_done (Step.done_of_fault_none hwrites)
  obtain rfl := of_createDirectories_done hmade
  have hplaced := (a.settles).done hrest
  rw [hplaced] at hrest
  obtain ⟨hvalue, _, hfault⟩ := Step.andThen_of_done
    (fun b made => (Step.inOrder writings b made).andThen
      (Step.inOrder [reportProblems, writeBatch])) (Step.andThen_done hrequire hmade)
  obtain ⟨hvalue', _, hfault'⟩ :=
    Step.andThen_of_done (Step.inOrder [reportProblems, writeBatch]) hrest
  rw [setUp_eq]
  exact ⟨_, hvalue.trans hvalue', hfault.trans hfault'⟩

theorem batch_value (j : Job) (fs : FileSystem) :
    (Step.inOrder [reportProblems, writeBatch] j fs).value = j := by
  rcases batch_cases j fs with ⟨_, _, _, _, _, hdone⟩ | ⟨_, _, hvalue, _⟩
  · exact hdone.value
  · exact hvalue

/-- **The check of a job and the check when it is set up are one.** A job with a table, everything
of which could be written before the check, is refused if and only if it had a problem to begin
with, and is told exactly the problems that it had, in their order. So a job file for which checking
reports problems cannot be compiled, for the problems that were reported, and one that checking lets
pass is not refused for any. -/
theorem setUp_refuses_iff {j : Job} {fs : FileSystem} (htables : j.tables ≠ [])
    (hwrites : (Step.inOrder (createDirectories j.directories :: writings) j fs).fault = none) :
    (∀ problems, (j.setUp fs).fault = some (.inconsistent problems) ↔
      problems ≠ [] ∧ problems = j.problems) ∧
    ∀ path events listing, JobFile.load fs path = (events, .ok j) →
      let checked := CommandLine.check path listing fs
      let compiled := CommandLine.compile path listing fs
      (checked.success = false ↔ ∃ problems, (j.setUp fs).fault = some (.inconsistent problems)) ∧
      ∀ problems, (j.setUp fs).fault = some (.inconsistent problems) →
        (checked.printed = if listing = .json then CommandLine.problemsJson j.name problems
          else CommandLine.problemsText j.name problems) ∧
        compiled.success = false ∧ compiled.error =
          some (CommandLine.faultLine ["set up job " ++ j.name] (.inconsistent problems)) := by
  obtain ⟨files, hvalue, hfault⟩ := setUp_of_written htables hwrites
  -- the job that is checked is the one that setting up ends with
  have hplaced : j.placed.problems = j.problems := by
    rw [← setUp_problems j fs, hvalue, batch_value]
  have hrefused : ∀ problems, (j.setUp fs).fault = some (.inconsistent problems) ↔
      problems ≠ [] ∧ problems = j.problems := by
    intro problems
    constructor
    · intro h
      have hcan := setUp_canFailFor h
      rwa [CanFailFor, hplaced] at hcan
    · rintro ⟨hsome, rfl⟩
      have hcheck : j.placed.check = .error (.inconsistent j.problems) := by
        rw [check, hplaced, if_neg (by simpa using hsome)]
      have hreport : (reportProblems j.placed files).fault = some (.inconsistent j.problems) := by
        rw [reportProblems, hcheck]
      rw [hfault, Step.inOrder, Step.andThen_of_fault hreport, hreport]
  refine ⟨hrefused, fun path events listing hload => ?_⟩
  have hchecked : CommandLine.check path listing fs =
      ⟨if listing = .json then CommandLine.problemsJson j.name j.problems
        else CommandLine.problemsText j.name j.problems, j.problems.isEmpty,
        events.map LogEntry.plain ++ [.plain (.jobChecked j.name j.problems.length)], none,
        fs⟩ := by
    rw [CommandLine.check, CommandLine.withJob, hload]
  refine ⟨?_, fun problems hends => ?_⟩
  · rw [hchecked]
    simp [hrefused]
  · obtain ⟨_, rfl⟩ := (hrefused problems).mp hends
    have hended : ((j.setUp fs).inside (.compile j.name)).fault =
        some (.inconsistent j.problems) := hends
    refine ⟨by rw [hchecked], ?_⟩
    rw [CommandLine.compile, CommandLine.withJob, hload]
    simp only [hended]
    exact ⟨rfl, rfl⟩

/-- A computer with a job file and the data of one column, about which nothing is said. -/
def plainDisk : FileSystem :=
  let description :=
    "directory = \"out\"\n[input]\ndata = \"d.csv\"\n[[tables]]\nexplanatory = [\"region\"]\n"
  ⟨[(["w"], .directory), (["w", "job.toml"], .file description.toUTF8),
    (["w", "d.csv"], .file "region\nA\nBB\n".toUTF8)], ["w"]⟩

theorem plainDisk_refused : ∃ events j, JobFile.load plainDisk ⟨"job.toml"⟩ = (events, .ok j) ∧
    (j.setUp plainDisk).fault = some (.inconsistent
      ["Variable region not recodable. Add a hierarchy or total code to resolve."]) ∧
    (CommandLine.check ⟨"job.toml"⟩ .json plainDisk).success = false ∧
    (CommandLine.compile ⟨"job.toml"⟩ .json plainDisk).success = false := by
  have hload : ∃ j ∈ (JobFile.load plainDisk ⟨"job.toml"⟩).2.toOption,
      j.tables.length = 1 ∧
      (Step.inOrder (createDirectories j.directories :: writings) j plainDisk).fault.isNone = true ∧
      j.problems =
        ["Variable region not recodable. Add a hierarchy or total code to resolve."] := by
    decide +kernel
  obtain ⟨j, hj, htables, hwrites, hproblems⟩ := hload
  obtain ⟨events, hjob⟩ := JobFile.exists_load_of_mem hj
  have hsome : j.tables ≠ [] := by
    rintro hnil
    simp [hnil] at htables
  obtain ⟨hrefused, hsame⟩ := setUp_refuses_iff hsome (Option.isNone_iff_eq_none.mp hwrites)
  have hfault := (hrefused _).mpr ⟨by simp [hproblems], rfl⟩
  obtain ⟨hfails, htold⟩ := hsame _ _ .json hjob
  refine ⟨events, j, hjob, hproblems ▸ hfault, hfails.mpr ⟨_, hfault⟩, (htold _ hfault).2.1⟩

end Job

end Disclosure
