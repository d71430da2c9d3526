import Disclosure.Proofs.Job.Commands

/-!
# The script of a job

`Job.commands` goes over the tables three times and stops at the first thing that is missing. The
script says the same list without any order of work: every table with its number, and what each
number gives in each of the three parts. `commands_eq_ok_iff` says that a job has commands exactly
when nothing is missing, and that they are the script.

The three passes share one argument. A pass that succeeds on exactly the tables that are ready for
it, with commands that the table and its number decide, succeeds on a list exactly when all tables
are ready, and the numbers run on from table to table.
-/

namespace Disclosure

/-! ## The script -/

/-- What a recode is done by, if it is a list of codes once the list has a file. -/
def Recode.target? : Recode → Option RecodeTarget
  | .file path => some (.file path)
  | .level n => some (.level n)
  | .tree recode => recode.path.map .file

namespace Table

/-- The rules of a table can be told the engine in one list. -/
def Composes (t : Table) : Prop :=
  ∃ rules, t.rules.compose = .ok rules

/-- Changes to cells have a file. -/
def HasOverridesFile (t : Table) : Prop :=
  ∀ o, t.overrides = some o → o.path.isSome

/-- Every recode by listed codes has a file. -/
def HasRecodeFiles (t : Table) : Prop :=
  ∀ recode ∈ t.recodes, recode.2.target?.isSome

/-- Everything is there that the commands of a table name. -/
structure IsReady (t : Table) : Prop where
  /-- The rules compose. -/
  rules : t.Composes
  /-- There is a place for changes to cells, if there are any. -/
  overrides : t.HasOverridesFile
  /-- There is a place for every recode by listed codes. -/
  recodes : t.HasRecodeFiles
  /-- There is a place for the protected table. -/
  output : t.outputPath.isSome

/-- A table is specified, and told its rules right after. -/
def specifying (t : Table) : List BatchCommand :=
  match t.rules.compose with
  | .ok rules =>
    [.specifyTable t.explanatory t.response t.shadow t.cost t.lambda, .safetyRule rules]
  | .error _ => []

/-- Cells of table `k` are changed, if there are changes. -/
def changing (k : Nat) (t : Table) : List BatchCommand :=
  t.overrides.toList.filterMap fun o =>
    o.path.map fun path => .apriori path k o.separator o.ignoreError o.expandTrivial

/-- The variables of table `k` are recoded, each as it was asked for. -/
def recoding (k : Nat) (t : Table) : List BatchCommand :=
  t.recodes.filterMap fun (column, recode) => recode.target?.map fun target =>
    .recode k column target

/-- Table `k` is changed, recoded, and protected if it has a method. -/
def protecting (k : Nat) (t : Table) : List BatchCommand :=
  t.changing k ++ t.recoding k ++ t.suppression.toList.map (.suppress k)

/-- Table `k` is written, in the format with commas. -/
def writing (k : Nat) (t : Table) : List BatchCommand :=
  t.outputPath.toList.map fun path => .writeTable k BatchCommand.commaFormat t.writeOptions path

end Table

namespace Job

/-- Everything is there that the commands of a job name. -/
structure IsReady (j : Job) : Prop where
  /-- There is a table. -/
  hasTable : j.tables ≠ []
  /-- There is a place for the data. -/
  data : j.input.dataPath.isSome
  /-- There is a place for the metadata. -/
  metadata : j.input.metadataPath.isSome
  /-- Every table is ready. -/
  tables : ∀ table ∈ j.tables, table.2.IsReady

/-- The tables with their numbers, from 1 on. -/
def numberedTables (j : Job) : List (Table × Nat) :=
  (j.tables.map Prod.snd).zipIdx 1

/-- The data is opened by its kind, and the metadata after it. -/
def opening (j : Job) : List BatchCommand :=
  (j.input.dataPath.toList.map fun path =>
    match j.input.kind with
    | .microdata => .openMicrodata path
    | .tableData => .openTableData path) ++
  j.input.metadataPath.toList.map .openMetadata

/-- All commands of a job. -/
def script (j : Job) : List BatchCommand :=
  j.opening ++
  j.numberedTables.flatMap (fun (t, _) => t.specifying) ++
  [match j.input.kind with
    | .microdata => .readMicrodata
    | .tableData => .readTable none] ++
  j.numberedTables.flatMap (fun (t, k) => t.protecting k) ++
  j.linkedSuppression.toList.map (.suppress 0) ++
  j.numberedTables.flatMap (fun (t, k) => t.writing k) ++
  if j.interactive then [.goInteractive] else []

/-! ## What each pass gives for one table -/

theorem required_eq_ok_iff {α : Type} {fault : Fault} {given : Option α} {a : α} :
    required fault given = .ok a ↔ given = some a := by
  cases given <;> simp [required]

theorem specification_eq_ok_iff (n : Nat) (name : String) (t : Table) (made : List BatchCommand) :
    specification n name t = .ok made ↔ t.Composes ∧ made = t.specifying := by
  rw [specification, Table.Composes, Table.specifying]
  cases t.rules.compose with
  | error fault => simp
  | ok rules => simpa using eq_comm

theorem aprioriCommands_eq_ok_iff (n : Nat) (name : String) (t : Table)
    (made : List BatchCommand) :
    aprioriCommands n name t = .ok made ↔ t.HasOverridesFile ∧ made = t.changing n := by
  rw [aprioriCommands, Table.HasOverridesFile, Table.changing]
  cases t.overrides with
  | none => simp
  | some o =>
    cases h : o.path with
    | none => simp [required, Except.map, h]
    | some path => simpa [required, Except.map, h] using eq_comm

theorem recodeTarget_eq_ok_iff {name : String} {recode : Recode} {target : RecodeTarget} :
    recodeTarget name recode = .ok target ↔ recode.target? = some target := by
  cases recode with
  | file path => simp [recodeTarget, Recode.target?]
  | level level => simp [recodeTarget, Recode.target?]
  | tree recode => simp [recodeTarget, Recode.target?, Fault.map_eq_ok_iff, required_eq_ok_iff]

theorem recodeCommands_eq_ok_iff {n : Nat} {name : String} {recodes : List (String × Recode)}
    {made : List BatchCommand} :
    recodeCommands n name recodes = .ok made ↔ (∀ recode ∈ recodes, recode.2.target?.isSome) ∧
      made = recodes.filterMap fun (column, recode) =>
        recode.target?.map fun target => .recode n column target := by
  induction recodes generalizing made with
  | nil => simp [recodeCommands]
  | cons first rest ih =>
    obtain ⟨column, recode⟩ := first
    simp only [recodeCommands, Fault.bind_eq_ok_iff, recodeTarget_eq_ok_iff, ih, pure, Except.pure,
      Except.ok.injEq, List.forall_mem_cons, List.filterMap_cons]
    cases recode.target? with
    | none => simp
    | some target =>
      constructor
      · rintro ⟨_, htarget, _, ⟨hrest, rfl⟩, rfl⟩
        rw [← Option.some.inj htarget]
        exact ⟨⟨rfl, hrest⟩, rfl⟩
      · rintro ⟨⟨-, hrest⟩, rfl⟩
        exact ⟨_, rfl, _, ⟨hrest, rfl⟩, rfl⟩

theorem protection_eq_ok_iff (n : Nat) (name : String) (t : Table) (made : List BatchCommand) :
    protection n name t = .ok made ↔
      (t.HasOverridesFile ∧ t.HasRecodeFiles) ∧ made = t.protecting n := by
  simp only [protection, Fault.bind_eq_ok_iff, aprioriCommands_eq_ok_iff, recodeCommands_eq_ok_iff,
    Table.protecting, Table.HasRecodeFiles, Table.recoding, suppressCommands, pure, Except.pure,
    Except.ok.injEq]
  constructor
  · rintro ⟨_, ⟨ho, rfl⟩, _, ⟨hr, rfl⟩, rfl⟩
    exact ⟨⟨ho, hr⟩, rfl⟩
  · rintro ⟨⟨ho, hr⟩, rfl⟩
    exact ⟨_, ⟨ho, rfl⟩, _, ⟨hr, rfl⟩, rfl⟩

theorem writing_eq_ok_iff (n : Nat) (name : String) (t : Table) (made : List BatchCommand) :
    writing n name t = .ok made ↔ t.outputPath.isSome = true ∧ made = t.writing n := by
  rw [writing, Table.writing]
  cases t.outputPath with
  | none => simp [required, Except.map]
  | some path => simpa [required, Except.map] using eq_comm

/-! ## What a pass gives for all tables -/

/-- A pass succeeds when every table is ready for it, and the numbers run on. -/
theorem forTables_eq_ok_iff {pass : Nat → String → Table → Except Fault (List BatchCommand)}
    {Ready : Table → Prop} {part : Nat → Table → List BatchCommand}
    (hpass : ∀ n name t made, pass n name t = .ok made ↔ Ready t ∧ made = part n t)
    {n : Nat} {tables : List (String × Table)} {made : List BatchCommand} :
    forTables pass n tables = .ok made ↔ (∀ table ∈ tables, Ready table.2) ∧
      made = ((tables.map Prod.snd).zipIdx n).flatMap fun (t, k) => part k t := by
  induction tables generalizing n made with
  | nil => simp [forTables]
  | cons table rest ih =>
    obtain ⟨name, t⟩ := table
    simp only [forTables, Fault.bind_eq_ok_iff, hpass, ih, pure, Except.pure, Except.ok.injEq,
      List.forall_mem_cons, List.map_cons, List.zipIdx_cons, List.flatMap_cons]
    constructor
    · rintro ⟨_, ⟨ht, rfl⟩, _, ⟨hrest, rfl⟩, rfl⟩
      exact ⟨⟨ht, hrest⟩, rfl⟩
    · rintro ⟨⟨ht, hrest⟩, rfl⟩
      exact ⟨_, ⟨ht, rfl⟩, _, ⟨hrest, rfl⟩, rfl⟩

/-- The order of work: the tables are looked at after the two places of the input. -/
theorem commands_eq_ok_iff_passes {j : Job} {commands : List BatchCommand} :
    j.commands = .ok commands ↔ j.tables ≠ [] ∧
      ∃ data, j.input.dataPath = some data ∧ ∃ metadata, j.input.metadataPath = some metadata ∧
      ∃ specified, forTables specification 1 j.tables = .ok specified ∧
      ∃ changed, forTables protection 1 j.tables = .ok changed ∧
      ∃ written, forTables writing 1 j.tables = .ok written ∧
      [openCommand j.input.kind data, .openMetadata metadata] ++ specified ++
        [readCommand j.input.kind] ++ changed ++ suppressCommands 0 j.linkedSuppression ++
        written ++ (if j.interactive then [.goInteractive] else []) = commands := by
  unfold Job.commands
  by_cases htables : j.tables = []
  · simp [htables, throw, throwThe, MonadExceptOf.throw, bind, Except.bind]
  · simp only [List.isEmpty_iff, htables, if_false, Fault.bind_eq_ok_iff, required_eq_ok_iff, pure,
      Except.pure, Except.ok.injEq, ne_eq, not_false_eq_true, true_and]

/-- **A job has commands exactly when nothing is missing, and they are its script.** -/
theorem commands_eq_ok_iff (j : Job) (commands : List BatchCommand) :
    j.commands = .ok commands ↔ j.IsReady ∧ commands = j.script := by
  simp only [commands_eq_ok_iff_passes, forTables_eq_ok_iff specification_eq_ok_iff,
    forTables_eq_ok_iff protection_eq_ok_iff, forTables_eq_ok_iff writing_eq_ok_iff]
  constructor
  · rintro ⟨htable, data, hdata, metadata, hmetadata, _, ⟨hrules, rfl⟩, _, ⟨hfiles, rfl⟩, _,
      ⟨houtput, rfl⟩, rfl⟩
    refine ⟨⟨htable, by simp [hdata], by simp [hmetadata], fun table ht => ⟨hrules table ht,
      (hfiles table ht).1, (hfiles table ht).2, houtput table ht⟩⟩, ?_⟩
    rw [script, opening, hdata, hmetadata]
    cases j.input.kind <;> rfl
  · rintro ⟨hready, rfl⟩
    obtain ⟨data, hdata⟩ := Option.isSome_iff_exists.mp hready.data
    obtain ⟨metadata, hmetadata⟩ := Option.isSome_iff_exists.mp hready.metadata
    refine ⟨hready.hasTable, data, hdata, metadata, hmetadata,
      _, ⟨fun table ht => (hready.tables table ht).rules, rfl⟩,
      _, ⟨fun table ht => ⟨(hready.tables table ht).overrides, (hready.tables table ht).recodes⟩,
        rfl⟩,
      _, ⟨fun table ht => (hready.tables table ht).output, rfl⟩, ?_⟩
    rw [script, opening, hdata, hmetadata]
    cases j.input.kind <;> rfl

end Job

end Disclosure
