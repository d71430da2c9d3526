import Disclosure.Job.Artifacts
import Disclosure.Proofs.Job.Script
import Disclosure.Proofs.Job.SetUp
import Disclosure.Proofs.Metadata

/-!
# The list of files is what the engine is told

The files of a job are listed by a walk over the job: the input, its columns, the tables with what
they change and recode. The engine hears of the same files in two other ways. Commands name those
of the input and of the tables, and tables go by number there; the lines of the metadata name those
of the columns.

Once a job is set up the list is read off these two: what the commands say of the input, then what
the lines of each column say, then for each table what the commands with its number say, in their
order. The batch file and the logbook are all that is added.
-/

namespace Disclosure

open Text

/-! ## What commands name -/

namespace BatchCommand

/-- The file that a command names. -/
def path? : BatchCommand → Option Path
  | logbook path | versionInfo path | openMicrodata path | openTableData path | openMetadata path
  | apriori path _ _ _ _ | recode _ _ (.file path) | writeTable _ _ _ path => some path
  | _ => none

/-- The file of the input that a command names. -/
def inputFile? (input : String) : BatchCommand → Option JobArtifact
  | openMicrodata path | openTableData path => some ⟨.data, input, path⟩
  | openMetadata path => some ⟨.metadata, input, path⟩
  | _ => none

/-- The file that a command names for the table with a given name and number. -/
def tableFile? (name : String) (number : Nat) : BatchCommand → Option JobArtifact
  | apriori path k _ _ _ => if k = number then some ⟨.apriori, name, path⟩ else none
  | recode k column (.file path) =>
    if k = number then some ⟨.recode, name ++ "." ++ column, path⟩ else none
  | writeTable k _ _ path => if k = number then some ⟨.output, name, path⟩ else none
  | _ => none

theorem inputFile?_eq_none (input : String) (c : BatchCommand) (h : c.path? = none) :
    c.inputFile? input = none := by
  cases c <;> first | rfl | exact nomatch h

theorem tableFile?_eq_none (name : String) (number : Nat) (c : BatchCommand) (h : c.path? = none) :
    c.tableFile? name number = none := by
  cases c with
  | recode k column target =>
    cases target with
    | file path => exact nomatch h
    | level level => rfl
  | _ => first | rfl | exact nomatch h

end BatchCommand

/-! ## What the metadata names -/

/-- The lines about a column that can be described. -/
def Column.told (c : Column) (withLength : Bool) : List String :=
  match c.metadataLines withLength with
  | .ok lines => lines
  | .error _ => []

/-- The files that the lines about a column name. The first line begins with the name of the column
and is about no file. -/
def Column.toldFiles (c : Column) (withLength : Bool) : List JobArtifact :=
  ((argumentsOf "\t<HIERCODELIST> " (c.told withLength).tail).map fun path =>
    ⟨.hierarchy, c.name, ⟨path⟩⟩) ++
  (argumentsOf "\t<CODELIST> " (c.told withLength).tail).map fun path =>
    ⟨.codeList, c.name, ⟨path⟩⟩

/-- The lines of the metadata file, if all columns can be described. -/
def Input.told (i : Input) : List String :=
  ("\t<SEPARATOR> " ++ String.singleton i.separatorChar) :: (statusLines i.roles ++
    i.columns.flatMap fun c => c.told (i.kind = .microdata) ++ roleLines i.roles c.name)

/-! ## The list, read off commands and metadata -/

/-- The files of a job are those that commands and metadata name. -/
structure Job.ListsFiles (j : Job) (commands : List BatchCommand) : Prop where
  /-- The list. -/
  artifacts_eq : j.artifacts =
    commands.filterMap (·.inputFile? j.input.kind.name) ++
    j.input.columns.flatMap (·.toldFiles (j.input.kind = .microdata)) ++
    ((j.tables.zipIdx 1).flatMap fun ((name, _), number) =>
      commands.filterMap (·.tableFile? name number)) ++
    [⟨.batch, j.name, j.paths.batch⟩] ++
    JobArtifact.ofPlace .logbook j.name j.logbookPath?
  /-- No file that a command names is left out. -/
  exists_artifact : ∀ c ∈ commands, ∀ path, c.path? = some path → ∃ a ∈ j.artifacts,
    a.path = path ∧ (c.inputFile? j.input.kind.name = some a ∨
      ∃ name table number, ((name, table), number) ∈ j.tables.zipIdx 1 ∧
        c.tableFile? name number = some a)
  /-- These are the lines of the metadata. -/
  metadataText_eq : j.input.metadataText = .ok (Text.unlines j.input.told)
  /-- Apart from the lines about columns none of them names a file, unless a status or the first
  line of a column looks like one that does. -/
  arguments_eq : ∀ keyword ∈ ["\t<HIERCODELIST> ", "\t<CODELIST> "],
    argumentsOf keyword j.input.told = argumentsOf keyword (Input.statusLines j.input.roles) ++
      j.input.columns.flatMap fun c =>
        argumentsOf keyword [c.headerLine (j.input.kind = .microdata)] ++
        argumentsOf keyword (c.told (j.input.kind = .microdata)).tail

/-! ## Lines of columns -/

namespace Column

variable {c : Column} {withLength : Bool} {lines : List String}

theorem told_of_ok (h : c.metadataLines withLength = .ok lines) : c.told withLength = lines := by
  rw [told, h]

/-- The lines about a column name the files it has. -/
theorem toldFiles_eq (h : c.metadataLines withLength = .ok lines) :
    c.toldFiles withLength = JobArtifact.ofColumn c := by
  obtain ⟨htree, -, hlist⟩ := arguments_files h
  rw [toldFiles, told_of_ok h, htree, hlist, List.map_map, List.map_map]
  rfl

end Column

namespace Input

variable {i : Input} {keyword : String}

theorem columnLines_eq_told {roles : Roles} {columns : List Column}
    (h : ∀ c ∈ columns, ∃ lines, c.metadataLines (roles.kind = .microdata) = .ok lines) :
    columnLines roles columns = .ok (columns.flatMap fun c =>
      c.told (roles.kind = .microdata) ++ roleLines roles c.name) := by
  induction columns with
  | nil => rfl
  | cons c rest ih =>
    obtain ⟨⟨lines, hlines⟩, hrest⟩ := List.forall_mem_cons.mp h
    rw [columnLines, hlines, ih hrest, List.flatMap_cons, Column.told_of_ok hlines]
    rfl

theorem metadataText_eq_told
    (h : ∀ c ∈ i.columns, ∃ lines, c.metadataLines (i.kind = .microdata) = .ok lines) :
    i.metadataText = .ok (Text.unlines i.told) := by
  rw [metadataText, columnLines_eq_told h]
  rfl

/-- A line that may be left out says nothing if it says nothing when it is there. -/
theorem argumentsOf_optional {line : String} {p : Prop} [Decidable p]
    (h : argumentsOf keyword [line] = []) :
    argumentsOf keyword (if p then [line] else []) = [] := by
  split
  · exact h
  · rfl

/-- Roles are not about files. -/
theorem argumentsOf_roleLines (hk : keyword ∈ fileKeywords) (roles : Roles) (name : String) :
    argumentsOf keyword (roleLines roles name) = [] := by
  have hbare : ∀ {other : String} {p : Prop} [Decidable p], OtherKeyword other →
      argumentsOf keyword (if p then [other] else []) = [] := fun hother =>
    argumentsOf_optional (argumentsOf_cons_bare hk hother [])
  cases roles with
  | microdata roles =>
    rw [roleLines, microdataRoleLines, argumentsOf_append, argumentsOf_append, hbare (by decide),
      argumentsOf_optional (argumentsOf_cons_other hk (by decide) _ []), hbare (by decide)]
    rfl
  | tableData roles =>
    rw [roleLines, tableRoleLines]
    simp only [argumentsOf_append]
    rw [hbare (by decide), hbare (by decide), hbare (by decide), hbare (by decide),
      hbare (by decide)]
    rfl

theorem arguments_told (hk : keyword ∈ fileKeywords)
    (h : ∀ c ∈ i.columns, ∃ lines, c.metadataLines (i.kind = .microdata) = .ok lines) :
    argumentsOf keyword i.told = argumentsOf keyword (statusLines i.roles) ++
      i.columns.flatMap fun c => argumentsOf keyword [c.headerLine (i.kind = .microdata)] ++
        argumentsOf keyword (c.told (i.kind = .microdata)).tail := by
  rw [told, argumentsOf_cons_other hk (by decide), argumentsOf_append]
  congr 1
  rw [argumentsOf, List.filterMap_flatMap]
  refine List.flatMap_congr fun c hc => ?_
  obtain ⟨lines, hlines⟩ := h c hc
  -- the first line stands apart, as it begins with the name of the column
  obtain ⟨hhead, -⟩ := Column.metadataLines_inversion hlines
  obtain ⟨rest, rfl⟩ := List.head?_eq_some_iff.mp hhead
  show argumentsOf keyword (c.told _ ++ roleLines i.roles c.name) = _
  rw [argumentsOf_append, argumentsOf_roleLines hk, List.append_nil, Column.told_of_ok hlines,
    List.tail_cons, ← argumentsOf_append, List.singleton_append]

end Input

/-! ## Commands of a script -/

namespace Table

variable {t : Table} {name : String} {k number : Nat}

theorem filterMap_changing (t : Table) (name : String) (k number : Nat) :
    (t.changing k).filterMap (·.tableFile? name number) =
      if k = number then JobArtifact.ofPlace .apriori name (t.overrides.bind (·.path)) else [] := by
  rw [changing]
  cases t.overrides with
  | none => simp [JobArtifact.ofPlace]
  | some o =>
    cases hpath : o.path with
    | none => simp [JobArtifact.ofPlace, hpath]
    | some path => by_cases hk : k = number <;>
        simp [JobArtifact.ofPlace, BatchCommand.tableFile?, hpath, hk]

theorem filterMap_recoding (t : Table) (name : String) (k number : Nat) :
    (t.recoding k).filterMap (·.tableFile? name number) =
      if k = number then t.recodes.flatMap fun (column, recode) =>
        JobArtifact.ofPlace .recode (name ++ "." ++ column) (JobArtifact.recodePath? recode)
      else [] := by
  rw [recoding, List.filterMap_filterMap]
  by_cases hk : k = number
  · rw [if_pos hk, List.filterMap_eq_flatMap_toList]
    refine List.flatMap_congr ?_
    rintro ⟨column, recode⟩ -
    unfold JobArtifact.ofPlace
    cases recode with
    | file path =>
      simp [JobArtifact.recodePath?, Recode.target?, BatchCommand.tableFile?, hk]
    | level level =>
      simp [JobArtifact.recodePath?, Recode.target?, BatchCommand.tableFile?]
    | tree recode =>
      cases hpath : recode.path <;>
        simp [JobArtifact.recodePath?, Recode.target?, BatchCommand.tableFile?, hk, hpath]
  · rw [if_neg hk, List.filterMap_eq_nil_iff]
    intro recode _
    refine Option.bind_eq_none_iff.mpr fun command hcommand => ?_
    obtain ⟨target, -, rfl⟩ := Option.map_eq_some_iff.mp hcommand
    cases target with
    | file path => exact if_neg hk
    | level level => rfl

/-- The files that the engine reads for a table. -/
def filesRead (t : Table) (name : String) : List JobArtifact :=
  JobArtifact.ofPlace .apriori name (t.overrides.bind (·.path)) ++
    t.recodes.flatMap fun (column, recode) =>
      JobArtifact.ofPlace .recode (name ++ "." ++ column) (JobArtifact.recodePath? recode)

theorem filterMap_protecting (t : Table) (name : String) (k number : Nat) :
    (t.changing k ++ t.recoding k).filterMap (·.tableFile? name number) =
      if k = number then t.filesRead name else [] := by
  rw [List.filterMap_append, filterMap_changing, filterMap_recoding, filesRead]
  split <;> rfl

theorem filterMap_writing (t : Table) (name : String) (k number : Nat) :
    (t.writing k).filterMap (·.tableFile? name number) =
      if k = number then JobArtifact.ofPlace .output name t.outputPath else [] := by
  rw [writing]
  cases t.outputPath with
  | none => simp [JobArtifact.ofPlace]
  | some path => by_cases hk : k = number <;>
      simp [JobArtifact.ofPlace, BatchCommand.tableFile?, hk]

/-- Commands of a table that may name a file have its number. -/
theorem reading_writing_cases {c : BatchCommand}
    (hc : c ∈ t.changing k ++ t.recoding k ++ t.writing k) :
    (∃ path separator ignoreError expandTrivial,
        c = .apriori path k separator ignoreError expandTrivial) ∨
      (∃ column target, c = .recode k column target) ∨
      ∃ kind options path, c = .writeTable k kind options path := by
  simp only [changing, recoding, writing, List.mem_append, List.mem_filterMap, List.mem_map,
    Option.map_eq_some_iff] at hc
  rcases hc with (⟨_, _, _, _, rfl⟩ | ⟨_, _, _, _, rfl⟩) | ⟨_, _, rfl⟩
  · exact .inl ⟨_, _, _, _, rfl⟩
  · exact .inr (.inl ⟨_, _, rfl⟩)
  · exact .inr (.inr ⟨_, _, _, rfl⟩)

/-- Commands of a table are about no file of the input. -/
theorem inputFile?_eq_none {c : BatchCommand} {input : String}
    (hc : c ∈ t.changing k ++ t.recoding k ++ t.writing k) : c.inputFile? input = none := by
  obtain ⟨_, _, _, _, rfl⟩ | ⟨_, _, rfl⟩ | ⟨_, _, _, rfl⟩ := reading_writing_cases hc <;> rfl

/-- A file that a command of a table names is one of the table. -/
theorem exists_tableFile {c : BatchCommand} {path : Path}
    (hc : c ∈ t.changing k ++ t.recoding k ++ t.writing k) (hpath : c.path? = some path)
    (name : String) : ∃ a, c.tableFile? name k = some a ∧ a.path = path := by
  obtain ⟨_, _, _, _, rfl⟩ | ⟨column, target, rfl⟩ | ⟨_, _, _, rfl⟩ := reading_writing_cases hc
  · exact ⟨_, if_pos rfl, Option.some.inj hpath⟩
  · cases target with
    | file place => exact ⟨_, if_pos rfl, Option.some.inj hpath⟩
    | level level => exact nomatch hpath
  · exact ⟨_, if_pos rfl, Option.some.inj hpath⟩

end Table

/-- Of things that are numbered, a number picks one. -/
theorem flatMap_zipIdx_of_mem {α β : Type} (g : α → List β) {xs : List α} {x : α} {n number : Nat}
    (h : (x, number) ∈ xs.zipIdx n) :
    ((xs.zipIdx n).flatMap fun y => if y.2 = number then g y.1 else []) = g x := by
  induction xs generalizing n with
  | nil => exact absurd h (by simp)
  | cons y rest ih =>
    rw [List.zipIdx_cons] at h ⊢
    rw [List.flatMap_cons]
    rcases List.mem_cons.mp h with heq | hrest
    · obtain ⟨rfl, rfl⟩ := Prod.mk.inj heq
      -- the numbers of the others are larger
      have hothers : ((rest.zipIdx (number + 1)).flatMap fun y =>
          if y.2 = number then g y.1 else []) = [] := by
        refine List.flatMap_eq_nil_iff.mpr fun y hy => if_neg ?_
        have := (List.mem_zipIdx hy).1
        omega
      rw [hothers, List.append_nil]
      exact if_pos rfl
    · have hlt := (List.mem_zipIdx hrest).1
      have hne : n ≠ number := by omega
      rw [ih hrest]
      exact congrArg (· ++ g x) (if_neg hne)

namespace Job

variable {j : Job}

/-- The files of the input, as the commands that open it name them. -/
theorem filterMap_opening_inputFile? (j : Job) :
    j.opening.filterMap (·.inputFile? j.input.kind.name) =
      JobArtifact.ofPlace .data j.input.kind.name j.input.dataPath ++
        JobArtifact.ofPlace .metadata j.input.kind.name j.input.metadataPath := by
  rw [opening]
  cases j.input.dataPath <;> cases j.input.metadataPath <;> cases j.input.kind <;> rfl

theorem filterMap_opening_tableFile? (j : Job) (name : String) (number : Nat) :
    j.opening.filterMap (·.tableFile? name number) = [] := by
  rw [opening]
  cases j.input.dataPath <;> cases j.input.metadataPath <;> cases j.input.kind <;> rfl

/-- Only some commands of a script name files: those that open the input, and those that change,
recode and write tables. -/
theorem filterMap_script {β : Type} {f : BatchCommand → Option β}
    (hf : ∀ c : BatchCommand, c.path? = none → f c = none) (j : Job) : j.script.filterMap f =
      j.opening.filterMap f ++
      (j.numberedTables.flatMap fun (t, k) => (t.changing k ++ t.recoding k).filterMap f) ++
      j.numberedTables.flatMap fun (t, k) => (t.writing k).filterMap f := by
  have hnone : ∀ cs : List BatchCommand, (∀ c ∈ cs, c.path? = none) → cs.filterMap f = [] :=
    fun cs hcs => List.filterMap_eq_nil_iff.mpr fun c hc => hf c (hcs c hc)
  have hspecifying : ∀ t : Table, t.specifying.filterMap f = [] := by
    intro t
    rw [Table.specifying]
    cases t.rules.compose with
    | error fault => rfl
    | ok rules => exact hnone _ (by simp [BatchCommand.path?])
  have hsuppressing : ∀ (k : Nat) (suppression : Option Suppression),
      (suppression.toList.map (BatchCommand.suppress k)).filterMap f = [] :=
    fun k suppression => hnone _ (by simp [BatchCommand.path?])
  have hprotecting : ∀ (t : Table) (k : Nat),
      (t.protecting k).filterMap f = (t.changing k ++ t.recoding k).filterMap f := by
    intro t k
    rw [Table.protecting, List.filterMap_append, hsuppressing, List.append_nil]
  have hmicrodata : f .readMicrodata = none := hf _ rfl
  have htableData : f (.readTable none) = none := hf _ rfl
  have hinteractive : f .goInteractive = none := hf _ rfl
  simp only [script, List.filterMap_append, List.filterMap_flatMap, hspecifying, hprotecting,
    hsuppressing]
  cases j.input.kind <;> cases j.interactive <;> simp [hmicrodata, htableData, hinteractive]

theorem mem_numberedTables_iff {t : Table} {number : Nat} : (t, number) ∈ j.numberedTables ↔
    ∃ name, ((name, t), number) ∈ j.tables.zipIdx 1 := by
  rw [numberedTables, List.zipIdx_map, List.mem_map]
  constructor
  · rintro ⟨⟨⟨name, table⟩, k⟩, h, heq⟩
    obtain ⟨rfl, rfl⟩ := Prod.mk.inj heq
    exact ⟨name, h⟩
  · rintro ⟨name, h⟩
    exact ⟨_, h, rfl⟩

/-- The files of a table, as the commands with its number name them. -/
theorem filterMap_script_tableFile? {name : String} {t : Table} {number : Nat}
    (h : ((name, t), number) ∈ j.tables.zipIdx 1) :
    j.script.filterMap (·.tableFile? name number) = JobArtifact.ofTable name t := by
  have hnumbered := mem_numberedTables_iff.mpr ⟨name, h⟩
  rw [numberedTables] at hnumbered
  rw [filterMap_script (BatchCommand.tableFile?_eq_none name number), filterMap_opening_tableFile?,
    List.nil_append]
  simp only [Table.filterMap_protecting, Table.filterMap_writing, numberedTables]
  rw [flatMap_zipIdx_of_mem (·.filesRead name) hnumbered,
    flatMap_zipIdx_of_mem (fun t => JobArtifact.ofPlace .output name t.outputPath) hnumbered]
  rfl

/-- The files of the input, as commands name them. -/
theorem filterMap_script_inputFile? (j : Job) :
    j.script.filterMap (·.inputFile? j.input.kind.name) =
      JobArtifact.ofPlace .data j.input.kind.name j.input.dataPath ++
        JobArtifact.ofPlace .metadata j.input.kind.name j.input.metadataPath := by
  have hnone : ∀ (f : Table → Nat → List BatchCommand),
      (∀ t k, ∀ c ∈ f t k, c ∈ t.changing k ++ t.recoding k ++ t.writing k) →
      (j.numberedTables.flatMap fun (t, k) =>
        (f t k).filterMap (·.inputFile? j.input.kind.name)) = [] := by
    intro f hf
    refine List.flatMap_eq_nil_iff.mpr ?_
    rintro ⟨t, k⟩ -
    exact List.filterMap_eq_nil_iff.mpr fun c hc => Table.inputFile?_eq_none (hf t k c hc)
  rw [filterMap_script (BatchCommand.inputFile?_eq_none _), filterMap_opening_inputFile?,
    hnone (fun t k => t.changing k ++ t.recoding k) fun _ _ _ => List.mem_append_left _,
    hnone (fun t k => t.writing k) fun _ _ _ => List.mem_append_right _, List.append_nil,
    List.append_nil]

/-- A command of a script that names a file is about the input or about a table. -/
theorem mem_script_cases {c : BatchCommand} {path : Path} (hc : c ∈ j.script)
    (hpath : c.path? = some path) : c ∈ j.opening ∨
      ∃ t k, (t, k) ∈ j.numberedTables ∧ c ∈ t.changing k ++ t.recoding k ++ t.writing k := by
  -- the command is still there when all commands that name no file are left out
  let named : BatchCommand → Option BatchCommand := fun c => c.path?.map fun _ => c
  have hmem : c ∈ j.script.filterMap named := List.mem_filterMap.mpr ⟨c, hc, by simp [named, hpath]⟩
  have hsame : ∀ {cs : List BatchCommand}, c ∈ cs.filterMap named → c ∈ cs := by
    intro cs h
    obtain ⟨d, hd, hnamed⟩ := List.mem_filterMap.mp h
    obtain ⟨_, -, rfl⟩ := Option.map_eq_some_iff.mp hnamed
    exact hd
  rw [filterMap_script (fun c hnone => by simp [named, hnone])] at hmem
  rcases List.mem_append.mp hmem with hbefore | hwriting
  · rcases List.mem_append.mp hbefore with hopening | hreading
    · exact .inl (hsame hopening)
    · obtain ⟨⟨t, k⟩, htk, hread⟩ := List.mem_flatMap.mp hreading
      exact .inr ⟨t, k, htk, List.mem_append_left _ (hsame hread)⟩
  · obtain ⟨⟨t, k⟩, htk, hwritten⟩ := List.mem_flatMap.mp hwriting
    exact .inr ⟨t, k, htk, List.mem_append_right _ (hsame hwritten)⟩

theorem exists_inputFile {c : BatchCommand} {path : Path} (hc : c ∈ j.opening)
    (hpath : c.path? = some path) (input : String) :
    ∃ a, c.inputFile? input = some a ∧ a.path = path := by
  rw [opening, List.mem_append, List.mem_map, List.mem_map] at hc
  rcases hc with ⟨place, -, rfl⟩ | ⟨place, -, rfl⟩
  · cases hkind : j.input.kind <;> rw [hkind] at hpath <;>
      exact ⟨_, rfl, Option.some.inj hpath⟩
  · exact ⟨_, rfl, Option.some.inj hpath⟩

/-- The walk over the job meets the files in the order in which they are named. -/
theorem artifacts_eq_named (hcolumns : ∀ c ∈ j.input.columns, ∃ lines,
    c.metadataLines (j.input.kind = .microdata) = .ok lines) : j.artifacts =
      j.script.filterMap (·.inputFile? j.input.kind.name) ++
      j.input.columns.flatMap (·.toldFiles (j.input.kind = .microdata)) ++
      ((j.tables.zipIdx 1).flatMap fun t => j.script.filterMap (·.tableFile? t.1.1 t.2)) ++
      [⟨.batch, j.name, j.paths.batch⟩] ++ JobArtifact.ofPlace .logbook j.name j.logbookPath? := by
  have hcolumnFiles : j.input.columns.flatMap (·.toldFiles (j.input.kind = .microdata)) =
      j.input.columns.flatMap JobArtifact.ofColumn := by
    refine List.flatMap_congr fun c hc => ?_
    obtain ⟨lines, hlines⟩ := hcolumns c hc
    exact Column.toldFiles_eq hlines
  have htableFiles :
      ((j.tables.zipIdx 1).flatMap fun t => j.script.filterMap (·.tableFile? t.1.1 t.2)) =
        j.tables.flatMap fun t => JobArtifact.ofTable t.1 t.2 := by
    -- the walk goes by name, so the numbers are put in first
    conv_rhs => rw [← List.zipIdx_map_fst 1 j.tables, List.flatMap_map]
    refine List.flatMap_congr ?_
    rintro ⟨⟨name, t⟩, number⟩ h
    exact filterMap_script_tableFile? h
  rw [filterMap_script_inputFile?, hcolumnFiles, htableFiles]
  rfl

/-- A command that names a file names it for the input or for a table. -/
theorem exists_named {c : BatchCommand} {path : Path} (hc : c ∈ j.script)
    (hpath : c.path? = some path) : ∃ a, a.path = path ∧
      (c.inputFile? j.input.kind.name = some a ∨
        ∃ name table number, ((name, table), number) ∈ j.tables.zipIdx 1 ∧
          c.tableFile? name number = some a) := by
  rcases mem_script_cases hc hpath with hopening | ⟨t, number, htable, hnamed⟩
  · obtain ⟨a, ha, hplace⟩ := exists_inputFile hopening hpath j.input.kind.name
    exact ⟨a, hplace, .inl ha⟩
  · obtain ⟨name, hnumbered⟩ := mem_numberedTables_iff.mp htable
    obtain ⟨a, ha, hplace⟩ := Table.exists_tableFile hnamed hpath name
    exact ⟨a, hplace, .inr ⟨name, t, number, hnumbered, ha⟩⟩

/-- The commands and the metadata of a job name the files that are listed. -/
theorem lists_files {commands : List BatchCommand} (hcommands : j.commands = .ok commands)
    (hcolumns : ∀ c ∈ j.input.columns, ∃ lines,
      c.metadataLines (j.input.kind = .microdata) = .ok lines) : j.ListsFiles commands := by
  obtain ⟨-, rfl⟩ := (commands_eq_ok_iff j commands).mp hcommands
  have hlist := artifacts_eq_named hcolumns
  refine ⟨hlist, ?_, Input.metadataText_eq_told hcolumns, fun keyword hk => ?_⟩
  · intro c hc path hpath
    obtain ⟨a, hplace, hnamed⟩ := exists_named hc hpath
    refine ⟨a, ?_, hplace, hnamed⟩
    simp only [hlist, List.mem_append, List.mem_filterMap, List.mem_flatMap]
    rcases hnamed with hinput | ⟨name, t, number, hnumbered, htable⟩
    · exact .inl (.inl (.inl (.inl ⟨c, hc, hinput⟩)))
    · exact .inl (.inl (.inr ⟨((name, t), number), hnumbered, c, hc, htable⟩))
  · have hfile : ∀ keyword ∈ ["\t<HIERCODELIST> ", "\t<CODELIST> "], keyword ∈ fileKeywords := by
      decide
    exact Input.arguments_told (hfile keyword hk) hcolumns

/-- **The list of files is what the engine is told.** After a job was set up, the files that are
listed are those that its commands and its metadata name, each for what it is named for and in the
order of the commands, together with the batch file and the logbook. -/
theorem setUp_lists_files {fs : FileSystem} (h : (j.setUp fs).fault = none) :
    ∃ commands, (j.setUp fs).value.commands = .ok commands ∧
      (j.setUp fs).value.ListsFiles commands := by
  obtain ⟨_, _, commands, _, hvalue, _, hcommands, _⟩ := setUp_inversion h
  rw [hvalue]
  refine ⟨commands, hcommands, lists_files hcommands fun c hc => ?_⟩
  obtain ⟨hhierarchy, hcodeList⟩ := j.placed_columns_pending c hc
  exact Column.metadataLines_ok hhierarchy hcodeList _

theorem fullSurvey_lists_files :
    (fullSurvey.setUp emptyFiles).fault = none ∧
      (fullSurvey.setUp emptyFiles).value.artifacts.map (·.kind) =
        [.data, .metadata, .hierarchy, .codeList, .apriori, .recode, .output, .batch, .logbook] ∧
      ∃ commands, (fullSurvey.setUp emptyFiles).value.commands = .ok commands ∧
        (fullSurvey.setUp emptyFiles).value.ListsFiles commands := by
  have hdone : (fullSurvey.setUp emptyFiles).fault = none := by decide +kernel
  exact ⟨hdone, by decide +kernel, setUp_lists_files hdone⟩

end Job

end Disclosure
