import Disclosure.CodeTree.Rows
import Disclosure.Proofs.Job.Places

/-!
# What setting up comes to

Five of the pieces that setting up is made of write what has no place yet. Put in a row they settle
the job: `placed` is where they lead and `pending` is all they may write. The metadata file is the
one among them that could fail for want of another file, and it does not, as hierarchies and code
lists are in their place before it is written.

Around these five stand the pieces that change nothing: a table is required, directories are made,
problems are told, and the batch file is written. `setUp_outcome` lists the ways out, so that what is
said about setting up later never has to go through the row again.
-/

namespace Disclosure

namespace Column

theorem hierarchyLines_ok {c : Column} {paths : JobPaths} (h : c.pendingHierarchy paths = []) :
    ∃ lines, c.hierarchyLines = .ok lines := by
  rw [pendingHierarchy] at h
  rw [hierarchyLines]
  cases hh : c.hierarchy with
  | flat total => exact ⟨_, rfl⟩
  | levels h => exact ⟨_, rfl⟩
  | tree tree =>
    rw [hh] at h
    obtain ⟨path, hpath⟩ := Option.isSome_iff_exists.mp (Path.isSome_of_pending h)
    dsimp only
    rw [hpath]
    exact ⟨_, rfl⟩

theorem codeListLines_ok {c : Column} {paths : JobPaths} (h : c.pendingCodeList paths = []) :
    ∃ lines, c.codeListLines = .ok lines := by
  rw [pendingCodeList] at h
  rw [codeListLines]
  cases hl : c.codeList with
  | none => exact ⟨_, rfl⟩
  | some codeList =>
    rw [hl] at h
    obtain ⟨path, hpath⟩ := Option.isSome_iff_exists.mp (Path.isSome_of_pending h)
    dsimp only
    rw [hpath]
    exact ⟨_, rfl⟩

/-- With its files in their places a column can be described. -/
theorem metadataLines_ok {c : Column} {paths : JobPaths} (hh : c.pendingHierarchy paths = [])
    (hl : c.pendingCodeList paths = []) (withLength : Bool) :
    ∃ lines, c.metadataLines withLength = .ok lines := by
  obtain ⟨codes, hcodes⟩ := codeListLines_ok hl
  have hrecode : ∃ lines, c.recodeLines = .ok lines := by
    rw [recodeLines]
    split
    · obtain ⟨lines, hlines⟩ := hierarchyLines_ok hh
      rw [hlines]
      exact ⟨_, rfl⟩
    · exact ⟨_, rfl⟩
  obtain ⟨recode, hrecode⟩ := hrecode
  rw [metadataLines, hrecode, hcodes]
  exact ⟨_, rfl⟩

end Column

theorem Input.columnLines_ok {paths : JobPaths} (roles : Roles) : ∀ {columns : List Column},
    (∀ c ∈ columns, c.pendingHierarchy paths = [] ∧ c.pendingCodeList paths = []) →
      ∃ lines, columnLines roles columns = .ok lines
  | [], _ => ⟨_, rfl⟩
  | c :: rest, h => by
    obtain ⟨hh, hl⟩ := h c List.mem_cons_self
    obtain ⟨lines, hlines⟩ := Column.metadataLines_ok hh hl (roles.kind = .microdata)
    obtain ⟨others, hothers⟩ := columnLines_ok roles fun d hd => h d (List.mem_cons_of_mem _ hd)
    rw [columnLines, hlines, hothers]
    exact ⟨_, rfl⟩

/-- With the files of all columns in their places the metadata can be written. -/
theorem Input.metadataText_ok {i : Input} {paths : JobPaths}
    (h : ∀ c ∈ i.columns, c.pendingHierarchy paths = [] ∧ c.pendingCodeList paths = []) :
    ∃ text, i.metadataText = .ok text := by
  obtain ⟨lines, hlines⟩ := columnLines_ok i.roles h
  rw [metadataText, hlines]
  exact ⟨_, rfl⟩

namespace Job

/-! ## Tables, taken out and put back -/

theorem withTables_tables (j : Job) : j.withTables j.tables = j := by
  unfold withTables tables
  by_cases hempty : j.ownTables.isEmpty = true
  · rw [if_pos hempty, if_pos hempty]
    obtain ⟨name, paths, input, own, linked, logbook, interactive⟩ := j
    obtain ⟨frame, columns, roles, separator, dataPath, metadataPath⟩ := input
    cases roles <;> rfl
  · rw [if_neg hempty, if_neg hempty]

/-- Tables that are put back under the names they had are the tables of the job. -/
theorem tables_withTables {j : Job} {ts : List (String × Table)}
    (h : ts.map (·.1) = j.tables.map (·.1)) : (j.withTables ts).tables = ts := by
  rw [tables] at h
  unfold withTables
  by_cases hempty : j.ownTables.isEmpty = true
  · rw [if_pos hempty] at h ⊢
    cases hroles : j.input.roles with
    | microdata roles =>
      -- there is no table to put anything in the place of
      have hts : ts = [] := by simpa [Input.table?, hroles] using h
      simp only [tables, if_pos hempty, Input.table?, hroles, hts, Option.toList_none, List.map_nil]
    | tableData roles =>
      obtain ⟨t, hts, hname⟩ : ∃ t, ts = [t] ∧ t.1 = inputTableName := by
        simpa [Input.table?, hroles, List.map_eq_singleton_iff] using h
      obtain ⟨name, table⟩ := t
      dsimp only at hname
      subst hts hname
      simp only [tables, if_pos hempty, Input.table?, Option.toList_some, List.map_cons,
        List.map_nil]
  · rw [if_neg hempty] at h ⊢
    have hts : ¬ ts.isEmpty = true := fun hnil => hempty <| by
      rw [List.isEmpty_iff] at hnil ⊢
      rw [hnil] at h
      exact List.map_eq_nil_iff.mp h.symm
    exact if_neg hts

/-- Of tables that are put back twice the last ones stay. -/
theorem withTables_withTables {j : Job} {ts us : List (String × Table)}
    (hts : ts.map (·.1) = j.tables.map (·.1)) (hus : us.map (·.1) = j.tables.map (·.1)) :
    (j.withTables ts).withTables us = j.withTables us := by
  have hlength : ∀ {vs : List (String × Table)}, vs.map (·.1) = j.tables.map (·.1) →
      vs.length = j.tables.length := fun h => by simpa using congrArg List.length h
  have hts' := hlength hts
  have hus' := hlength hus
  unfold tables at hts' hus'
  unfold withTables
  by_cases hempty : j.ownTables.isEmpty = true
  · rw [if_pos hempty] at hts' hus' ⊢
    cases hroles : j.input.roles with
    | microdata roles => simp [hroles, hempty]
    | tableData roles =>
      rw [Input.table?, hroles] at hts' hus'
      obtain ⟨t, rfl⟩ := List.length_eq_one_iff.mp hts'
      obtain ⟨u, rfl⟩ := List.length_eq_one_iff.mp hus'
      simp [hempty]
  · rw [if_neg hempty] at hts'
    have hnone : ¬ ts.isEmpty = true := fun hnil => hempty <| by
      rw [List.isEmpty_iff] at hnil
      rw [hnil, List.length_nil] at hts'
      exact List.isEmpty_iff.mpr (List.eq_nil_of_length_eq_zero hts'.symm)
    simp [hempty, hnone]

theorem withTables_paths (j : Job) (ts : List (String × Table)) :
    (j.withTables ts).paths = j.paths := by
  unfold withTables
  split
  · split <;> rfl
  · rfl

theorem withTables_input (j : Job) (ts : List (String × Table)) :
    (j.withTables ts).input.columns = j.input.columns ∧
      (j.withTables ts).input.kind = j.input.kind ∧
      (j.withTables ts).input.dataPath = j.input.dataPath ∧
      (j.withTables ts).input.metadataPath = j.input.metadataPath := by
  unfold withTables
  split
  · split
    · rename_i roles _ table _ hroles
      exact ⟨rfl, by rw [Input.kind, Input.kind, hroles]; rfl, rfl, rfl⟩
    · exact ⟨rfl, rfl, rfl, rfl⟩
  · exact ⟨rfl, rfl, rfl, rfl⟩

/-! ## The places of a job -/

/-- The job with a place for its data file. -/
def placeData (j : Job) : Job :=
  { j with input := { j.input with
      dataPath := some (j.input.dataPath.getD (j.paths.data j.input.kind.name)) } }

/-- The job with the places of its columns filled in. -/
def placeColumns (place : JobPaths → Column → Column) (j : Job) : Job :=
  { j with input := { j.input with columns := j.input.columns.map (place j.paths) } }

/-- The job with a place for its metadata file. -/
def placeMetadata (j : Job) : Job :=
  { j with input := { j.input with
      metadataPath := some (j.input.metadataPath.getD (j.paths.metadata j.input.kind.name)) } }

/-- The job with the places of its tables filled in. -/
def placeTables (j : Job) : Job :=
  j.withTables (j.tables.map (Table.placed j.paths))

/-- The job with every place filled in. -/
def placed (j : Job) : Job :=
  (((j.placeData.placeColumns Column.placeHierarchy).placeColumns
    Column.placeCodeList).placeMetadata).placeTables

/-- The places that are not filled in yet, in the order in which they come to be written. -/
def pending (j : Job) : List Path :=
  Path.pending j.input.dataPath (j.paths.data j.input.kind.name) ++
    (j.input.columns.flatMap (Column.pendingHierarchy j.paths) ++
    (j.input.columns.flatMap (Column.pendingCodeList j.paths) ++
    (Path.pending j.input.metadataPath (j.paths.metadata j.input.kind.name) ++
    j.tables.flatMap (Table.pending j.paths))))

/-- The pieces of setting up that write what has no place yet. -/
def writings : List (Work Job) :=
  [setUpData, forColumns setUpHierarchy, forColumns setUpCodeList, setUpMetadata, setUpTables]

theorem settles_data (j : Job) :
    Settles setUpData j j.placeData
      (Path.pending j.input.dataPath (j.paths.data j.input.kind.name)) := by
  rw [placeData]
  cases hp : j.input.dataPath with
  | some path =>
    have hnothing : Settles setUpData j j [] := .nothing fun fs => by
      simp only [setUpData, hp]
      exact Step.done_done ..
    exact hnothing.congr (by rw [Option.getD_some, ← hp]) rfl
  | none =>
    have hwork : ∀ fs, setUpData j fs =
        (Step.ofSaving j.input fs
          (fun input => .wroteData (j.paths.data j.input.kind.name) input.frame.height)
          (j.input.saveData fs (j.paths.data j.input.kind.name))).map
            fun input => { j with input } := fun fs => by
      simp only [setUpData, hp]
    exact .saving { j.input with dataPath := some (j.paths.data j.input.kind.name) }
      (fun input => { j with input }) hwork fun fs => j.input.saves_data fs _

theorem settles_columns {work : JobPaths → Work Column} {place : JobPaths → Column → Column}
    {pending : JobPaths → Column → List Path}
    (h : ∀ paths c, Settles (work paths) c (place paths c) (pending paths c)) (j : Job) :
    Settles (forColumns work) j (j.placeColumns place)
      (j.input.columns.flatMap (pending j.paths)) :=
  (Settles.each fun c _ => h j.paths c).part
    (f := fun columns => { j with input := { j.input with columns } }) (fun _ => rfl) rfl

theorem settles_metadata {j : Job} {text : String} (htext : j.input.metadataText = .ok text) :
    Settles setUpMetadata j j.placeMetadata
      (Path.pending j.input.metadataPath (j.paths.metadata j.input.kind.name)) := by
  rw [placeMetadata]
  cases hp : j.input.metadataPath with
  | some path =>
    have hnothing : Settles setUpMetadata j j [] := .nothing fun fs => by
      simp only [setUpMetadata, hp]
      exact Step.done_done ..
    exact hnothing.congr (by rw [Option.getD_some, ← hp]) rfl
  | none =>
    have hwork : ∀ fs, setUpMetadata j fs =
        (Step.ofSaving j.input fs
          (fun input => .wroteMetadata (j.paths.metadata j.input.kind.name) input.columns.length)
          (j.input.saveMetadata fs (j.paths.metadata j.input.kind.name))).map
            fun input => { j with input } := fun fs => by
      simp only [setUpMetadata, hp]
    exact .saving { j.input with metadataPath := some (j.paths.metadata j.input.kind.name) }
      (fun input => { j with input }) hwork fun fs => Input.saves_metadata htext fs _

theorem settles_tables (j : Job) :
    Settles setUpTables j j.placeTables (j.tables.flatMap (Table.pending j.paths)) :=
  (Settles.each fun t _ => Table.settles j.paths j.columnLength t).part (f := j.withTables)
    (fun _ => rfl) (withTables_tables j)

/-! ## The five pieces in a row -/

theorem placeColumns_placeHierarchy_codeLists (j : Job) :
    (j.placeColumns Column.placeHierarchy).input.columns.flatMap (Column.pendingCodeList j.paths) =
      j.input.columns.flatMap (Column.pendingCodeList j.paths) := by
  rw [placeColumns, List.flatMap_map]
  congr 1
  funext c
  exact Column.pendingCodeList_congr (Column.placeHierarchy_name _ c)
    (Column.placeHierarchy_codeList _ c)

theorem placeColumns_pending (j : Job) :
    ∀ c ∈ ((j.placeColumns Column.placeHierarchy).placeColumns Column.placeCodeList).input.columns,
      c.pendingHierarchy j.paths = [] ∧ c.pendingCodeList j.paths = [] := by
  intro c hc
  obtain ⟨between, hbetween, rfl⟩ := List.mem_map.mp hc
  obtain ⟨before, _, rfl⟩ := List.mem_map.mp hbetween
  exact Column.placed_pending j.paths before

/-- No column is without its files once every place is filled in. -/
theorem placed_columns_pending (j : Job) : ∀ c ∈ j.placed.input.columns,
    c.pendingHierarchy j.paths = [] ∧ c.pendingCodeList j.paths = [] := by
  rw [placed, placeTables, (withTables_input _ _).1]
  exact j.placeData.placeColumns_pending

theorem placed_paths (j : Job) : j.placed.paths = j.paths :=
  withTables_paths _ _

theorem placed_tables (j : Job) : j.placed.tables = j.tables.map (Table.placed j.paths) :=
  tables_withTables (List.map_map.trans (List.map_congr_left fun _ _ => rfl))

/-- **Writing what has no place yet fills every place in.** -/
theorem settles (j : Job) : Settles (Step.inOrder writings) j j.placed j.pending := by
  let a := j.placeData
  let b := a.placeColumns Column.placeHierarchy
  let c := b.placeColumns Column.placeCodeList
  -- the columns have their files by the time the metadata is written
  obtain ⟨text, htext⟩ := Input.metadataText_ok a.placeColumns_pending
  have hdata := settles_data j
  have hhierarchies := settles_columns Column.settles_hierarchy a
  have hcodeLists := settles_columns Column.settles_codeList b
  have hmetadata := settles_metadata htext
  have htables := settles_tables c.placeMetadata
  refine (Settles.inOrder_cons hdata <| .inOrder_cons hhierarchies <| .inOrder_cons hcodeLists <|
    .inOrder_cons hmetadata <| .inOrder_cons htables .inOrder_nil).congr rfl ?_
  -- giving hierarchies their places leaves the places of code lists as they are
  have hlists : b.input.columns.flatMap (Column.pendingCodeList b.paths) =
      j.input.columns.flatMap (Column.pendingCodeList j.paths) :=
    placeColumns_placeHierarchy_codeLists a
  rw [hlists, List.append_nil]
  rfl

/-- Once every place is filled in, nothing is pending. -/
theorem placed_pending (j : Job) : j.placed.pending = [] := by
  obtain ⟨_, _, hdata, hmetadata⟩ := withTables_input
    (((j.placeData.placeColumns Column.placeHierarchy).placeColumns
      Column.placeCodeList).placeMetadata) (j.tables.map (Table.placed j.paths))
  have hd : j.placed.input.dataPath.isSome = true := congrArg Option.isSome hdata
  have hm : j.placed.input.metadataPath.isSome = true := congrArg Option.isSome hmetadata
  have hcolumns := j.placed_columns_pending
  have htables : ∀ t ∈ j.placed.tables, Table.pending j.paths t = [] := by
    intro t ht
    rw [placed_tables] at ht
    obtain ⟨before, _, rfl⟩ := List.mem_map.mp ht
    exact Table.placed_pending j.paths before
  rw [pending, placed_paths, Path.pending_of_isSome _ hd, Path.pending_of_isSome _ hm,
    List.flatMap_eq_nil_iff.mpr fun c hc => (hcolumns c hc).1,
    List.flatMap_eq_nil_iff.mpr fun c hc => (hcolumns c hc).2,
    List.flatMap_eq_nil_iff.mpr htables]
  rfl

/-! ## Making directories -/

theorem createDirectories_keeps (j : Job) : ∀ (paths : List Path) (fs : FileSystem),
    (createDirectories paths j fs).value = j ∧ fs.Keeps [] (createDirectories paths j fs).files
  | [], fs => ⟨rfl, .refl [] fs⟩
  | path :: rest, fs => by
    rw [createDirectories]
    cases hmake : fs.createDirectory path with
    | error fault => exact ⟨rfl, .refl [] fs⟩
    | ok made =>
      obtain ⟨hvalue, hkeeps⟩ := createDirectories_keeps j rest made
      exact ⟨hvalue, (FileSystem.keeps_createDirectory hmake).trans hkeeps⟩

theorem createDirectories_fault {j : Job} {f : Fault} : ∀ {paths : List Path} {fs : FileSystem},
    (createDirectories paths j fs).fault = some f → ∃ path e, f = .file path e
  | [], _, h => absurd h (by simp [createDirectories, Step.done])
  | path :: rest, fs, h => by
    rw [createDirectories] at h
    cases hmake : fs.createDirectory path with
    | error fault =>
      rw [hmake] at h
      injection h with h
      exact ⟨path, fault, h.symm⟩
    | ok made =>
      rw [hmake] at h
      exact createDirectories_fault h

/-- Directories that are there are not made again. -/
theorem createDirectories_done {j : Job} {fs : FileSystem} : ∀ {paths : List Path},
    (∀ path ∈ paths, fs.isDirectory path = true) → (createDirectories paths j fs).Done j fs
  | [], _ => Step.done_done ..
  | path :: rest, h => by
    rw [createDirectories,
      FileSystem.createDirectory_of_isDirectory (h path List.mem_cons_self)]
    exact createDirectories_done fun p hp => h p (List.mem_cons_of_mem _ hp)

/-! ## The ways out -/

/-- The directories that a job is set up in. -/
def directories (j : Job) : List Path :=
  [j.paths.input, j.paths.output, j.paths.work]

/-- There was a table to make, the directories were made, and everything that had no place was
written there. -/
structure Written (j : Job) (fs made written : FileSystem) : Prop where
  /-- There is a table. -/
  tables : j.tables.isEmpty = false
  /-- Making directories has changed no file. -/
  directories : fs.Keeps [] made
  /-- Everything is in its place. -/
  writings : (Step.inOrder Job.writings j made).Done j.placed written

theorem Written.keeps {j : Job} {fs made written : FileSystem} (h : Written j fs made written) :
    fs.Keeps j.pending written := by
  have hkeeps := (j.settles).keeps made
  rw [h.writings.files] at hkeeps
  exact (h.directories.mono fun p hp => absurd hp (by simp)).trans hkeeps

/-- The five pieces one by one. -/
theorem Written.pieces {j : Job} {fs made written : FileSystem} (h : Written j fs made written) :
    ∃ fs₁ fs₂ fs₃ fs₄,
      (setUpData j made).Done j.placeData fs₁ ∧
      (forColumns setUpHierarchy j.placeData fs₁).Done
        (j.placeData.placeColumns Column.placeHierarchy) fs₂ ∧
      (forColumns setUpCodeList (j.placeData.placeColumns Column.placeHierarchy) fs₂).Done
        ((j.placeData.placeColumns Column.placeHierarchy).placeColumns Column.placeCodeList) fs₃ ∧
      (setUpMetadata ((j.placeData.placeColumns Column.placeHierarchy).placeColumns
        Column.placeCodeList) fs₃).Done ((j.placeData.placeColumns
          Column.placeHierarchy).placeColumns Column.placeCodeList).placeMetadata fs₄ ∧
      (setUpTables ((j.placeData.placeColumns Column.placeHierarchy).placeColumns
        Column.placeCodeList).placeMetadata fs₄).Done j.placed written := by
  obtain ⟨a, fs₁, ha, h₁⟩ := Step.of_inOrder_cons_done h.writings
  obtain rfl := (settles_data j).done ha
  obtain ⟨b, fs₂, hb, h₂⟩ := Step.of_inOrder_cons_done h₁
  obtain rfl := (settles_columns Column.settles_hierarchy _).done hb
  obtain ⟨c, fs₃, hc, h₃⟩ := Step.of_inOrder_cons_done h₂
  obtain rfl := (settles_columns Column.settles_codeList _).done hc
  obtain ⟨d, fs₄, hd, h₄⟩ := Step.of_inOrder_cons_done h₃
  obtain ⟨text, htext⟩ := Input.metadataText_ok j.placeData.placeColumns_pending
  obtain rfl := (settles_metadata htext).done hd
  obtain ⟨e, fs₅, he, h₅⟩ := Step.of_inOrder_cons_done h₄
  obtain ⟨rfl, rfl⟩ := Step.of_inOrder_nil_done h₅
  exact ⟨fs₁, fs₂, fs₃, fs₄, ha, hb, hc, hd, he⟩

/-- The ways in which setting up can come out. -/
inductive Outcome (j : Job) (fs : FileSystem) (s : Step Job) : Prop where
  /-- Not everything could be written. -/
  | stopped (fault : Fault) (hfault : s.fault = some fault)
      (hother : ∀ problems, fault ≠ .inconsistent problems) (hkeeps : fs.Keeps j.pending s.files)
  /-- Everything was written, but there are problems, or there is no batch file. -/
  | refused (made : FileSystem) (hwritten : Written j fs made s.files) (hvalue : s.value = j.placed)
      (fault : Fault) (hfault : s.fault = some fault)
  /-- Everything was written, and the batch file last. -/
  | finished (made written : FileSystem) (hwritten : Written j fs made written)
      (hvalue : s.value = j.placed) (hfault : s.fault = none) (hcheck : j.placed.check = .ok ())
      (commands : List BatchCommand) (hcommands : j.placed.commands = .ok commands)
      (hbatch : written.write j.paths.batch (renderBatch commands).toUTF8 = .ok s.files)

/-- Setting up, up to the piece that tells about problems. -/
theorem setUp_eq (j : Job) (fs : FileSystem) :
    j.setUp fs =
      (((requireTables j fs).andThen (createDirectories j.directories)).andThen
        fun a made => (Step.inOrder writings a made).andThen
          (Step.inOrder [reportProblems, writeBatch])).inside (.setup j.name) := by
  rw [Step.andThen_assoc]
  have hrow : ∀ (a : Job) (made : FileSystem), (Step.inOrder writings a made).andThen
      (Step.inOrder [reportProblems, writeBatch]) =
        Step.inOrder (writings ++ [reportProblems, writeBatch]) a made := fun a made =>
    (Step.inOrder_append writings [reportProblems, writeBatch] a made).symm
  simp only [hrow]
  rfl

/-- Without problems, the last two pieces only write the batch file. -/
theorem batch_done {j : Job} {fs files : FileSystem} {commands : List BatchCommand}
    (hcheck : j.check = .ok ()) (hcommands : j.commands = .ok commands)
    (hwrite : fs.write j.paths.batch (renderBatch commands).toUTF8 = .ok files) :
    (Step.inOrder [reportProblems, writeBatch] j fs).Done j files := by
  have hreport : (reportProblems j fs).Done j fs := by
    rw [reportProblems, hcheck]
    exact Step.done_done ..
  have hbatch : (writeBatch j fs).Done j files := by
    simp only [writeBatch, hcommands, FileSystem.writeText, hwrite]
    exact Step.done_done ..
  exact Step.andThen_done hreport (Step.andThen_done hbatch (Step.done_done ..))

/-- The last two pieces change nothing but the batch file. -/
theorem batch_cases (j : Job) (fs : FileSystem) :
    (j.check = .ok () ∧ ∃ commands files, j.commands = .ok commands ∧
      fs.write j.paths.batch (renderBatch commands).toUTF8 = .ok files ∧
      (Step.inOrder [reportProblems, writeBatch] j fs).Done j files) ∨
    ∃ fault, (Step.inOrder [reportProblems, writeBatch] j fs).fault = some fault ∧
      (Step.inOrder [reportProblems, writeBatch] j fs).value = j ∧
      (Step.inOrder [reportProblems, writeBatch] j fs).files = fs := by
  cases hcheck : j.check with
  | error fault =>
    have hreport : ∃ events, reportProblems j fs = ⟨j, fs, events, some fault⟩ :=
      ⟨_, by rw [reportProblems, hcheck]⟩
    obtain ⟨events, hreport⟩ := hreport
    rw [Step.inOrder, hreport]
    exact .inr ⟨fault, rfl, rfl, rfl⟩
  | ok _ =>
    have hreport : reportProblems j fs = .done j fs [] := by rw [reportProblems, hcheck]
    cases hcommands : j.commands with
    | error fault =>
      have hbatch : writeBatch j fs = .failed j fs fault := by rw [writeBatch, hcommands]
      rw [Step.inOrder, hreport, Step.andThen, Step.done, Step.inOrder, hbatch]
      exact .inr ⟨fault, rfl, rfl, rfl⟩
    | ok commands =>
      cases hwrite : fs.write j.paths.batch (renderBatch commands).toUTF8 with
      | error fault =>
        have hbatch : writeBatch j fs = .failed j fs (.file j.paths.batch fault) := by
          simp only [writeBatch, hcommands, FileSystem.writeText, hwrite]
        rw [Step.inOrder, hreport, Step.andThen, Step.done, Step.inOrder, hbatch]
        exact .inr ⟨_, rfl, rfl, rfl⟩
      | ok files =>
        exact .inl ⟨rfl, commands, files, rfl, hwrite, batch_done hcheck hcommands hwrite⟩

/-- What stands before the writing. -/
theorem directories_cases (j : Job) (fs : FileSystem) :
    (∃ fault, ((requireTables j fs).andThen (createDirectories j.directories)).fault = some fault ∧
      (∀ problems, fault ≠ .inconsistent problems) ∧
      fs.Keeps [] ((requireTables j fs).andThen (createDirectories j.directories)).files) ∨
    ∃ made, j.tables.isEmpty = false ∧ fs.Keeps [] made ∧
      ((requireTables j fs).andThen (createDirectories j.directories)).Done j made := by
  cases htables : j.tables.isEmpty with
  | true =>
    have hrequire : requireTables j fs = .failed j fs .noTables := by
      rw [requireTables, if_pos htables]
    rw [hrequire]
    exact .inl ⟨.noTables, rfl, fun problems h => Fault.noConfusion h, .refl [] fs⟩
  | false =>
    have hrequire : (requireTables j fs).Done j fs := by
      rw [requireTables, if_neg (by rw [htables]; simp)]
      exact Step.done_done ..
    obtain ⟨hvalue, hfiles, hfault⟩ :=
      Step.andThen_of_done (createDirectories j.directories) hrequire
    obtain ⟨hsame, hkeeps⟩ := createDirectories_keeps j j.directories fs
    cases hmake : (createDirectories j.directories j fs).fault with
    | some fault =>
      obtain ⟨path, e, rfl⟩ := createDirectories_fault hmake
      exact .inl ⟨_, hfault.trans hmake, fun problems h => Fault.noConfusion h, hfiles ▸ hkeeps⟩
    | none =>
      exact .inr ⟨_, rfl, hkeeps, hvalue.trans hsame, hfiles, hfault.trans hmake⟩

/-- **Setting up comes out in one of three ways.** -/
theorem setUp_outcome (j : Job) (fs : FileSystem) : Outcome j fs (j.setUp fs) := by
  rw [setUp_eq]
  rcases directories_cases j fs with ⟨fault, hfault, hother, hkeeps⟩ | ⟨made, htables, hkeeps, hd⟩
  · rw [Step.andThen_of_fault hfault]
    exact .stopped fault hfault hother (hkeeps.mono fun p hp => absurd hp (by simp))
  obtain ⟨hvalue, hfiles, hend⟩ := Step.andThen_of_done
    (fun a made => (Step.inOrder writings a made).andThen
      (Step.inOrder [reportProblems, writeBatch])) hd
  have hmade : fs.Keeps j.pending made := hkeeps.mono fun p hp => absurd hp (by simp)
  cases hwrite : (Step.inOrder writings j made).fault with
  | some fault =>
    rw [Step.andThen_of_fault hwrite] at hvalue hfiles hend
    obtain ⟨path, e, rfl⟩ := (j.settles).fault hwrite
    -- what was written until then was pending
    refine .stopped _ (hend.trans hwrite) (fun problems h => Fault.noConfusion h) ?_
    exact hfiles ▸ hmade.trans ((j.settles).keeps made)
  | none =>
    have hwritten := Step.done_of_fault_none hwrite
    rw [(j.settles).done hwritten] at hwritten
    obtain ⟨hvalue', hfiles', hend'⟩ :=
      Step.andThen_of_done (Step.inOrder [reportProblems, writeBatch]) hwritten
    have hall : Written j fs made (Step.inOrder writings j made).files :=
      ⟨htables, hkeeps, hwritten⟩
    rcases batch_cases j.placed (Step.inOrder writings j made).files with
      ⟨hcheck, commands, files, hcommands, hbatch, hdone⟩ | ⟨fault, hfault, hsame, hunchanged⟩
    · refine .finished made _ hall (hvalue.trans (hvalue'.trans hdone.value))
        (hend.trans (hend'.trans hdone.fault)) hcheck commands hcommands ?_
      rw [placed_paths] at hbatch
      exact hbatch.trans (congrArg Except.ok (hfiles.trans (hfiles'.trans hdone.files)).symm)
    · refine .refused made ?_ (hvalue.trans (hvalue'.trans hsame)) fault
        (hend.trans (hend'.trans hfault))
      exact (hfiles.trans (hfiles'.trans hunchanged)) ▸ hall

/-- A job that was set up: what it has gone through, and what came to be its batch file. -/
theorem setUp_inversion {j : Job} {fs : FileSystem} (h : (j.setUp fs).fault = none) :
    ∃ made written commands, Written j fs made written ∧ (j.setUp fs).value = j.placed ∧
      j.placed.check = .ok () ∧ j.placed.commands = .ok commands ∧
      written.write j.paths.batch (renderBatch commands).toUTF8 = .ok (j.setUp fs).files := by
  cases setUp_outcome j fs with
  | stopped fault hfault => exact absurd (h.symm.trans hfault) (by simp)
  | refused made hwritten hvalue fault hfault => exact absurd (h.symm.trans hfault) (by simp)
  | finished made written hwritten hvalue hfault hcheck commands hcommands hbatch =>
    exact ⟨made, written, commands, hwritten, hvalue, hcheck, hcommands, hbatch⟩

/-- What the five pieces that write keep of a job holds wherever setting up stops: the others leave
the job alone. -/
theorem setUp_preserves {P : Job → Prop}
    (hwork : ∀ work ∈ writings, ∀ a fs, P a → P (work a fs).value) {j : Job} (h : P j)
    (fs : FileSystem) : P (j.setUp fs).value := by
  refine Step.inOrder_preserves (P := fun a _ => P a) (fun work hmem a files ha => ?_) j fs h
  have hsame : (work a files).value = a → P (work a files).value := fun he => he.symm ▸ ha
  simp only [List.mem_cons, List.not_mem_nil, or_false] at hmem
  rcases hmem with rfl | rfl | rfl | rfl | rfl | rfl | rfl | rfl | rfl
  · refine hsame ?_
    rw [requireTables]
    split <;> rfl
  · exact hsame (createDirectories_keeps a _ files).1
  · exact hwork _ (by simp [writings]) a files ha
  · exact hwork _ (by simp [writings]) a files ha
  · exact hwork _ (by simp [writings]) a files ha
  · exact hwork _ (by simp [writings]) a files ha
  · exact hwork _ (by simp [writings]) a files ha
  · refine hsame ?_
    rw [reportProblems]
    split <;> rfl
  · refine hsame ?_
    rw [writeBatch]
    split
    · rfl
    · split <;> rfl

/-- Wherever setting up stops, it has written no files but those that were pending and the batch
file. -/
theorem setUp_keeps (j : Job) (fs : FileSystem) :
    fs.Keeps (j.paths.batch :: j.pending) (j.setUp fs).files := by
  have hpending : ∀ p ∈ j.pending, p ∈ j.paths.batch :: j.pending :=
    fun _ hp => List.mem_cons_of_mem _ hp
  cases setUp_outcome j fs with
  | stopped fault hfault hother hkeeps => exact hkeeps.mono hpending
  | refused made hwritten hvalue fault hfault => exact hwritten.keeps.mono hpending
  | finished made written hwritten hvalue hfault hcheck commands hcommands hbatch =>
    refine (hwritten.keeps.mono hpending).trans ((FileSystem.keeps_write hbatch).mono ?_)
    rintro p hp
    rw [List.mem_singleton.mp hp]
    exact List.mem_cons_self

/-- **A job with nothing pending only gets its batch file.** -/
theorem setUp_done {j : Job} {fs files : FileSystem} {commands : List BatchCommand}
    (htables : j.tables.isEmpty = false)
    (hdirs : ∀ path ∈ j.directories, fs.isDirectory path = true) (hpending : j.pending = [])
    (hcheck : j.check = .ok ()) (hcommands : j.commands = .ok commands)
    (hwrite : fs.write j.paths.batch (renderBatch commands).toUTF8 = .ok files) :
    (j.setUp fs).Done j files := by
  have hrequire : (requireTables j fs).Done j fs := by
    rw [requireTables, if_neg (by rw [htables]; simp)]
    exact Step.done_done ..
  have hmake := Step.andThen_done hrequire (createDirectories_done hdirs)
  -- with nothing pending the writing changes neither the job nor the files
  have hidle := (j.settles).idle hpending fs
  have hrest : ((Step.inOrder writings j fs).andThen
      (Step.inOrder [reportProblems, writeBatch])).Done j files :=
    Step.andThen_done hidle (batch_done hcheck hcommands hwrite)
  have hall : (((requireTables j fs).andThen (createDirectories j.directories)).andThen
      fun a made => (Step.inOrder writings a made).andThen
        (Step.inOrder [reportProblems, writeBatch])).Done j files :=
    Step.andThen_done hmake hrest
  rw [setUp_eq]
  exact ⟨hall.value, hall.files, hall.fault⟩

/-! ## Jobs to try things on -/

/-- A survey with one column, the region of each person, in a directory of its own. -/
def survey (describe : Column → Column) (tables : List (String × Table)) : Job :=
  let input := Input.microdata ⟨[⟨"region", .text [some "A", some "B"]⟩]⟩
  { Job.new ⟨"/"⟩ { input with columns := input.columns.map describe } ⟨"/jobs"⟩ "survey" with
    ownTables := tables }

/-- The files of a computer on which nothing has been set up. -/
def emptyFiles : FileSystem :=
  .empty ["jobs"]

/-- A survey that can be set up. -/
def plainSurvey : Job :=
  survey (·.setTotalCode "All") [("table-1", .new ["region"] .frequency)]

/-- A survey whose column cannot be recoded yet, though a table counts by it. -/
def flatSurvey : Job :=
  survey id [("table-1", .new ["region"] .frequency)]

/-- A survey that needs a file of every kind: its regions form a tree and have labels, and its table
changes a cell and keeps some of the regions. -/
def fullSurvey : Job :=
  let regions := TreeHierarchy.ofTree (.ofRows [["North", "A"], ["South", "B"]] "All") "@"
  let labels := CodeList.ofPairs [("A", "Northern end"), ("B", "Southern end")]
  survey (fun c => (c.setHierarchy (.tree regions)).setCodeList (some labels))
    [("table-1", { Table.new ["region"] .frequency with
      overrides := some ((CellOverrides.empty ",").add ["A"] (.status .safe))
      recodes := [("region", .tree (.ofCodes ["North", "South"]))] })]

end Job

end Disclosure
