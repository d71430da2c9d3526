import Disclosure.Proofs.Job.SetUp
import Disclosure.Proofs.Job.TableFiles

/-!
# Which tables get files of their own

What setting up fills in for tables is read off the job before and after: the paths that are there
now and were not before. This says nothing about how they came there, and it holds wherever setting
up stops.

The paths it fills in are those of the files that had no place, and none of them twice as long as
the tables have different names and recode a column once. Whether they are different paths is then a
matter of names: `Separated` says that no two of the files meet.
-/

namespace Disclosure

/-! ## Files without a place -/

namespace Table

/-- A recode file that has no place. -/
def openRecode (name : String) : String × Recode → List TableFile
  | (column, .tree recode) => if recode.path.isSome then [] else [.recode name column]
  | _ => []

/-- The files of a table that have no place. -/
def openFiles : String × Table → List TableFile
  | (name, t) =>
    (if t.outputPath.isSome then [] else [.output name]) ++
      (match t.overrides with
        | some overrides => if overrides.path.isSome then [] else [.overrides name]
        | none => []) ++
      t.recodes.flatMap (openRecode name)

/-- All files that a table can have. -/
def allFiles (t : String × Table) : List TableFile :=
  [.output t.1, .overrides t.1] ++ t.2.recodes.map fun r => .recode t.1 r.1

theorem pendingRecode_eq (paths : JobPaths) (name : String) (r : String × Recode) :
    pendingRecode paths name r = (openRecode name r).map (TableFile.path paths) := by
  obtain ⟨column, recode⟩ := r
  cases recode with
  | file path => rfl
  | level level => rfl
  | tree tree =>
    rw [pendingRecode, openRecode, Path.pending]
    split <;> rfl

/-- What is pending about a table are the places of its files without one. -/
theorem pending_eq (paths : JobPaths) (t : String × Table) :
    pending paths t = (openFiles t).map (TableFile.path paths) := by
  obtain ⟨name, t⟩ := t
  rw [pending, openFiles, List.map_append, List.map_append, List.map_flatMap]
  congr 1
  · congr 1
    · rw [Path.pending]
      split <;> rfl
    · rw [pendingOverrides]
      cases t.overrides with
      | none => rfl
      | some overrides =>
        dsimp only
        rw [Path.pending]
        split <;> rfl
  · exact List.flatMap_congr fun r _ => pendingRecode_eq paths name r

theorem openRecodes_sublist (name : String) : ∀ recodes : List (String × Recode),
    (recodes.flatMap (openRecode name)).Sublist (recodes.map fun r => .recode name r.1)
  | [] => .slnil
  | (column, recode) :: rest => by
    have hrest := openRecodes_sublist name rest
    rw [List.flatMap_cons, List.map_cons]
    cases recode with
    | file path => exact hrest.cons _
    | level level => exact hrest.cons _
    | tree tree =>
      rw [openRecode]
      split
      · exact hrest.cons _
      · exact hrest.cons_cons _

theorem openFiles_sublist (t : String × Table) : (openFiles t).Sublist (allFiles t) := by
  obtain ⟨name, t⟩ := t
  have houtput : (if t.outputPath.isSome then [] else [TableFile.output name]).Sublist
      [.output name] := by
    split
    · exact List.nil_sublist _
    · exact .refl _
  have hoverrides : (match t.overrides with
      | some overrides => if overrides.path.isSome then [] else [TableFile.overrides name]
      | none => []).Sublist [.overrides name] := by
    split
    · split
      · exact List.nil_sublist _
      · exact .refl _
    · exact List.nil_sublist _
  exact (houtput.append hoverrides).append (openRecodes_sublist name t.recodes)

theorem allFiles_nodup {t : String × Table} (h : (t.2.recodes.map (·.1)).Nodup) :
    (allFiles t).Nodup := by
  have hrecodes : (t.2.recodes.map fun r => TableFile.recode t.1 r.1).Nodup := by
    have hmap := h.map (f := TableFile.recode t.1) fun a b hab => by injection hab
    rwa [List.map_map] at hmap
  rw [allFiles]
  simpa using hrecodes

theorem table_of_mem_allFiles {t : String × Table} {a : TableFile} (h : a ∈ allFiles t) :
    a.table = t.1 := by
  rw [allFiles] at h
  simp only [List.cons_append, List.nil_append, List.mem_cons, List.mem_map] at h
  rcases h with rfl | rfl | ⟨r, _, rfl⟩ <;> rfl

end Table

namespace Job

/-- The files of all tables that have no place. -/
def openFiles (j : Job) : List TableFile :=
  j.tables.flatMap Table.openFiles

/-- **A job with different tables, each with different recodes, has different files.** -/
theorem openFiles_nodup {j : Job} (hnames : (j.tables.map (·.1)).Nodup)
    (hrecodes : ∀ t ∈ j.tables, (t.2.recodes.map (·.1)).Nodup) : j.openFiles.Nodup := by
  refine List.nodup_flatMap.mpr ⟨fun t ht => ?_, ?_⟩
  · exact (Table.allFiles_nodup (hrecodes t ht)).sublist (Table.openFiles_sublist t)
  · -- a file names its table, so two tables with a file in common have one name
    refine (List.pairwise_map.mp hnames).imp fun {s t} hne a hs ht => hne ?_
    rw [← Table.table_of_mem_allFiles ((Table.openFiles_sublist s).subset hs),
      Table.table_of_mem_allFiles ((Table.openFiles_sublist t).subset ht)]

end Job

/-! ## What was filled in -/

/-- The path that there is now and was not before. -/
def Path.filled (before after : Option Path) : List Path :=
  if before.isSome then [] else after.toList

theorem Path.filled_self (given : Option Path) : Path.filled given given = [] := by
  cases given <;> rfl

theorem Path.filled_usual (given : Option Path) (usual : Path) :
    Path.filled given (given <|> some usual) = Path.pending given usual := by
  cases given <;> rfl

namespace Table

/-- The path that the changes of a table were given. -/
def filledOverrides (before after : Table) : List Path :=
  match before.overrides, after.overrides with
  | some old, some new => Path.filled old.path new.path
  | _, _ => []

/-- The path that a recode was given. -/
def filledRecode : (String × Recode) × (String × Recode) → List Path
  | ((_, .tree old), (_, .tree new)) => Path.filled old.path new.path
  | _ => []

/-- The paths that a table was given. -/
def filled : (String × Table) × (String × Table) → List Path
  | ((_, before), (_, after)) =>
    Path.filled before.outputPath after.outputPath ++ filledOverrides before after ++
      (before.recodes.zip after.recodes).flatMap filledRecode

/-- The changes of a table with a place for their file. -/
def placeChanges (paths : JobPaths) (name : String) (overrides : CellOverrides) : CellOverrides :=
  { overrides with path := overrides.path <|> some (paths.apriori name) }

theorem placeOverrides_overrides (paths : JobPaths) (name : String) (t : Table) :
    (t.placeOverrides paths name).overrides = t.overrides.map (placeChanges paths name) := by
  rw [placeOverrides]
  cases ho : t.overrides with
  | none => exact ho
  | some overrides =>
    obtain ⟨changes, separator, ignoreError, expandTrivial, path⟩ := overrides
    cases path with
    | none => rfl
    | some path => exact ho

theorem placeChanges_twice (paths : JobPaths) (name : String) (overrides : CellOverrides) :
    placeChanges paths name (placeChanges paths name overrides) =
      placeChanges paths name overrides := by
  obtain ⟨changes, separator, ignoreError, expandTrivial, path⟩ := overrides
  cases path <;> rfl

theorem placeRecode_twice (paths : JobPaths) (name : String) (r : String × Recode) :
    placeRecode paths name (placeRecode paths name r) = placeRecode paths name r := by
  obtain ⟨column, recode⟩ := r
  cases recode with
  | file path => rfl
  | level level => rfl
  | tree tree =>
    obtain ⟨codes, path⟩ := tree
    cases path <;> rfl

theorem filledRecode_placeRecode (paths : JobPaths) (name : String) (r : String × Recode) :
    filledRecode (r, placeRecode paths name r) = pendingRecode paths name r := by
  obtain ⟨column, recode⟩ := r
  cases recode with
  | file path => rfl
  | level level => rfl
  | tree tree =>
    obtain ⟨codes, path⟩ := tree
    cases path <;> rfl

theorem filledRecode_self (r : String × Recode) : filledRecode (r, r) = [] := by
  obtain ⟨column, recode⟩ := r
  cases recode with
  | file path => rfl
  | level level => rfl
  | tree tree => exact Path.filled_self tree.path

/-- The table has some of its places filled in. -/
structure Partly (paths : JobPaths) (name : String) (t t' : Table) : Prop where
  /-- The place to be written to. -/
  output : t'.outputPath = t.outputPath ∨
    t'.outputPath = (t.outputPath <|> some (paths.tableOutput name))
  /-- The a priori file. -/
  overrides : t'.overrides = t.overrides ∨
    t'.overrides = t.overrides.map (placeChanges paths name)
  /-- The recode files. -/
  recodes : List.Forall₂ (fun r r' => r' = r ∨ r' = placeRecode paths name r) t.recodes t'.recodes

theorem Partly.refl (paths : JobPaths) (name : String) (t : Table) : Partly paths name t t :=
  ⟨.inl rfl, .inl rfl, List.forall₂_same.mpr fun _ _ => .inl rfl⟩

theorem filledRecodes_sublist {paths : JobPaths} {name : String} : ∀ {rs rs' : List (String × Recode)},
    List.Forall₂ (fun r r' => r' = r ∨ r' = placeRecode paths name r) rs rs' →
    ((rs.zip rs').flatMap filledRecode).Sublist (rs.flatMap (pendingRecode paths name))
  | [], _, .nil => .slnil
  | r :: rs, r' :: rs', .cons h hrest => by
    rw [List.zip_cons_cons, List.flatMap_cons, List.flatMap_cons]
    refine List.Sublist.append ?_ (filledRecodes_sublist hrest)
    rcases h with rfl | rfl
    · rw [filledRecode_self]
      exact List.nil_sublist _
    · rw [filledRecode_placeRecode]

/-- Some of the places filled in are some of the places that were pending. -/
theorem Partly.filled_sublist {paths : JobPaths} {name : String} {t t' : Table}
    (h : Partly paths name t t') :
    (filled ((name, t), (name, t'))).Sublist (pending paths (name, t)) := by
  refine List.Sublist.append (List.Sublist.append ?_ ?_) (filledRecodes_sublist h.recodes)
  · rcases h.output with ho | ho
    · rw [ho, Path.filled_self]
      exact List.nil_sublist _
    · rw [ho, Path.filled_usual]
  · rw [filledOverrides, pendingOverrides]
    cases hb : t.overrides with
    | none => exact List.nil_sublist _
    | some overrides =>
      rcases h.overrides with ho | ho
      · rw [ho, hb]
        dsimp only
        rw [Path.filled_self]
        exact List.nil_sublist _
      · rw [ho, hb]
        dsimp only [Option.map_some, placeChanges]
        rw [Path.filled_usual]

theorem zip_map_flatMap {α β : Type} (f : α → α) (g : α × α → List β) : ∀ xs : List α,
    (xs.zip (xs.map f)).flatMap g = xs.flatMap fun x => g (x, f x)
  | [] => rfl
  | x :: xs => by
    rw [List.map_cons, List.zip_cons_cons, List.flatMap_cons, List.flatMap_cons,
      zip_map_flatMap f g xs]

/-- All places filled in are all places that were pending. -/
theorem filled_placed (paths : JobPaths) (t : String × Table) :
    filled (t, placed paths t) = pending paths t := by
  obtain ⟨name, t⟩ := t
  have houtput : (placed paths (name, t)).2.outputPath =
      (t.outputPath <|> some (paths.tableOutput name)) :=
    placeOverrides_outputPath paths name (t.placeOutput paths name)
  have hoverrides : (placed paths (name, t)).2.overrides =
      t.overrides.map (placeChanges paths name) :=
    placeOverrides_overrides paths name (t.placeOutput paths name)
  have hrecodes : (placed paths (name, t)).2.recodes = t.recodes.map (placeRecode paths name) :=
    congrArg (List.map (placeRecode paths name))
      (placeOverrides_recodes paths name (t.placeOutput paths name))
  show Path.filled t.outputPath (placed paths (name, t)).2.outputPath ++
    filledOverrides t (placed paths (name, t)).2 ++
      (t.recodes.zip (placed paths (name, t)).2.recodes).flatMap filledRecode = _
  rw [houtput, hrecodes, zip_map_flatMap,
    List.flatMap_congr fun r _ => filledRecode_placeRecode paths name r, Path.filled_usual, pending,
    filledOverrides, hoverrides, pendingOverrides]
  cases t.overrides with
  | none => rfl
  | some overrides =>
    dsimp only [Option.map_some, placeChanges]
    rw [Path.filled_usual]

/-! ## Wherever setting up stops -/

theorem setUpOverrides_value (paths : JobPaths) (name : String) (t : Table) (fs : FileSystem) :
    (Job.setUpOverrides paths name t fs).value = t ∨
      (Job.setUpOverrides paths name t fs).value = t.placeOverrides paths name := by
  cases hf : (Job.setUpOverrides paths name t fs).fault with
  | none =>
    exact .inr ((settles_overrides paths name t).done (Step.done_of_fault_none hf))
  | some fault =>
    left
    rw [Job.setUpOverrides] at hf ⊢
    cases ho : t.overrides with
    | none => rfl
    | some overrides =>
      rw [ho] at hf
      dsimp only at hf ⊢
      by_cases hp : overrides.path.isSome = true
      · rw [if_pos hp]
        rfl
      · rw [if_neg hp] at hf
        rw [if_neg hp, Step.map_ofSaving_of_fault hf, ← ho]

theorem setUpRecode_value (paths : JobPaths) (name : String) (lengthOf : String → Nat)
    (r : String × Recode) (fs : FileSystem) :
    (Job.setUpRecode paths name lengthOf r fs).value = r ∨
      (Job.setUpRecode paths name lengthOf r fs).value = placeRecode paths name r := by
  cases hf : (Job.setUpRecode paths name lengthOf r fs).fault with
  | none =>
    exact .inr ((settles_recode paths name lengthOf r).done (Step.done_of_fault_none hf))
  | some fault =>
    left
    obtain ⟨column, recode⟩ := r
    cases recode with
    | file path => rfl
    | level level => rfl
    | tree tree =>
      rw [Job.setUpRecode] at hf ⊢
      dsimp only at hf ⊢
      by_cases hp : tree.path.isSome = true
      · rw [if_pos hp]
        rfl
      · rw [if_neg hp] at hf
        rw [if_neg hp]
        exact Step.map_ofSaving_of_fault hf

/-- **Wherever the work on a table stops, some of its places are filled in.** -/
theorem setUpTable_partly {paths : JobPaths} {name : String} {lengthOf : String → Nat}
    {t a : Table} (h : Partly paths name t a) (fs : FileSystem) :
    Partly paths name t (Job.setUpTable paths lengthOf (name, a) fs).value.2 := by
  refine Step.inOrder_preserves (P := fun a _ => Partly paths name t a) ?_ a fs h
  intro work hwork a fs ha
  simp only [List.mem_cons, List.not_mem_nil, or_false] at hwork
  rcases hwork with rfl | rfl | rfl
  · refine ⟨.inr ?_, ha.overrides, ha.recodes⟩
    show (a.outputPath <|> some (paths.tableOutput name)) = _
    -- a place that was filled in already is kept
    rcases ha.output with ho | ho <;> rw [ho]
    cases t.outputPath <;> rfl
  · rcases setUpOverrides_value paths name a fs with hv | hv
    · rw [hv]
      exact ha
    · rw [hv]
      refine ⟨?_, .inr ?_, ?_⟩
      · rw [placeOverrides_outputPath]
        exact ha.output
      · rw [placeOverrides_overrides]
        rcases ha.overrides with ho | ho <;> rw [ho]
        rw [Option.map_map]
        congr 1
        funext overrides
        exact placeChanges_twice paths name overrides
      · rw [placeOverrides_recodes]
        exact ha.recodes
  · refine ⟨ha.output, ha.overrides, ?_⟩
    refine Step.each_forall₂ (fun r r' fs hr => ?_) fs ha.recodes
    rcases setUpRecode_value paths name lengthOf r' fs with hv | hv
    · rw [hv]
      exact hr
    · rw [hv]
      rcases hr with rfl | rfl
      · exact .inr rfl
      · exact .inr (placeRecode_twice paths name r)

end Table

namespace Job

/-- The paths that tables have in one job and did not have in the other. -/
def filled (before after : Job) : List Path :=
  (before.tables.zip after.tables).flatMap Table.filled

/-- The tables of the job, with some places filled in. -/
def TablesPartly (paths : JobPaths) (before after : List (String × Table)) : Prop :=
  List.Forall₂ (fun s t => t.1 = s.1 ∧ Table.Partly paths s.1 s.2 t.2) before after

theorem TablesPartly.names {paths : JobPaths} : ∀ {before after : List (String × Table)},
    TablesPartly paths before after → after.map (·.1) = before.map (·.1)
  | [], _, .nil => rfl
  | s :: before, t :: after, .cons h hrest => by
    rw [List.map_cons, List.map_cons, h.1, TablesPartly.names hrest]

theorem TablesPartly.filled_sublist {paths : JobPaths} :
    ∀ {before after : List (String × Table)}, TablesPartly paths before after →
      ((before.zip after).flatMap Table.filled).Sublist (before.flatMap (Table.pending paths))
  | [], _, .nil => .slnil
  | s :: before, t :: after, .cons h hrest => by
    obtain ⟨name, s⟩ := s
    obtain ⟨name', t⟩ := t
    rw [List.zip_cons_cons, List.flatMap_cons, List.flatMap_cons]
    exact h.2.filled_sublist.append (TablesPartly.filled_sublist hrest)

/-- The work leaves tables and places alone. -/
def LeavesTables (work : Work Job) : Prop :=
  ∀ a fs, (work a fs).value.paths = a.paths ∧ (work a fs).value.tables = a.tables

theorem leavesTables_columns (work : JobPaths → Work Column) : LeavesTables (forColumns work) :=
  fun _ _ => ⟨rfl, rfl⟩

theorem leavesTables_data : LeavesTables setUpData := fun a fs => by
  rw [setUpData]
  cases a.input.dataPath with
  | some path => exact ⟨rfl, rfl⟩
  | none =>
    dsimp only
    rw [Input.saveData]
    split <;> exact ⟨rfl, rfl⟩

theorem leavesTables_metadata : LeavesTables setUpMetadata := fun a fs => by
  rw [setUpMetadata]
  cases a.input.metadataPath with
  | some path => exact ⟨rfl, rfl⟩
  | none =>
    dsimp only
    rw [Input.saveMetadata]
    split
    · exact ⟨rfl, rfl⟩
    · split <;> exact ⟨rfl, rfl⟩

/-- The work on tables fills some of their places in, wherever it stops. -/
theorem setUpTables_partly {paths : JobPaths} {tables : List (String × Table)} {a : Job}
    (hpaths : a.paths = paths) (h : TablesPartly paths tables a.tables) (fs : FileSystem) :
    (setUpTables a fs).value.paths = paths ∧
      TablesPartly paths tables (setUpTables a fs).value.tables := by
  have hall : TablesPartly paths tables
      (Step.each (setUpTable a.paths a.columnLength) a.tables fs).value := by
    refine Step.each_forall₂ (fun s t fs ht => ?_) fs h
    obtain ⟨name, t⟩ := t
    obtain ⟨hname, hpartly⟩ := ht
    dsimp only at hname
    subst hname
    rw [hpaths]
    exact ⟨rfl, Table.setUpTable_partly hpartly fs⟩
  have hnames := hall.names.trans h.names.symm
  refine ⟨(withTables_paths _ _).trans hpaths, ?_⟩
  show TablesPartly paths tables (a.withTables _).tables
  rw [tables_withTables hnames]
  exact hall

/-- **Wherever setting up stops, some of the places of tables are filled in**, and nothing else has
happened to the tables. -/
theorem setUp_partly (j : Job) (fs : FileSystem) :
    TablesPartly j.paths j.tables (j.setUp fs).value.tables := by
  have hstart : j.paths = j.paths ∧ TablesPartly j.paths j.tables j.tables :=
    ⟨rfl, List.forall₂_same.mpr fun t _ => ⟨rfl, .refl j.paths t.1 t.2⟩⟩
  have hleaves : ∀ {work : Work Job}, LeavesTables work → ∀ a fs,
      a.paths = j.paths ∧ TablesPartly j.paths j.tables a.tables →
      (work a fs).value.paths = j.paths ∧
        TablesPartly j.paths j.tables (work a fs).value.tables := fun hwork a fs ha => by
    rw [(hwork a fs).1, (hwork a fs).2]
    exact ha
  refine (setUp_preserves (P := fun a => a.paths = j.paths ∧ TablesPartly j.paths j.tables a.tables)
    (fun work hwork a files ha => ?_) hstart fs).2
  simp only [writings, List.mem_cons, List.not_mem_nil, or_false] at hwork
  -- of the five pieces that write only the last works on tables
  rcases hwork with rfl | rfl | rfl | rfl | rfl
  · exact hleaves leavesTables_data a files ha
  · exact hleaves (leavesTables_columns _) a files ha
  · exact hleaves (leavesTables_columns _) a files ha
  · exact hleaves leavesTables_metadata a files ha
  · exact setUpTables_partly ha.1 ha.2 files

/-! ## Which files are apart -/

theorem pending_tables_eq (j : Job) :
    j.tables.flatMap (Table.pending j.paths) = j.openFiles.map (TableFile.path j.paths) := by
  rw [openFiles, List.map_flatMap]
  exact List.flatMap_congr fun t _ => Table.pending_eq j.paths t

/-- Setting up that comes to its end has filled in the places of all files that had none. -/
theorem filled_setUp {j : Job} {fs : FileSystem} (h : (j.setUp fs).fault = none) :
    filled j (j.setUp fs).value = j.openFiles.map (TableFile.path j.paths) := by
  obtain ⟨_, _, _, _, hvalue, _⟩ := setUp_inversion h
  rw [filled, hvalue, placed_tables, Table.zip_map_flatMap, ← pending_tables_eq]
  exact List.flatMap_congr fun t _ => Table.filled_placed j.paths t

/-- Setting up that stops before has filled in some of them. -/
theorem filled_sublist (j : Job) (fs : FileSystem) :
    (filled j (j.setUp fs).value).Sublist (j.openFiles.map (TableFile.path j.paths)) := by
  rw [← pending_tables_eq]
  exact (j.setUp_partly fs).filled_sublist

/-- No two files that have no place meet. -/
def Separated (j : Job) : Prop :=
  ∀ a ∈ j.openFiles, ∀ b ∈ j.openFiles, a.Meets b → a = b

instance (j : Job) : Decidable j.Separated :=
  inferInstanceAs (Decidable (∀ a ∈ j.openFiles, ∀ b ∈ j.openFiles, a.Meets b → a = b))

theorem openFiles_straight {j : Job}
    (h : ∀ t ∈ j.tables, ∀ r ∈ t.2.recodes, ".." ∉ (Path.mk r.1).names) :
    ∀ a ∈ j.openFiles, a.Straight := by
  intro a ha
  obtain ⟨t, ht, ha⟩ := List.mem_flatMap.mp ha
  have hall := (Table.openFiles_sublist t).subset ha
  rw [Table.allFiles] at hall
  simp only [List.cons_append, List.nil_append, List.mem_cons, List.mem_map] at hall
  rcases hall with rfl | rfl | ⟨r, hr, rfl⟩
  · exact trivial
  · exact trivial
  · exact h t ht r hr

/-- **Tables get files of their own exactly if no two files without a place meet.** Tables have
different names here and recode each column once. Setting up that comes to its end fills in
different paths exactly for such jobs; where it stops, it has filled in different paths for them as
well; and if no column leads up, the paths lead to different files, so that none is written over. -/
theorem filled_apart_iff {j : Job} (hnames : (j.tables.map (·.1)).Nodup)
    (hrecodes : ∀ t ∈ j.tables, (t.2.recodes.map (·.1)).Nodup) :
    (∀ fs, (j.setUp fs).fault = none →
      ((filled j (j.setUp fs).value).Pairwise (fun p q => ¬ p.SameAs q) ↔ j.Separated)) ∧
    (j.Separated → ∀ fs, (filled j (j.setUp fs).value).Pairwise fun p q => ¬ p.SameAs q) ∧
    (j.Separated → (∀ t ∈ j.tables, ∀ r ∈ t.2.recodes, ".." ∉ (Path.mk r.1).names) →
      ∀ fs files : FileSystem, (filled j (j.setUp fs).value).Pairwise fun p q =>
        files.target p ≠ files.target q) := by
  have hnodup := openFiles_nodup hnames hrecodes
  -- whether the places of all files without one are different is a matter of names alone
  have hall : (j.openFiles.map (TableFile.path j.paths)).Pairwise (fun p q => ¬ p.SameAs q) ↔
      j.Separated := by
    rw [List.pairwise_map, Separated, ← TableFile.pairwise_meets_iff hnodup]
    have hmeets : ∀ a b : TableFile,
        ¬ a.Meets b ↔ ¬ (a.path j.paths).SameAs (b.path j.paths) := fun a b =>
      not_congr (TableFile.meets_iff_sameAs j.paths a b)
    simp only [hmeets]
  refine ⟨fun fs hdone => ?_, fun hsep fs => ?_, fun hsep hup fs files => ?_⟩
  · rw [filled_setUp hdone]
    exact hall
  · exact (hall.mpr hsep).sublist (j.filled_sublist fs)
  · refine List.Pairwise.sublist (j.filled_sublist fs) (List.pairwise_map.mpr ?_)
    have hmeets := (TableFile.pairwise_meets_iff hnodup).mpr hsep
    have hstraight := openFiles_straight hup
    refine hmeets.imp_of_mem fun {a b} ha hb hne htarget => hne ?_
    exact (TableFile.meets_iff_target j.paths files (hstraight a ha) (hstraight b hb)).mpr htarget

/-- A table of the survey in which a cell is changed. -/
def changedTable (code : String) (status : OverrideStatus) : Table :=
  { Table.new ["region"] .frequency with
    overrides := some ⟨[⟨[code], .status status⟩], ",", false, false, none⟩ }

/-- A survey with two tables under the given names, each with a change of its own. -/
def twoTables (first second : String) : Job :=
  survey (·.setTotalCode "All")
    [(first, changedTable "A" .safe), (second, changedTable "B" .sensitive)]

/-- Tables whose names have different slugs get files of their own. -/
theorem numbered_tables_apart :
    (filled (twoTables "table-1" "table-2")
      ((twoTables "table-1" "table-2").setUp emptyFiles).value).Pairwise
        fun p q => ¬ p.SameAs q := by
  have hiff := filled_apart_iff (j := twoTables "table-1" "table-2") (by decide +kernel)
    (by decide +kernel)
  exact hiff.2.1 (by decide +kernel) emptyFiles

/-- **Two tables of different names can be given one path**: `Table 1` and `table-1` have one slug,
so they share the file they are written to, and the changes of the second have replaced those of the
first. -/
theorem different_tables_share_path :
    ((twoTables "Table 1" "table-1").tables.map (·.1)).Nodup ∧
      ((twoTables "Table 1" "table-1").setUp emptyFiles).fault = none ∧
      filled (twoTables "Table 1" "table-1")
        ((twoTables "Table 1" "table-1").setUp emptyFiles).value =
          [⟨"/jobs/output/survey_table-1.csv"⟩, ⟨"/jobs/input/survey_table-1_apriori.hst"⟩,
            ⟨"/jobs/output/survey_table-1.csv"⟩, ⟨"/jobs/input/survey_table-1_apriori.hst"⟩] ∧
      (((twoTables "Table 1" "table-1").setUp emptyFiles).files.read
        ⟨"/jobs/input/survey_table-1_apriori.hst"⟩).toOption = some "B,u\n".toUTF8 := by
  decide +kernel

end Job

end Disclosure
