import Disclosure.Proofs.Job.Untouched
import Disclosure.Proofs.Metadata

/-!
# What the files of a job say

Four files speak of one column: the tree, the code list, the metadata that names both, and through
the metadata the batch file. They are written one after another, and each of them goes by the length
of the codes as the column has it just then. Writing a file makes a column forget its length, so what
the files agree on has to be told apart from what is remembered: without its places the column is
what it was, and so is the length that follows from it.

No file is written twice. Files of different kinds have different endings, and the trees of different
columns are apart because the names of columns are, as long as no name has a slash in it. So every
file can still be read at the end as it was written.
-/

namespace Disclosure

/-! ## Columns with their places -/

/-- The column has been given no files. -/
structure Column.NoFiles (c : Column) : Prop where
  /-- A tree has no file. -/
  hierarchy : ∀ tree, c.hierarchy = .tree tree → tree.path = none
  /-- A code list has no file. -/
  codeList : ∀ codeList, c.codeList = some codeList → codeList.path = none

namespace Column

variable {paths : JobPaths} {c : Column}

theorem placeHierarchy_bare (paths : JobPaths) (c : Column) :
    (c.placeHierarchy paths).bare = c.bare := by
  rw [placeHierarchy]
  split
  · rename_i tree htree
    split
    · rfl
    · rename_i hgiven
      have hopen : tree.path = none := by simpa using hgiven
      exact (fills_tree htree (Place.filledIn_usual hopen (paths.hierarchy c.name))).bare
  · rfl

theorem placeCodeList_bare (paths : JobPaths) (c : Column) :
    (c.placeCodeList paths).bare = c.bare := by
  rw [placeCodeList]
  split
  · rfl
  · rename_i codeList hlist
    split
    · rfl
    · rename_i hgiven
      have hopen : codeList.path = none := by simpa using hgiven
      exact (fills_list hlist (Place.filledIn_usual hopen (paths.codeList c.name))).bare

theorem Measured.placeHierarchy (h : c.Measured) (paths : JobPaths) :
    (c.placeHierarchy paths).Measured := by
  rw [Column.placeHierarchy]
  split
  · split
    · exact h
    · exact measured_forgetLength _
  · exact h

theorem Measured.placeCodeList (h : c.Measured) (paths : JobPaths) :
    (c.placeCodeList paths).Measured := by
  rw [Column.placeCodeList]
  split
  · exact h
  · split
    · exact h
    · exact measured_forgetLength _

/-- Writing the tree leaves the length of codes as it is. -/
theorem length_placeHierarchy (h : c.Measured) (paths : JobPaths) :
    (c.placeHierarchy paths).length = c.length :=
  length_of_bare (placeHierarchy_bare paths c) h (h.placeHierarchy paths)

theorem length_placed (h : c.Measured) (paths : JobPaths) : (c.placed paths).length = c.length := by
  have hbetween := h.placeHierarchy paths
  rw [placed, length_of_bare (placeCodeList_bare paths _) hbetween (hbetween.placeCodeList paths),
    length_placeHierarchy h]

/-- The tree of a column with its places. -/
theorem placed_hierarchy (hopen : c.NoFiles) {tree : TreeHierarchy}
    (h : (c.placed paths).hierarchy = .tree tree) :
    ∃ given, c.hierarchy = .tree given ∧
      tree = { given with path := some (paths.hierarchy c.name) } := by
  rw [placed, placeCodeList_hierarchy, placeHierarchy] at h
  split at h
  · rename_i given hgiven
    rw [if_neg (by rw [hopen.hierarchy given hgiven]; simp)] at h
    injection h with h
    exact ⟨given, hgiven, h.symm⟩
  · rename_i hother
    exact absurd h (hother tree)

/-- The code list of a column with its places. -/
theorem placed_codeList (hopen : c.NoFiles) {codeList : CodeList}
    (h : (c.placed paths).codeList = some codeList) :
    ∃ given, c.codeList = some given ∧
      codeList = { given with path := some (paths.codeList c.name) } := by
  have hsame := placeHierarchy_codeList paths c
  rw [placed, placeCodeList] at h
  split at h
  · rename_i hnone
    exact absurd (hnone.symm.trans h) (by simp)
  · rename_i given hgiven
    have hlist : c.codeList = some given := hsame.symm.trans hgiven
    rw [if_neg (by rw [hopen.codeList given hlist]; simp)] at h
    have hedited : (c.placeHierarchy paths).codeList.map (fun _ =>
        { given with path := some (paths.codeList (c.placeHierarchy paths).name) }) =
          some codeList := h
    rw [hgiven, Option.map_some, placeHierarchy_name] at hedited
    exact ⟨given, hlist, (Option.some.inj hedited).symm⟩

/-! ## Writing the files of a column -/

theorem setUpHierarchy_writes {tree : TreeHierarchy} (htree : c.hierarchy = .tree tree)
    (hopen : tree.path = none) {fs fs' : FileSystem} {d : Column}
    (h : (Job.setUpHierarchy paths c fs).Done d fs') :
    fs'.read (paths.hierarchy c.name) = .ok (tree.toText c.length).toUTF8 := by
  simp only [Job.setUpHierarchy, htree, hopen, Option.isSome_none, Bool.false_eq_true,
    if_false] at h
  exact (tree.saves fs _ _).read h

theorem setUpCodeList_writes {codeList : CodeList} (hlist : c.codeList = some codeList)
    (hopen : codeList.path = none) {fs fs' : FileSystem} {d : Column}
    (h : (Job.setUpCodeList paths c fs).Done d fs') :
    fs'.read (paths.codeList c.name) = .ok (codeList.toText c.length).toUTF8 := by
  simp only [Job.setUpCodeList, hlist, hopen, Option.isSome_none, Bool.false_eq_true,
    if_false] at h
  exact (codeList.saves fs _ _).read h

/-- Names without a slash that differ give files that differ. -/
theorem inputFile_apart {name other ending : String} (hname : '/' ∉ name.toList)
    (hother : '/' ∉ other.toList) (hne : other ≠ name) (hending : Path.IsEnding ending.toList)
    (paths : JobPaths) (fs : FileSystem) :
    fs.target (paths.inputFile (other ++ ending)) ≠ fs.target (paths.inputFile (name ++ ending)) := by
  have hslash : ∀ {s : String}, '/' ∉ s.toList → '/' ∉ (s ++ ending).toList := by
    intro s hs
    rw [String.toList_append]
    exact fun h => (List.mem_append.mp h).elim hs hending.1
  have hstraight : ∀ {s : String}, '/' ∉ s.toList → Path.Straight (s ++ ending).toList := by
    intro s hs piece hpiece
    rw [Text.piecesAt_of_not_mem (hslash hs), List.mem_singleton] at hpiece
    rw [hpiece, String.toList_append]
    exact (hending.ne_dots s.toList).2.2
  intro htarget
  have hsame := (Path.join_target_iff paths.input paths.job (hstraight hother)
    (hstraight hname)).mp htarget
  rw [Path.continued_of_not_mem (hslash hother), Path.continued_of_not_mem (hslash hname),
    List.singleton_inj, String.toList_append, String.toList_append,
    List.append_cancel_right_eq] at hsame
  exact hne (String.toList_inj.mp hsame)

end Column

open Text

/-- What the lines about a column in the metadata and the files of the column say is what the column
says. The first line of all begins with the name, so that it is left out where keywords are looked
for. -/
structure Column.Agrees (c : Column) (kind : InputKind) (files : FileSystem) (own : List String) :
    Prop where
  /-- A tree is in its file, as wide as the codes of the column. The lines name this file and the
  indent that it was written with. -/
  hierarchy : ∀ tree, c.hierarchy = .tree tree → ∃ path, tree.path = some path ∧
    files.read path = .ok (tree.tree.toIndented tree.indent c.length).toUTF8 ∧
    argumentsOf "\t<HIERCODELIST> " own.tail = [path.text] ∧
    argumentsOf "\t<HIERLEADSTRING> " own.tail = [tree.indent]
  /-- A code list is in its file, just as wide. The lines name this file. -/
  codeList : ∀ codeList, c.codeList = some codeList → ∃ path, codeList.path = some path ∧
    files.read path = .ok (codeList.toText c.length).toUTF8 ∧
    argumentsOf "\t<CODELIST> " own.tail = [path.text]
  /-- The first line gives this width, if the columns of the data file go by width. -/
  width : kind = .microdata → own.head? = some (" ".intercalate (c.name :: toString c.length ::
    if c.missing.isEmpty then [] else [" ".intercalate c.missing]))

/-- No other column has its tree written to the place of the tree of this one. -/
def Job.TreeApart (j : Job) (name : String) : Prop :=
  ∀ d ∈ j.input.columns, d.name ≠ name → ∀ p ∈ d.pendingHierarchy j.paths, ∀ fs : FileSystem,
    fs.target p ≠ fs.target (j.paths.hierarchy name)

/-- Names without a slash keep trees apart. -/
theorem Job.treeApart_of_slash {j : Job} (hslash : ∀ c ∈ j.input.columns, '/' ∉ c.name.toList)
    {c : Column} (hc : c ∈ j.input.columns) : j.TreeApart c.name := by
  intro d hd hname p hp fs
  rw [Column.pendingHierarchy] at hp
  split at hp
  · rw [(Path.of_mem_pending hp).2]
    exact Column.inputFile_apart (hslash c hc) (hslash d hd) hname (by decide) j.paths fs
  · exact absurd hp (by simp)

/-! ## Files that come one after another -/

theorem Input.columnLines_table (roles : TableRoles) (table : Table) : ∀ columns : List Column,
    columnLines (.tableData { roles with table }) columns = columnLines (.tableData roles) columns
  | [] => rfl
  | c :: rest => by
    rw [columnLines, columnLines, columnLines_table roles table rest]
    rfl

namespace Job

/-- The metadata file does not tell about tables. -/
theorem metadataText_withTables (j : Job) (ts : List (String × Table)) :
    (j.withTables ts).input.metadataText = j.input.metadataText := by
  unfold withTables
  split
  · split
    · rename_i roles _ table _ hroles
      rw [Input.metadataText, Input.metadataText, hroles]
      dsimp only
      rw [Input.columnLines_table]
      rfl
    · rfl
  · rfl

theorem placed_metadataPath (j : Job) : j.placed.input.metadataPath =
    some (j.input.metadataPath.getD (j.paths.metadata j.input.kind.name)) :=
  (withTables_input _ _).2.2.2

theorem placed_metadataText (j : Job) : ∃ text, j.placed.input.metadataText = .ok text :=
  Input.metadataText_ok j.placed_columns_pending

/-- The piece that writes the metadata file: it says what the job has it say. -/
theorem setUpMetadata_writes {j k : Job} {fs fs' : FileSystem}
    (h : (setUpMetadata j fs).Done k fs') (hnone : j.input.metadataPath = none) :
    ∃ text, j.input.metadataText = .ok text ∧
      fs'.read (j.paths.metadata j.input.kind.name) = .ok text.toUTF8 := by
  simp only [setUpMetadata, hnone] at h
  -- it came to its end, so the text was there
  cases htext : j.input.metadataText with
  | error fault =>
    rw [Input.saveMetadata, htext] at h
    exact absurd h.fault (by simp [Step.ofSaving, Step.failed, Step.map])
  | ok text => exact ⟨text, rfl, (Input.saves_metadata htext fs _).read h⟩

/-! The pieces that come after one that writes a file write files with other endings. -/

theorem codeLists_writeOnly {j k : Job} {fs fs' : FileSystem}
    (h : (forColumns setUpCodeList j fs).Done k fs') : fs.WritesOnly [".cdl"] fs' := by
  refine (settles_columns Column.settles_codeList j).writesOnly (fun p hp => ?_) h
  obtain ⟨c, _, hc⟩ := List.mem_flatMap.mp hp
  exact ⟨".cdl", by simp, Column.pendingCodeList_endsIn hc⟩

theorem metadata_writesOnly {j k : Job} {fs fs' : FileSystem} {text : String}
    (htext : j.input.metadataText = .ok text) (h : (setUpMetadata j fs).Done k fs') :
    fs.WritesOnly [".rda"] fs' := by
  refine (settles_metadata htext).writesOnly (fun p hp => ⟨".rda", by simp, ?_⟩) h
  rw [(Path.of_mem_pending hp).2]
  exact j.paths.metadata_endsIn _

theorem tables_writeOnly {j k : Job} {fs fs' : FileSystem} (h : (setUpTables j fs).Done k fs') :
    fs.WritesOnly [".csv", ".hst", ".grc"] fs' := by
  refine (settles_tables j).writesOnly (fun p hp => ?_) h
  obtain ⟨t, _, ht⟩ := List.mem_flatMap.mp hp
  exact Table.pending_endsIn ht

theorem batch_writesOnly {paths : JobPaths} {fs fs' : FileSystem} {content : ByteArray}
    (h : fs.write paths.batch content = .ok fs') : fs.WritesOnly [".arb"] fs' := by
  refine ⟨_, FileSystem.keeps_write h, fun p hp => ⟨".arb", by simp, ?_⟩⟩
  rw [List.mem_singleton.mp hp]
  exact paths.batch_endsIn

section

variable {j : Job} {fs made written : FileSystem}

/-- A metadata file that setting up has written says what the job, with every place filled in, has
it say. -/
theorem Written.metadata (h : Written j fs made written) (hnone : j.input.metadataPath = none) :
    ∃ text, j.placed.input.metadataText = .ok text ∧
      written.read (j.paths.metadata j.input.kind.name) = .ok text.toUTF8 := by
  obtain ⟨_, _, _, _, _, _, _, hmetadata, htables⟩ := h.pieces
  obtain ⟨text, htext, hread⟩ := setUpMetadata_writes hmetadata hnone
  refine ⟨text, ?_, ?_⟩
  · rw [placed, placeTables, metadataText_withTables]
    exact htext
  · exact (tables_writeOnly htables).read (by decide) (j.paths.metadata_endsIn _) (by decide) hread

/-- The tree of a column that had no file is written as wide as the codes of the column are, if no
other column has its tree written to the same place. -/
theorem Written.hierarchy_of_apart (h : Written j fs made written)
    (hnames : (j.input.columns.map (·.name)).Nodup) {c : Column} (hc : c ∈ j.input.columns)
    (hapart : j.TreeApart c.name) {tree : TreeHierarchy} (htree : c.hierarchy = .tree tree)
    (hopen : tree.path = none) :
    written.read (j.paths.hierarchy c.name) = .ok (tree.toText c.length).toUTF8 := by
  obtain ⟨_, fs₂, _, _, _, hhierarchies, hlists, hmetadata, htables⟩ := h.pieces
  obtain ⟨text, htext⟩ := Input.metadataText_ok j.placeData.placeColumns_pending
  have hread : fs₂.read (j.paths.hierarchy c.name) = .ok (tree.toText c.length).toUTF8 := by
    obtain ⟨_, hdone, _⟩ := Step.of_map_done hhierarchies
    refine Settles.read_of_each (Column.setUpHierarchy_writes htree hopen)
      (fun d _ => Column.settles_hierarchy j.paths d) hc (fun d hd hne fs p hp => ?_) hdone
    -- another column has another name
    have hname : d.name ≠ c.name := fun he => hne (List.inj_on_of_nodup_map hnames hd hc he)
    exact hapart d hd hname p hp fs
  have hlater := (codeLists_writeOnly hlists).trans
    ((metadata_writesOnly htext hmetadata).trans (tables_writeOnly htables))
  exact hlater.read (by decide) (j.paths.hierarchy_endsIn c.name) (by decide) hread

theorem Written.hierarchy (h : Written j fs made written)
    (hnames : (j.input.columns.map (·.name)).Nodup)
    (hslash : ∀ c ∈ j.input.columns, '/' ∉ c.name.toList) {c : Column} (hc : c ∈ j.input.columns)
    {tree : TreeHierarchy} (htree : c.hierarchy = .tree tree) (hopen : tree.path = none) :
    written.read (j.paths.hierarchy c.name) = .ok (tree.toText c.length).toUTF8 :=
  h.hierarchy_of_apart hnames hc (treeApart_of_slash hslash hc) htree hopen

/-- The code list of a column that had no file is written as wide as well: writing the tree has not
changed the length of codes. -/
theorem Written.codeList (h : Written j fs made written)
    (hnames : (j.input.columns.map (·.name)).Nodup)
    (hslash : ∀ c ∈ j.input.columns, '/' ∉ c.name.toList) {c : Column} (hc : c ∈ j.input.columns)
    (hmeasured : c.Measured) {codeList : CodeList} (hlist : c.codeList = some codeList)
    (hopen : codeList.path = none) :
    written.read (j.paths.codeList c.name) = .ok (codeList.toText c.length).toUTF8 := by
  obtain ⟨_, _, fs₃, _, _, _, hlists, hmetadata, htables⟩ := h.pieces
  obtain ⟨text, htext⟩ := Input.metadataText_ok j.placeData.placeColumns_pending
  have hread : fs₃.read (j.paths.codeList c.name) = .ok (codeList.toText c.length).toUTF8 := by
    obtain ⟨_, hdone, _⟩ := Step.of_map_done hlists
    have hmem : c.placeHierarchy j.paths ∈ j.input.columns.map (Column.placeHierarchy j.paths) :=
      List.mem_map_of_mem hc
    have hlist' : (c.placeHierarchy j.paths).codeList = some codeList :=
      (Column.placeHierarchy_codeList j.paths c).trans hlist
    rw [← Column.placeHierarchy_name j.paths c, ← Column.length_placeHierarchy hmeasured j.paths]
    refine Settles.read_of_each (Column.setUpCodeList_writes hlist' hopen)
      (fun d _ => Column.settles_codeList j.paths d) hmem (fun d hd hne fs p hp => ?_) hdone
    obtain ⟨e, he, rfl⟩ := List.mem_map.mp hd
    have hname : e.name ≠ c.name := fun hsame =>
      hne (congrArg _ (List.inj_on_of_nodup_map hnames he hc hsame))
    rw [Column.pendingCodeList] at hp
    split at hp
    · rw [(Path.of_mem_pending hp).2, Column.placeHierarchy_name, Column.placeHierarchy_name]
      exact Column.inputFile_apart (hslash c hc) (hslash e he) hname (by decide) j.paths fs
    · exact absurd hp (by simp)
  have hlater := (metadata_writesOnly htext hmetadata).trans (tables_writeOnly htables)
  exact hlater.read (by decide) (j.paths.codeList_endsIn c.name) (by decide) hread

theorem placed_columns (j : Job) :
    j.placed.input.columns = j.input.columns.map (Column.placed j.paths) := by
  rw [placed, placeTables, (withTables_input _ _).1]
  exact List.map_map

/-- **The files of a job that was set up agree with each other and with the job.** The metadata and
the columns had no files before, no name has a slash in it, and the input is as every input that can
be made is (`Input.Reachable.sound`). Then the batch file says what the commands of the job are, the
metadata file says what there is to say about the job, and of every column the lines in it agree with
the column and with its files. -/
theorem setUp_files_agree (hinput : j.input.Sound)
    (hslash : ∀ c ∈ j.input.columns, '/' ∉ c.name.toList) (hmetadata : j.input.metadataPath = none)
    (hcolumns : ∀ c ∈ j.input.columns, c.NoFiles) (h : (j.setUp fs).fault = none) :
    let s := j.setUp fs
    (∃ commands, s.value.commands = .ok commands ∧
      s.files.read s.value.paths.batch = .ok (renderBatch commands).toUTF8) ∧
    ∃ path lines, s.value.input.metadataPath = some path ∧
      s.value.input.metadataText = .ok (Text.unlines lines) ∧
      s.files.read path = .ok (Text.unlines lines).toUTF8 ∧
      ∀ c ∈ s.value.input.columns, ∃ own, own <:+: lines ∧
        c.metadataLines (s.value.input.kind = .microdata) = .ok own ∧
        c.Agrees s.value.input.kind s.files own := by
  intro s
  obtain ⟨made, written, commands, hwritten, hvalue, _, hcommands, hbatch⟩ := setUp_inversion h
  have hs : s.value = j.placed := hvalue
  have hlast : written.WritesOnly [".arb"] s.files := batch_writesOnly hbatch
  rw [hs]
  refine ⟨⟨commands, hcommands, by rw [placed_paths]; exact FileSystem.read_of_write hbatch⟩, ?_⟩
  obtain ⟨text, htext, hread⟩ := hwritten.metadata hmetadata
  obtain ⟨lines, rfl, hlines⟩ := Input.metadataText_inversion htext
  refine ⟨_, lines, by rw [placed_metadataPath, hmetadata]; rfl, htext,
    hlast.read (by decide) (j.paths.metadata_endsIn _) (by decide) hread, fun c hc => ?_⟩
  obtain ⟨own, hown, hinfix⟩ := hlines c hc
  refine ⟨own, hinfix, hown, ?_⟩
  rw [placed_columns] at hc
  obtain ⟨d, hd, rfl⟩ := List.mem_map.mp hc
  have hlength := Column.length_placed (hinput.columns d hd).measured j.paths
  refine ⟨fun tree htree => ?_, fun codeList hlist => ?_, fun hmicrodata => ?_⟩
  · obtain ⟨given, hgiven, rfl⟩ := Column.placed_hierarchy (hcolumns d hd) htree
    have hfile := hwritten.hierarchy hinput.names hslash hd hgiven
      ((hcolumns d hd).hierarchy given hgiven)
    refine ⟨_, rfl, ?_, Column.arguments_tree hown htree rfl⟩
    rw [hlength]
    exact hlast.read (by decide) (j.paths.hierarchy_endsIn d.name) (by decide) hfile
  · obtain ⟨given, hgiven, rfl⟩ := Column.placed_codeList (hcolumns d hd) hlist
    have hfile := hwritten.codeList hinput.names hslash hd (hinput.columns d hd).measured hgiven
      ((hcolumns d hd).codeList given hgiven)
    refine ⟨_, rfl, ?_, Column.arguments_codeList hown hlist rfl⟩
    rw [hlength]
    exact hlast.read (by decide) (j.paths.codeList_endsIn d.name) (by decide) hfile
  · rw [(Column.metadataLines_inversion hown).1, hmicrodata]
    rfl

end

theorem fullSurvey_input_sound : fullSurvey.input.Sound where
  names := by decide +kernel
  columns := by
    intro c hc
    obtain rfl := List.mem_singleton.mp hc
    refine ⟨fun tree htree => ?_, fun n hn => absurd hn (by simp [Column.setCodeList,
      Column.forgetLength])⟩
    rw [← Hierarchy.tree.inj htree]
    exact CodeTree.sound_ofRows _ _

/-- The full survey is set up, and the files about its regions agree on five characters. -/
theorem fullSurvey_files_agree :
    (fullSurvey.setUp emptyFiles).fault = none ∧
      (fullSurvey.setUp emptyFiles).value.input.columns.map Column.length = [5] ∧
      ∃ lines, (fullSurvey.setUp emptyFiles).value.input.metadataText = .ok (Text.unlines lines) ∧
        ∀ c ∈ (fullSurvey.setUp emptyFiles).value.input.columns, ∃ own, own <:+: lines ∧
          c.Agrees (fullSurvey.setUp emptyFiles).value.input.kind
            (fullSurvey.setUp emptyFiles).files own := by
  have hdone : (fullSurvey.setUp emptyFiles).fault = none := by decide +kernel
  have hfiles : ∀ c ∈ fullSurvey.input.columns, c.NoFiles := by
    intro c hc
    obtain rfl := List.mem_singleton.mp hc
    refine ⟨fun tree htree => ?_, fun codeList hlist => ?_⟩
    · rw [← Hierarchy.tree.inj htree]
      rfl
    · rw [← Option.some.inj hlist]
      decide +kernel
  obtain ⟨_, _, lines, _, htext, _, hcolumns⟩ := setUp_files_agree fullSurvey_input_sound
    (by decide +kernel) (by decide +kernel) hfiles hdone
  refine ⟨hdone, by decide +kernel, lines, htext, fun c hc => ?_⟩
  obtain ⟨own, hinfix, _, hagrees⟩ := hcolumns c hc
  exact ⟨own, hinfix, hagrees⟩

end Job

end Disclosure
