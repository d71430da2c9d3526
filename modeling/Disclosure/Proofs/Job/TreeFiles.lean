import Disclosure.Proofs.CodeTree.ReadAgain
import Disclosure.Proofs.Job.Contents
import Disclosure.Proofs.JobFile

/-!
# Trees from job files, written and read again

A job file gives a column the rows of a tree and an indent, and neither is looked at again before
setting up writes the tree and the metadata says how to read it. Every step on the way keeps the two
as they were given, so whether the file is read as the same tree is decided by what the writer and
the reader make of them: the reader takes no indent without characters, an indent with a line feed
in it cannot stand in front of a code, and a code that is lined up by blanks must not begin with the
indent.
-/

namespace Disclosure

open Text

/-! ## Files with trees -/

/-- A file that a tree was written to is read as this tree exactly when there is an indent to tell,
and no lined-up code begins with it. -/
theorem TreeHierarchy.load_written_iff {files : FileSystem} {place : Path} {tree : CodeTree}
    {lead : String} {width : Nat} (h : tree.Linked)
    (hread : files.read place = .ok (tree.toIndented lead width).toUTF8)
    (hcodes : ∀ code ∈ tree.content.labels, CodeTree.EndsLine code) :
    (∃ g, load files place lead tree.totalCode = .ok g ∧ g.tree.same tree = true) ↔
      lead ≠ "" ∧ ('\n' ∈ lead.toList → tree.Flat) ∧
        ∀ code ∈ tree.content.labels, ¬ lead.toList <+: (justifyRight width code).toList := by
  have hload : (∃ g, load files place lead tree.totalCode = .ok g ∧ g.tree.same tree = true) ↔
      ∃ u, CodeTree.ofIndented (tree.toIndented lead width) lead tree.totalCode = .ok u ∧
        u.same tree = true := by
    rw [CodeTree.ofIndented, ← byteLines_toUTF8]
    constructor
    · rintro ⟨g, hg, hsame⟩
      obtain ⟨content, u, hcontent, hu, rfl⟩ := load_eq_ok_iff.mp hg
      obtain rfl := Except.ok.inj (hread.symm.trans hcontent)
      exact ⟨u, hu, hsame⟩
    · rintro ⟨u, hu, hsame⟩
      exact ⟨_, load_eq_ok_iff.mpr ⟨_, u, hread, hu, rfl⟩, hsame⟩
  rw [hload]
  by_cases hlead : lead = ""
  · -- without an indent nothing is read
    subst hlead
    refine iff_of_false ?_ fun hright => hright.1 rfl
    rintro ⟨u, hu, -⟩
    cases hu
  · rw [h.reads_back_iff hlead (fun x hx => hcodes _ (h.mem_labels_content.mpr ⟨x, hx, rfl⟩)) width,
      and_iff_right hlead]
    refine and_congr_right fun _ => ⟨fun hnodes code hcode => ?_, fun hall x hx => ?_⟩
    · obtain ⟨x, hx, rfl⟩ := h.mem_labels_content.mp hcode
      exact hnodes x hx
    · exact hall _ (h.mem_labels_content.mpr ⟨x, hx, rfl⟩)

/-! ## What setting up does to one tree -/

/-- What the lines about a column in the metadata say about its tree: the place of the file, the
indent of its lines, and the total code. -/
structure Column.StatesTree (own : List String) (place : Path) (lead total : String) : Prop where
  place : argumentsOf "\t<HIERCODELIST> " own.tail = [place.text]
  lead : argumentsOf "\t<HIERLEADSTRING> " own.tail = [lead]
  total : argumentsOf "\t<TOTCODE> " own.tail = [total]

theorem Column.statesTree {c : Column} {withLength : Bool} {own : List String}
    (h : c.metadataLines withLength = .ok own) {tree : CodeTree} {lead : String} {place : Path}
    (htree : c.hierarchy = .tree ⟨tree, lead, place⟩) :
    StatesTree own place lead tree.totalCode := by
  obtain ⟨hplace, hlead⟩ := arguments_tree h htree rfl
  refine ⟨hplace, hlead, ?_⟩
  rw [arguments_total h (by simp [isRecodable, htree, Hierarchy.isHierarchical]), totalCode, htree]
  rfl

/-- A tree without a file gets the place that it is written to. -/
theorem Column.placed_tree (paths : JobPaths) {c : Column} {tree : CodeTree} {lead : String}
    (h : c.hierarchy = .tree (.ofTree tree lead)) :
    (c.placed paths).hierarchy = .tree ⟨tree, lead, paths.hierarchy c.name⟩ := by
  rw [placed, placeCodeList_hierarchy, placeHierarchy, h]
  rfl

theorem Column.placed_name (paths : JobPaths) (c : Column) : (c.placed paths).name = c.name := by
  rw [placed, placeCodeList_name, placeHierarchy_name]

namespace Job

theorem placed_column? (j : Job) (name : String) :
    j.placed.input.column? name = (j.input.column? name).map (Column.placed j.paths) := by
  rw [Input.column?, placed_columns, List.find?_map, Input.column?]
  simp only [Function.comp_def, Column.placed_name]

/-- **When the tree that a job file gives in rows is read again as it was.** The metadata states the
place, the indent and the total code that the column has. Going by these the file is read as the
same tree exactly when the indent is not empty, does not need a line of its own in front of a code,
and does not begin a code that is lined up to the length of the column. -/
theorem setUp_tree_read_iff {fs disk : FileSystem} {path : Path} {file : JobFile}
    {events : List Event} {j : Job} (hfile : JobFile.loadFile fs path = .ok file)
    (hload : JobFile.load fs path = (events, .ok j)) {name : String} {s : ColumnSection}
    (hsection : (name, s) ∈ file.columns) {rows : List (List String)}
    (hrows : s.hierarchy = some rows)
    (hfeed : ∀ row ∈ rows, ∀ code ∈ CodeTree.cleanRow row, '\n' ∉ code.toList)
    (hapart : j.TreeApart name) (hdone : (j.setUp disk).fault = none) :
    let after := j.setUp disk
    let tree := CodeTree.ofRows rows (s.totalCode.getD defaultTotal)
    let lead := s.indent.getD CodeTree.defaultIndent
    ∃ c place metadata lines own,
      after.value.input.column? name = some c ∧ c.hierarchy = .tree ⟨tree, lead, some place⟩ ∧
      after.value.input.metadataPath = some metadata ∧
      after.files.read metadata = .ok (unlines lines).toUTF8 ∧ own <:+: lines ∧
      own.head? = some (c.headerLine (after.value.input.kind = .microdata)) ∧
      Column.StatesTree own place lead tree.totalCode ∧
      ((∃ g, TreeHierarchy.load after.files place lead tree.totalCode = .ok g ∧
          g.tree.same tree = true) ↔
        lead ≠ "" ∧ ('\n' ∈ lead.toList → tree.Flat) ∧
          ∀ row ∈ rows, ∀ code ∈ CodeTree.cleanRow row,
            ¬ lead.toList <+: (justifyRight c.length code).toList) := by
  intro after tree lead
  obtain ⟨_, start, _, hstart, happlied⟩ := JobFile.applied_of_load hfile hload
  obtain ⟨c, hc, hgiven⟩ := JobFile.tree_of_load hfile hload hsection hrows
  obtain ⟨hmem, rfl⟩ := Input.of_column?_eq_some hc
  have hsound := happlied.reachable.sound
  have hnone : j.input.metadataPath = none := happlied.metadataPath_eq.trans hstart
  obtain ⟨made, written, _, hwritten, hvalue, _, _, hbatch⟩ := setUp_inversion hdone
  have hlast : written.WritesOnly [".arb"] after.files := batch_writesOnly hbatch
  have hplaced := Column.placed_tree j.paths hgiven
  have hplaced? : j.placed.input.column? c.name = some (c.placed j.paths) := by
    rw [placed_column?, hc, Option.map_some]
  -- the metadata file
  obtain ⟨text, htext, hmetadata⟩ := hwritten.metadata hnone
  obtain ⟨lines, rfl, hlines⟩ := Input.metadataText_inversion htext
  obtain ⟨own, hown, hinfix⟩ := hlines _ (Input.of_column?_eq_some hplaced?).1
  -- the hierarchy file
  have hwidth := Column.length_placed (hsound.columns c hmem).measured j.paths
  have hread := hlast.read (by decide) (j.paths.hierarchy_endsIn c.name) (by decide)
    (hwritten.hierarchy_of_apart hsound.names hmem hapart hgiven rfl)
  have hcodes : ∀ code ∈ tree.content.labels, CodeTree.EndsLine code := by
    intro code hcode
    obtain ⟨row, hrow, hcell⟩ := (CodeTree.mem_labels_ofRows rows _).mp hcode
    exact CodeTree.endsLine_of_mem_cleanRow hcell (hfeed row hrow code hcell)
  have hback := TreeHierarchy.load_written_iff (CodeTree.sound_ofRows rows _).toLinked hread hcodes
  rw [show after.value = j.placed from hvalue]
  refine ⟨c.placed j.paths, _, _, lines, own, hplaced?, hplaced,
    by rw [placed_metadataPath, hnone]; rfl,
    hlast.read (by decide) (j.paths.metadata_endsIn _) (by decide) hmetadata, hinfix,
    (Column.metadataLines_inversion hown).1, Column.statesTree hown hplaced, ?_⟩
  rw [hwidth]
  refine hback.trans (and_congr_right fun _ => and_congr_right fun _ => ?_)
  constructor
  · intro hall row hrow code hcell
    exact hall code ((CodeTree.mem_labels_ofRows rows _).mpr ⟨row, hrow, hcell⟩)
  · intro hall code hcode
    obtain ⟨row, hrow, hcell⟩ := (CodeTree.mem_labels_ofRows rows _).mp hcode
    exact hall row hrow code hcell

/-- A computer with a job file and the data of one column, the regions of which form a tree. -/
def regionsDisk (indent : String) : FileSystem :=
  let description := "directory = \"out\"\n[input]\ndata = \"d.csv\"\n[columns.region]\n" ++
    "hierarchy = [[\"A\"], [\"BB\"]]\nindent = \"" ++ indent ++
    "\"\n[[tables]]\nexplanatory = [\"region\"]\n"
  ⟨[(["w"], .directory), (["w", "job.toml"], .file description.toUTF8),
    (["w", "d.csv"], .file "region\nA\nBB\n".toUTF8)], ["w"]⟩

/-- Behind an indent that no code begins with, the regions are read again. -/
theorem regions_read_again : ∃ events j place g,
    JobFile.load (regionsDisk "@") ⟨"job.toml"⟩ = (events, .ok j) ∧
      (j.setUp (regionsDisk "@")).fault = none ∧
      TreeHierarchy.load (j.setUp (regionsDisk "@")).files place "@" "Total" = .ok g ∧
      g.tree.same (.ofRows [["A"], ["BB"]] "Total") = true := by
  have hloadFile : ∃ file ∈ (JobFile.loadFile (regionsDisk "@") ⟨"job.toml"⟩).toOption,
      ∃ described ∈ file.columns, described.1 = "region" ∧
        described.2.hierarchy = some [["A"], ["BB"]] ∧ described.2.indent = some "@" ∧
        described.2.totalCode = none := by
    decide +kernel
  have hload : ∃ j ∈ (JobFile.load (regionsDisk "@") ⟨"job.toml"⟩).2.toOption,
      (j.setUp (regionsDisk "@")).fault.isNone = true ∧
        ∀ c ∈ j.input.columns, '/' ∉ c.name.toList := by
    decide +kernel
  obtain ⟨file, hfile, ⟨name, s⟩, hsection, rfl, hrows, hlead, htotal⟩ := hloadFile
  obtain ⟨j, hj, hdone, hslash⟩ := hload
  obtain ⟨events, hjob⟩ := JobFile.exists_load_of_mem hj
  obtain ⟨d, hd, -⟩ := JobFile.tree_of_load (ok_of_toOption hfile) hjob hsection hrows
  obtain ⟨hmem, hname⟩ := Input.of_column?_eq_some hd
  have hapart : j.TreeApart "region" := hname ▸ treeApart_of_slash hslash hmem
  obtain ⟨c, place, _, _, _, _, _, _, _, _, _, _, hread⟩ := setUp_tree_read_iff
    (ok_of_toOption hfile) hjob hsection hrows (by decide) hapart
    (Option.isNone_iff_eq_none.mp hdone)
  rw [hlead, htotal] at hread
  -- no blank is an at sign, however many of them line a code up
  have hindent : CodeTree.IsIndent "@" := ⟨by decide, by decide, by decide⟩
  have hcodes : ∀ row ∈ [["A"], ["BB"]], ∀ code ∈ CodeTree.cleanRow row,
      code ≠ "" ∧ Text.IsTrimmed code ∧ '\n' ∉ code.toList ∧ ¬ "@".toList <+: code.toList := by
    decide
  obtain ⟨g, hg, hsame⟩ := hread.mpr
    ⟨hindent.ne_empty, fun hfeed => absurd hfeed hindent.no_feed, fun row hrow code hcode => by
      obtain ⟨hempty, htrimmed, hfeed, hlead⟩ := hcodes row hrow code hcode
      exact CodeTree.not_isPrefix_justifyRight hindent ⟨hempty, htrimmed, hfeed, hlead⟩ _⟩
  exact ⟨events, j, place, g, hjob, Option.isNone_iff_eq_none.mp hdone, hg, hsame⟩

/-- An indent of one blank is taken for the blank that lines up a code: neither code has a blank in
it, and still the file cannot be read. -/
theorem blank_indent_not_read : ∃ events j,
    JobFile.load (regionsDisk " ") ⟨"job.toml"⟩ = (events, .ok j) ∧
      (j.setUp (regionsDisk " ")).fault = none ∧
      (j.setUp (regionsDisk " ")).files.read ⟨"/w/out/input/job_region_hierarchy.hrc"⟩ =
        .ok " A\nBB\n".toUTF8 ∧
      ∀ g, TreeHierarchy.load (j.setUp (regionsDisk " ")).files
        ⟨"/w/out/input/job_region_hierarchy.hrc"⟩ " " "Total" ≠ .ok g := by
  have hload : ∃ j ∈ (JobFile.load (regionsDisk " ") ⟨"job.toml"⟩).2.toOption,
      (j.setUp (regionsDisk " ")).fault.isNone = true ∧
        (j.setUp (regionsDisk " ")).files.read ⟨"/w/out/input/job_region_hierarchy.hrc"⟩ =
          .ok " A\nBB\n".toUTF8 ∧
        (TreeHierarchy.load (j.setUp (regionsDisk " ")).files
          ⟨"/w/out/input/job_region_hierarchy.hrc"⟩ " " "Total").toOption.isNone = true := by
    decide +kernel
  obtain ⟨j, hj, hdone, hread, hnone⟩ := hload
  obtain ⟨events, hjob⟩ := JobFile.exists_load_of_mem hj
  refine ⟨events, j, hjob, Option.isNone_iff_eq_none.mp hdone, hread, fun g hg => ?_⟩
  rw [hg] at hnone
  exact nomatch hnone

end Job

end Disclosure
