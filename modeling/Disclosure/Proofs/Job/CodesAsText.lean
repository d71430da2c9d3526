import Disclosure.Proofs.Job.Problems
import Disclosure.Proofs.JobFile

/-!
# Codes are read as text

A code such as `01` must not become the number 1, so the columns that hold codes are asked for as
text when the data is read. Which columns these are is taken from the job file, before there is a
job; which columns have to hold codes is known only from the tables of the job. Nothing compares the
two.

They agree because of the check. It lets tables go by nothing but columns that can be recoded, and
what makes a column so is a hierarchy or a total code. A column of a job from a job file has these
from its own section, and the columns with such a section are read as text. No later change turns a
text into a number.

The check looks at the table that the input forms only if the job has no other. Beside others that
table is not made either, and nothing keeps a variable that is recoded in it from being a number.
-/

namespace Disclosure

/-- The column with a given name holds text: it is described so, and so are its values. -/
structure Input.HoldsText (i : Input) (name : String) : Prop where
  /-- The description of the column. -/
  described : ∃ c, i.column? name = some c ∧ c.kind = .text
  /-- The values in the data. -/
  values : ∃ values, i.frame.find? name = some ⟨name, .text values⟩

theorem Input.Reachable.holdsText {i : Input} (h : i.Reachable) {name : String}
    {values : List (Option String)} (hmem : ⟨name, .text values⟩ ∈ i.frame.columns) :
    i.HoldsText name := by
  refine ⟨?_, values, (Frame.find?_eq_some_iff h.frame_sound).mpr ⟨hmem, rfl⟩⟩
  obtain ⟨c, hc⟩ := h.exists_column?_iff.mpr (List.mem_map_of_mem hmem)
  obtain ⟨hcolumn, hname⟩ := of_column?_eq_some hc
  -- the column is that of some values with the name, and there are no others with it
  have hkind : (c.name, c.kind) ∈ i.columns.map fun c => (c.name, c.kind) :=
    List.mem_map_of_mem hcolumn
  rw [h.kinds_eq] at hkind
  obtain ⟨s, hs, heq⟩ := List.mem_map.mp hkind
  obtain ⟨hsame, hof⟩ := Prod.mk.inj heq
  obtain rfl := List.inj_on_of_nodup_map h.frame_sound.names hs hmem (hsame.trans hname)
  exact ⟨c, hc, hof.symm⟩

namespace JobFile

/-! ## What is asked for -/

/-- The header line is read twice: for the names of the columns that hold codes, and with the data.
Both readers take the same names from it. They need not do so where a name stands in quotes or comes
twice. -/
def HeadersAgree (file : JobFile) (fs : FileSystem) (base : Path) : Prop :=
  ∀ separator content frame, file.separatorByte = .ok separator →
    fs.read (file.dataPath base) = .ok content → file.readData fs base = .ok frame →
    DataFile.headerNames? separator content = some frame.names

variable {fs : FileSystem} {base path : Path} {file : JobFile}

/-- Reading a job file and its data shows whether the readers agree. -/
theorem exists_headersAgree (h : ∃ file ∈ (loadFile fs path).toOption,
      ∃ separator ∈ file.separatorByte.toOption,
      ∃ content ∈ (fs.read (file.dataPath (baseOf path))).toOption,
      ∃ frame ∈ (file.readData fs (baseOf path)).toOption,
      DataFile.headerNames? separator content = some frame.names) :
    ∃ file, loadFile fs path = .ok file ∧ file.HeadersAgree fs (baseOf path) := by
  obtain ⟨file, hfile, separator, hseparator, content, hcontent, frame, hread, hnames⟩ := h
  refine ⟨file, ok_of_toOption hfile, ?_⟩
  intro separator' content' frame' hseparator' hcontent' hread'
  obtain rfl := Except.ok.inj ((ok_of_toOption hseparator).symm.trans hseparator')
  obtain rfl := Except.ok.inj ((ok_of_toOption hcontent).symm.trans hcontent')
  obtain rfl := Except.ok.inj ((ok_of_toOption hread).symm.trans hread')
  exact hnames

theorem mem_categoricalColumns_of_section {name : String} {s : ColumnSection}
    (hmem : (name, s) ∈ file.columns) (hs : ColumnSection.isCategorical s = true) :
    name ∈ file.categoricalColumns := by
  simp only [categoricalColumns, List.mem_append, List.mem_map, List.mem_filter]
  exact .inl (.inl (.inl (.inr ⟨(name, s), ⟨hmem, hs⟩, rfl⟩)))

theorem mem_categoricalColumns_of_inputTable {name : String} {s : TableSection}
    (hs : file.input.table = some s) (hname : name ∈ s.explanatory) :
    name ∈ file.categoricalColumns := by
  simp only [categoricalColumns, List.mem_append, List.mem_flatMap]
  exact .inl (.inl (.inl (.inl ⟨s, .inr (by simp [hs]), hname⟩)))

/-- The columns that hold codes are read as text. -/
theorem text_of_readData {frame : Frame} (hread : file.readData fs base = .ok frame)
    (hheaders : file.HeadersAgree fs base) {name : String} (hname : name ∈ frame.names)
    (hcodes : name ∈ file.categoricalColumns) :
    ∃ values, ⟨name, .text values⟩ ∈ frame.columns := by
  obtain ⟨separator, content, names, hseparator, hcontent, hnames, hframe⟩ :=
    readData_inversion hread
  obtain rfl := Option.some.inj
    (hnames.symm.trans (hheaders separator content frame hseparator hcontent hread))
  obtain ⟨s, hs, rfl⟩ := List.mem_map.mp hname
  obtain ⟨values, hvalues⟩ := Frame.text_of_ofDataFile? hframe hs
    (List.mem_filter.mpr ⟨hname, List.contains_iff_mem.mpr hcodes⟩)
  exact ⟨values, hvalues ▸ hs⟩

/-! ## What the job needs -/

/-- A section with nothing that makes a column hold codes has no hierarchy and no total code. -/
theorem buildHierarchy_of_not_isCategorical (fs : FileSystem) (base : Path) {s : ColumnSection}
    (hs : ColumnSection.isCategorical s = false) :
    buildHierarchy fs base s = .ok none ∧ s.totalCode = none := by
  simp only [ColumnSection.isCategorical, Bool.or_eq_false_iff, Option.isSome_eq_false_iff,
    Option.isNone_iff_eq_none] at hs
  obtain ⟨⟨⟨⟨⟨hlevels, hfile⟩, hrows⟩, htotal⟩, _⟩, _⟩ := hs
  exact ⟨by rw [buildHierarchy, hlevels, hfile, hrows], htotal⟩

/-- A column without a section that describes codes can be recoded if it could be before. -/
theorem isRecodable_of_applied {columns : List (String × ColumnSection)} {i i' : Input}
    (h : Applied fs base columns i i') {name : String} {c d : Column}
    (hc : i.column? name = some c) (hd : i'.column? name = some d)
    (hplain : ∀ s, (name, s) ∈ columns → ColumnSection.isCategorical s = false) :
    d.isRecodable = c.isRecodable := by
  by_cases hsection : name ∈ columns.map Prod.fst
  · obtain ⟨⟨_, s⟩, hmem, rfl⟩ := List.mem_map.mp hsection
    obtain ⟨hierarchy, codeList, before, after, hbuilt, hcalled, hbefore, hafter⟩ :=
      h.column?_of_mem _ s hmem
    obtain ⟨hnone, htotal⟩ := buildHierarchy_of_not_isCategorical fs base (hplain s hmem)
    obtain rfl := Except.ok.inj (hnone.symm.trans hbuilt)
    obtain ⟨d', hrun, hd'⟩ := hcalled.column?_eq c (hbefore.trans hc)
    obtain rfl := Option.some.inj (hd.symm.trans (hafter.trans hd'))
    exact isRecodable_of_callsOf htotal hrun
  · obtain rfl := Option.some.inj (hd.symm.trans ((h.column?_of_not_mem name hsection).trans hc))
    rfl

variable {events : List Event} {j : Job}

/-- A column that holds codes of the job file is one of text. -/
theorem holdsText_of_mem (hfile : loadFile fs path = .ok file)
    (hload : load fs path = (events, .ok j)) (hheaders : file.HeadersAgree fs (baseOf path))
    {name : String} {c : Column} (hc : j.input.column? name = some c)
    (hcodes : name ∈ file.categoricalColumns) : j.input.HoldsText name := by
  obtain ⟨frame, _, _, hread, hreach, happly, _⟩ := load_inversion hfile hload
  have happlied := applied_of_applyColumns (nodup_columns hfile) hreach happly
  have hframe : j.input.frame = frame := (data_of_applyColumns happly).1
  have hname : name ∈ frame.names :=
    hframe ▸ happlied.reachable.exists_column?_iff.mp ⟨c, hc⟩
  obtain ⟨values, hvalues⟩ := text_of_readData hread hheaders hname hcodes
  exact happlied.reachable.holdsText (hframe.symm ▸ hvalues)

/-- Whatever can be recoded is described as a column that holds codes. -/
theorem mem_categoricalColumns_of_isRecodable (hfile : loadFile fs path = .ok file)
    (hload : load fs path = (events, .ok j)) {name : String} {c : Column}
    (hc : j.input.column? name = some c) (hrecodable : c.isRecodable = true) :
    name ∈ file.categoricalColumns := by
  obtain ⟨frame, roles, separator, _, hreach, happly, _⟩ := load_inversion hfile hload
  have happlied := applied_of_applyColumns (nodup_columns hfile) hreach happly
  obtain ⟨d, hd⟩ : ∃ d, Input.column? { Input.ofFrame frame roles with separator } name = some d :=
    hreach.exists_column?_iff.mpr
      ((data_of_applyColumns happly).1 ▸ happlied.reachable.exists_column?_iff.mp ⟨c, hc⟩)
  -- as the data gives it, no column can be recoded
  have hfresh : d.isRecodable = false := by
    obtain ⟨series, _, rfl⟩ := List.mem_map.mp (Input.of_column?_eq_some hd).1
    rfl
  by_contra hnot
  have hsame := isRecodable_of_applied happlied hd hc fun s hmem =>
    Bool.not_eq_true _ ▸ fun hs => hnot (mem_categoricalColumns_of_section hmem hs)
  rw [hsame, hfresh] at hrecodable
  exact Bool.false_ne_true hrecodable

theorem explanatory_of_buildTable {s : TableSection} {t : Table}
    (h : buildTable fs base s = .ok t) : t.explanatory = s.explanatory := by
  obtain ⟨_, _, h⟩ := Fault.ok_of_bind h
  obtain ⟨_, _, h⟩ := Fault.ok_of_bind h
  rw [← Except.ok.inj h]
  exact List.foldlRecOn s.writeOptions _
    (motive := fun t : Table => t.explanatory = s.explanatory) rfl fun _ ht _ _ => ht

theorem explanatory_of_inputTable (hfile : loadFile fs path = .ok file)
    (hload : load fs path = (events, .ok j)) {t : Table} (ht : j.input.table? = some t)
    {name : String} (hname : name ∈ t.explanatory) : name ∈ file.categoricalColumns := by
  obtain ⟨_, _, _, _, _, happly, htable⟩ := load_inversion hfile hload
  obtain ⟨s, hs, hbuilt⟩ := htable t ((data_of_applyColumns happly).2.symm.trans ht)
  exact mem_categoricalColumns_of_inputTable hs (explanatory_of_buildTable hbuilt ▸ hname)

/-- **Codes are never read as numbers.** A job file is loaded, the two readers of the header line
agree on the names in it, and the job passes its check. Then every variable that spans a table of
the job or is recoded in one is a column of text. The table that the input forms is a table of the
job if there is no other. Beside others it is neither made nor checked, and still every column of
the input that spans it or can be recoded is one of text. -/
theorem codes_read_as_text (hfile : loadFile fs path = .ok file)
    (hload : load fs path = (events, .ok j)) (hheaders : file.HeadersAgree fs (baseOf path))
    (hcheck : j.check = .ok ()) :
    (∀ t, j.Makes t → ∀ name, t.Classifies name → j.input.HoldsText name) ∧
    ∀ t, j.input.table? = some t → ∀ name c, j.input.column? name = some c →
      name ∈ t.explanatory ∨ c.isRecodable = true → j.input.HoldsText name := by
  refine ⟨fun t ht name hname => ?_, fun t ht name c hc huse => ?_⟩
  · obtain ⟨c, hc, hrecodable⟩ := Job.recodable_of_check hcheck ht hname
    exact holdsText_of_mem hfile hload hheaders hc
      (mem_categoricalColumns_of_isRecodable hfile hload hc hrecodable)
  · refine holdsText_of_mem hfile hload hheaders hc ?_
    rcases huse with hname | hrecodable
    · exact explanatory_of_inputTable hfile hload ht hname
    · exact mem_categoricalColumns_of_isRecodable hfile hload hc hrecodable

/-- A computer with a job file about table data, which has two columns and two rows. -/
def tableDisk (header table : String) : FileSystem :=
  let input := "directory = \"out\"\n[input]\nkind = \"tabledata\"\ndata = \"d.csv\"\n"
  ⟨[(["w"], .directory), (["w", "job.toml"], .file (input ++ table).toUTF8),
    (["w", "d.csv"], .file (header ++ "\n01,07\n02,09\n").toUTF8)], ["w"]⟩

/-- A computer with a job file about table data that one column spans. -/
def spannedDisk (column header : String) : FileSystem :=
  tableDisk header ("[input.table]\nexplanatory = [\"" ++ column ++ "\"]\n[columns." ++ column ++
    "]\ntotal_code = \"Total\"\n")

/-- A district `01` stays as it is in the table that the input forms. -/
theorem districts_read_as_text : ∃ events j t,
    load (spannedDisk "district" "district,amount") ⟨"job.toml"⟩ = (events, .ok j) ∧
      j.check = .ok () ∧ j.Makes t ∧ t.explanatory = ["district"] ∧
      j.input.HoldsText "district" := by
  obtain ⟨file, hfile, hheaders⟩ : ∃ file,
      loadFile (spannedDisk "district" "district,amount") ⟨"job.toml"⟩ = .ok file ∧
        file.HeadersAgree (spannedDisk "district" "district,amount") (baseOf ⟨"job.toml"⟩) :=
    exists_headersAgree (by decide +kernel)
  have hload : ∃ j ∈ (load (spannedDisk "district" "district,amount") ⟨"job.toml"⟩).2.toOption,
      j.problems = [] ∧ j.ownTables.isEmpty ∧
        ∃ t ∈ j.input.table?, t.explanatory = ["district"] := by
    decide +kernel
  obtain ⟨j, hj, hproblems, hown, t, ht, hexplanatory⟩ := hload
  obtain ⟨events, hjob⟩ := exists_load_of_mem hj
  have hmakes : j.Makes t := .inr ⟨List.isEmpty_iff.mp hown, ht⟩
  have hcheck := Job.check_eq_ok_iff.mpr hproblems
  obtain ⟨htext, -⟩ := codes_read_as_text hfile hjob hheaders hcheck
  exact ⟨events, j, t, hjob, hcheck, hmakes, hexplanatory,
    htext t hmakes "district" (.inl (by simp [hexplanatory]))⟩

/-- Where the readers do not agree, a code can become a number. Of two columns of one name the
second gets another name in the data, which the header line does not have. -/
example : ∃ j ∈ (load (spannedDisk "code_duplicated_0" "code,code") ⟨"job.toml"⟩).2.toOption,
    j.problems = [] ∧ j.ownTables.isEmpty ∧
      (∃ t ∈ j.input.table?, t.explanatory = ["code_duplicated_0"]) ∧
      ∃ c ∈ j.input.column? "code_duplicated_0", c.kind = .integer := by
  decide +kernel

/-- A computer with a job file that makes a table of its own. A column that is not there is one of
those that span the table of the input, and the amount is recoded in it. -/
def besideDisk : FileSystem :=
  tableDisk "district,amount" ("[input.table]\nexplanatory = [\"district\", \"nowhere\"]\n" ++
    "[input.table.recodes]\namount = 1\n[columns.district]\ntotal_code = \"Total\"\n" ++
    "[[tables]]\nexplanatory = [\"district\"]\n")

/-- **Beside other tables, that of the input may recode a number.** The job passes its check, and
yet the amount that is recoded in the table of its input is a column of integers, and a variable
that spans the table is no column at all. -/
theorem amount_read_as_numbers : ∃ file events j t,
    loadFile besideDisk ⟨"job.toml"⟩ = .ok file ∧
      load besideDisk ⟨"job.toml"⟩ = (events, .ok j) ∧
      file.HeadersAgree besideDisk (baseOf ⟨"job.toml"⟩) ∧ j.check = .ok () ∧
      j.input.table? = some t ∧
      (t.Classifies "amount" ∧ (∃ c, j.input.column? "amount" = some c ∧ c.kind = .integer) ∧
        ¬ j.input.HoldsText "amount") ∧
      t.Classifies "nowhere" ∧ ¬ j.input.HoldsText "nowhere" := by
  obtain ⟨file, hfile, hheaders⟩ : ∃ file, loadFile besideDisk ⟨"job.toml"⟩ = .ok file ∧
      file.HeadersAgree besideDisk (baseOf ⟨"job.toml"⟩) :=
    exists_headersAgree (by decide +kernel)
  have hload : ∃ j ∈ (load besideDisk ⟨"job.toml"⟩).2.toOption, j.problems = [] ∧
      (∃ t ∈ j.input.table?, "amount" ∈ t.categoricalVariables ∧
        "nowhere" ∈ t.categoricalVariables) ∧
      (∃ c ∈ j.input.column? "amount", c.kind = .integer) ∧
      j.input.column? "nowhere" = none := by
    decide +kernel
  obtain ⟨j, hj, hproblems, ⟨t, ht, hamount, hother⟩, ⟨c, hc, hkind⟩, hnowhere⟩ := hload
  obtain ⟨events, hjob⟩ := exists_load_of_mem hj
  refine ⟨file, events, j, t, hfile, hjob, hheaders, Job.check_eq_ok_iff.mpr hproblems, ht,
    ⟨Table.mem_categoricalVariables.mp hamount, ⟨c, hc, hkind⟩, fun htext => ?_⟩,
    Table.mem_categoricalVariables.mp hother, fun htext => ?_⟩
  · obtain ⟨d, hd, htold⟩ := htext.described
    obtain rfl := Option.mem_unique hc hd
    exact absurd (hkind.symm.trans htold) (by decide)
  · obtain ⟨d, hd, -⟩ := htext.described
    exact absurd (hnowhere.symm.trans hd) (by simp)

end JobFile

end Disclosure
