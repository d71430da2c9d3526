import Disclosure.Proofs.Job.SetUp
import Disclosure.Proofs.Job.SharedDirectory
import Disclosure.Proofs.Parent

/-!
# Where the files of a job lie

A job makes a directory for the files that the engine reads and one for those it writes, and no
others, so its files have to lie right in them. Names of jobs and tables become slugs first, which
have no slash, and the kinds of input have none either. Their files lie where they should, whatever
the names are.

Names of columns go into the names of files as they are. So it hangs on them: a file that is named
for a column lies in its directory exactly if the column has no slash in its name. With a slash it
is looked for in a directory that the job never makes, and with a name that leads up it may even
leave the directory of the job.
-/

namespace Disclosure

namespace JobPaths

/-- Where the files of a job lie. -/
structure InDirectories (p : JobPaths) (kind : InputKind) (table column : String) : Prop where
  /-- What the engine reads is in a directory of the job. -/
  input : p.input.LiesIn p.directory
  /-- What the engine writes is in a directory of the job. -/
  output : p.output.LiesIn p.directory
  /-- The batch file lies in the directory of the job. -/
  batch : p.batch.LiesIn p.directory
  /-- The usual logbook lies there too. -/
  logbook : p.logbook.LiesIn p.directory
  /-- The data file is one that the engine reads. -/
  data : (p.data kind.name).LiesIn p.input
  /-- So is the metadata file. -/
  metadata : (p.metadata kind.name).LiesIn p.input
  /-- So is the a priori file of a table. -/
  apriori : (p.apriori table).LiesIn p.input
  /-- The file that a table is written to is one that the engine writes. -/
  tableOutput : (p.tableOutput table).LiesIn p.output
  /-- A hierarchy file lies with what the engine reads exactly if the column has no slash. -/
  hierarchy : (p.hierarchy column).LiesIn p.input ↔ '/' ∉ column.toList
  /-- So does the file of a code list. -/
  codeList : (p.codeList column).LiesIn p.input ↔ '/' ∉ column.toList
  /-- So does a recode file. -/
  recode : (p.recode table column).LiesIn p.input ↔ '/' ∉ column.toList
  /-- Also with slashes these three lead below that directory, unless a name in the column leads
  up. -/
  below : ".." ∉ (Path.mk column).names → ∀ fs : FileSystem,
    ∀ q ∈ [p.hierarchy column, p.codeList column, p.recode table column],
      ∃ names, fs.target q = fs.target p.input ++ names

theorem endsInName_append (front : String) {ending : String}
    (h : Path.EndsInName ending.toList) : Path.EndsInName (front ++ ending).toList := by
  rw [String.toList_append]
  exact h.behind front.toList

theorem input_liesIn (p : JobPaths) : p.input.LiesIn p.directory :=
  Path.liesIn_join (by decide) (by decide) p.directory

theorem output_liesIn (p : JobPaths) : p.output.LiesIn p.directory :=
  Path.liesIn_join (by decide) (by decide) p.directory

variable {p : JobPaths} (hjob : IsJobName p.job)

include hjob

theorem top_liesIn (ending : String) (hslash : '/' ∉ ending.toList)
    (hends : Path.EndsInName ending.toList) :
    (p.directory.join (p.job ++ ending)).LiesIn p.directory := by
  refine Path.liesIn_join ?_ (endsInName_append p.job hends) p.directory
  rw [String.toList_append]
  simp [hjob.noSlash, hslash]

/-- A file that the engine reads lies with the others exactly if its name has no slash. -/
theorem inputFile_liesIn_iff {ending : String} (hends : Path.EndsInName ending.toList) :
    (p.inputFile ending).LiesIn p.input ↔ '/' ∉ ending.toList :=
  Path.join_liesIn_iff hjob.noSlash hends _

theorem kindFile_liesIn (kind : InputKind) (ending : String) (hslash : '/' ∉ ending.toList)
    (hends : Path.EndsInName ending.toList) :
    (p.inputFile (kind.name ++ ending)).LiesIn p.input := by
  refine (inputFile_liesIn_iff hjob (endsInName_append kind.name hends)).mpr ?_
  have hkind : '/' ∉ kind.name.toList := by cases kind <;> decide
  rw [String.toList_append]
  simp [hkind, hslash]

theorem tableOutput_liesIn (table : String) : (p.tableOutput table).LiesIn p.output := by
  have hends : Path.EndsInName (slug table ++ ".csv").toList :=
    endsInName_append (slug table) (by decide)
  rw [tableOutput, String.append_assoc]
  refine (Path.join_liesIn_iff hjob.noSlash hends p.output).mpr ?_
  rw [String.toList_append]
  simp [not_mem_slug (.inl rfl) table]

theorem columnFile_liesIn_iff {rest : String} (hrest : '/' ∉ rest.toList)
    (hends : Path.EndsInName rest.toList) (column : String) :
    (p.inputFile (column ++ rest)).LiesIn p.input ↔ '/' ∉ column.toList := by
  rw [inputFile_liesIn_iff hjob (endsInName_append column hends), String.toList_append]
  simp [hrest]

/-- If no name in what a file is named for leads up, the file stays below its directory. -/
theorem inputFile_below {ending : String} (hstraight : Path.Straight ending.toList)
    (fs : FileSystem) :
    ∃ names, fs.target (p.inputFile ending) = fs.target p.input ++ names := by
  have hrelative : (Path.mk (p.job ++ "_" ++ ending)).isAbsolute = false := by
    rw [String.append_assoc]
    exact hjob.relative _
  have hfront : Path.IsEnding (p.job.toList ++ ['_']) :=
    ⟨by simp [hjob.noSlash], '_', by simp, by decide⟩
  have hname : Path.Straight (p.job ++ "_" ++ ending).toList := by
    rw [String.toList_append, String.toList_append]
    exact hstraight.behind hfront
  exact ⟨_, Path.target_join_of_straight fs hrelative hname⟩

theorem columnFile_below {rest column : String} (hrest : Path.IsEnding rest.toList)
    (hup : ".." ∉ (Path.mk column).names) (fs : FileSystem) :
    ∃ names, fs.target (p.inputFile (column ++ rest)) = fs.target p.input ++ names := by
  refine inputFile_below hjob ?_ fs
  rw [String.toList_append]
  exact (Path.straight_iff.mpr hup).append_ending hrest

theorem inDirectories (kind : InputKind) (table column : String) :
    p.InDirectories kind table column where
  input := input_liesIn p
  output := output_liesIn p
  batch := top_liesIn hjob ".arb" (by decide) (by decide)
  logbook := top_liesIn hjob "_logbook.txt" (by decide) (by decide)
  data := kindFile_liesIn hjob kind ".csv" (by decide) (by decide)
  metadata := kindFile_liesIn hjob kind ".rda" (by decide) (by decide)
  apriori := by
    refine (inputFile_liesIn_iff hjob (endsInName_append (slug table) (by decide))).mpr ?_
    rw [String.toList_append]
    simp [not_mem_slug (.inl rfl) table]
  tableOutput := tableOutput_liesIn hjob table
  hierarchy := columnFile_liesIn_iff hjob (by decide) (by decide) column
  codeList := columnFile_liesIn_iff hjob (by decide) (by decide) column
  recode := by
    rw [JobPaths.recode, inputFile_liesIn_iff hjob (endsInName_append _ (by decide)),
      String.toList_append, String.toList_append, String.toList_append]
    simp [not_mem_slug (.inl rfl) table]
  below hup fs q hq := by
    simp only [List.mem_cons, List.not_mem_nil, or_false] at hq
    rcases hq with rfl | rfl | rfl
    · exact columnFile_below hjob (by decide) hup fs
    · exact columnFile_below hjob (by decide) hup fs
    · exact inputFile_below hjob (Path.straight_recode table hup) fs

end JobPaths

/-- **The files of a job lie right in the directories that the job makes, if no column has a slash
in its name.** Whatever the job, its directory, the table and the kind of input are called, the
files that are not named for a column lie where they should. A file that is named for a column does
so exactly if the column has no slash in its name, and it stays somewhere below at least if no name
in the column leads up. -/
theorem JobPaths.nameOf_inDirectories (directory : Path) (given table column : String)
    (kind : InputKind) :
    (JobPaths.mk directory (Job.nameOf given)).InDirectories kind table column := by
  have hjob := Job.nameOf_isJobName given
  generalize Job.nameOf given = job at hjob
  exact inDirectories hjob kind table column

/-- A survey of regions by size, in one column whose name has a slash. -/
def sizedSurvey : Job :=
  let input := Input.microdata ⟨[⟨"region/size", .text [some "A", some "B"]⟩]⟩
  let regions := TreeHierarchy.ofTree (.ofRows [["North", "A"], ["North", "B"]] "Total") "@"
  { Job.new ⟨"/"⟩ { input with columns := input.columns.map (·.setHierarchy (.tree regions)) }
      ⟨"/jobs"⟩ "survey" with
    ownTables := [("table-1", .new ["region/size"] .frequency)] }

/-- **A slash in the name of a column leads out of the directories that a job makes**: the hierarchy
of `region/size` is to be written into a directory that is not there, so the job cannot be set
up. -/
theorem slash_leaves_input :
    ¬ (sizedSurvey.paths.hierarchy "region/size").LiesIn sizedSurvey.paths.input ∧
    (sizedSurvey.paths.hierarchy "region/size").parent? = some ⟨"/jobs/input/survey_region"⟩ ∧
    (sizedSurvey.setUp Job.emptyFiles).fault.map Fault.message =
      some ("failed to access /jobs/input/survey_region/size_hierarchy.hrc: " ++
        "No such file or directory (os error 2)") := by
  have hparent : (sizedSurvey.paths.hierarchy "region/size").parent? =
      some ⟨"/jobs/input/survey_region"⟩ := by decide +kernel
  refine ⟨fun hlies => ?_, hparent, by decide +kernel⟩
  obtain ⟨above, habove, hequal⟩ := hlies.parent
  obtain rfl := Option.some.inj (hparent.symm.trans habove)
  exact absurd hequal.parts_eq (by decide +kernel)

end Disclosure
