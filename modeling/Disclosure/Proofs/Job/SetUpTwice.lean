import Disclosure.Proofs.Job.SetUp

/-!
# Setting a job up again

A job notes the place of everything that is written for it, so that setting it up again writes the
batch file and nothing else. The files in between may have been changed by hand: they are left as
they are found.

The argument is the one of `placed_pending`. A job that was set up is a job with every place filled
in, in such a job nothing is pending, and with nothing pending no piece of work does anything until
the batch file. What is in the batch file then depends on the job alone, and the job is the same.
-/

namespace Disclosure.Job

theorem placed_directories (j : Job) : j.placed.directories = j.directories := by
  rw [directories, placed_paths, directories]

theorem placed_hasTables {j : Job} (h : j.tables.isEmpty = false) :
    j.placed.tables.isEmpty = false := by
  rw [placed_tables, List.isEmpty_map]
  exact h

/-- **Setting up a job again writes the same batch file and nothing else.** The files may have
changed since; only the directories have to be there, and the batch file must be writable. -/
theorem setUp_again {j : Job} {fs later : FileSystem} (hfirst : (j.setUp fs).fault = none)
    (hdirs : ∀ dir ∈ j.directories, later.isDirectory dir = true)
    (hwritable : later.isWritable j.paths.batch = true) :
    let first := j.setUp fs
    let again := first.value.setUp later
    again.fault = none ∧ again.value = first.value ∧
      (∀ place, place ≠ later.target j.paths.batch →
        again.files.find? place = later.find? place) ∧
      ∃ content, first.files.read j.paths.batch = .ok content ∧
        again.files.read j.paths.batch = .ok content := by
  intro first again
  obtain ⟨made, written, commands, hwritten, hvalue, hcheck, hcommands, hbatch⟩ :=
    setUp_inversion hfirst
  -- what the batch file says is decided by the job, so it can be written again
  obtain ⟨files, hfiles⟩ : ∃ files,
      later.write j.paths.batch (renderBatch commands).toUTF8 = .ok files :=
    ⟨_, FileSystem.write_ok_iff.mpr ⟨hwritable, rfl⟩⟩
  have hagain : (j.placed.setUp later).Done j.placed files := by
    refine setUp_done (placed_hasTables hwritten.tables) ?_ j.placed_pending hcheck hcommands ?_
    · rw [placed_directories]
      exact hdirs
    · rw [placed_paths]
      exact hfiles
  -- the job that is set up again is the first one with every place filled in
  have hstep : again = j.placed.setUp later := congrArg (fun k => Job.setUp k later) hvalue
  rw [hstep, hagain.fault, hagain.value, hagain.files]
  refine ⟨rfl, hvalue.symm, fun place hplace => ?_, _, FileSystem.read_of_write hbatch,
    FileSystem.read_of_write hfiles⟩
  rw [(FileSystem.write_ok_iff.mp hfiles).2, FileSystem.find?_put_of_ne hplace]

/-- The files of the survey, with the data edited after it was set up. -/
def editedFiles : FileSystem :=
  (plainSurvey.setUp emptyFiles).files.put ["jobs", "input", "survey_microdata.csv"]
    (.file "C\n".toUTF8)

/-- The survey is set up again, and its data stays as it was edited. -/
theorem setUp_again_keeps_edit :
    ((plainSurvey.setUp emptyFiles).value.setUp editedFiles).fault = none ∧
      ((plainSurvey.setUp emptyFiles).value.setUp editedFiles).files.find?
        ["jobs", "input", "survey_microdata.csv"] = some (.file "C\n".toUTF8) := by
  have hfirst : (plainSurvey.setUp emptyFiles).fault = none := by decide +kernel
  have hdirs : ∀ dir ∈ plainSurvey.directories, editedFiles.isDirectory dir = true := by
    decide +kernel
  have hwritable : editedFiles.isWritable plainSurvey.paths.batch = true := by decide +kernel
  have hagain := setUp_again hfirst hdirs hwritable
  refine ⟨hagain.1, (hagain.2.2.1 _ (by decide +kernel)).trans ?_⟩
  exact FileSystem.find?_put_self (by decide)

end Disclosure.Job
