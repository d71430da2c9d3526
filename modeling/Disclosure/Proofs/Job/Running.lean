import Disclosure.Proofs.Job.Endings
import Disclosure.Proofs.Job.Faults

/-!
# Running a job

The engine is only called once everything is known to be right: the job could be set up, and the
batch file that the engine is handed says what the job has it say. If setting up fails, nothing at
all depends on the engine, and a batch file that an earlier run has left stays as it is. This is so
because the batch file is written last, and nothing else that is written has its ending.

What an engine does is not known, so that it is called is said by what the run depends on: of the
engine it is at most the answer to one call, made with the files as setting up has left them.
-/

namespace Disclosure

namespace RunReport

theorem isSuccess_iff {r : RunReport} : r.isSuccess = true ↔ r.exitCode = some 0 := by
  rw [isSuccess, beq_iff_eq]

theorem check_of_success {r : RunReport} (h : r.exitCode = some 0) : r.check = .ok r :=
  if_pos (isSuccess_iff.mpr h)

/-- Any other report is handed on inside a fault, also one without an exit code. -/
theorem check_of_failure {r : RunReport} (h : r.exitCode ≠ some 0) :
    r.check = .error (.engineFailed r) :=
  if_neg (mt isSuccess_iff.mp h)

end RunReport

namespace Job

/-- Where setting up fails, there is a batch file afterwards exactly if there was one before, and it
is the same. -/
theorem batch_of_fault {j : Job} {fs : FileSystem} {fault : Fault}
    (h : (j.setUp fs).fault = some fault) (content : ByteArray) :
    (j.setUp fs).files.find? (fs.target j.paths.batch) = some (.file content) ↔
      fs.find? (fs.target j.paths.batch) = some (.file content) := by
  cases setUp_outcome j fs with
  | stopped fault hfault hother hkeeps => exact hkeeps.file_iff (fun p => batch_apart fs) content
  | refused made hwritten hvalue fault hfault =>
    exact hwritten.keeps.file_iff (fun p => batch_apart fs) content
  | finished made written hwritten hvalue hfault => exact absurd (hfault.symm.trans h) (by simp)

/-- A run in which setting up has failed. -/
structure NotStarted (j : Job) (fs : FileSystem) (fault : Fault) (run : Engine → Run) : Prop where
  /-- Whatever the engine is, the run is the same. -/
  engine : ∀ engine other, run engine = run other
  /-- The engine is not called. -/
  calls : ∀ engine, (run engine).calls = []
  /-- The run has failed for what setting up has failed for. -/
  result : ∀ engine, (run engine).result = .error fault
  /-- That is one of the things that setting up can fail for. -/
  cause : j.CanFailFor fault
  /-- A batch file is neither made nor changed. -/
  batch : ∀ engine content,
    (run engine).files.find? (fs.target j.paths.batch) = some (.file content) ↔
      fs.find? (fs.target j.paths.batch) = some (.file content)

/-- A run that has come to the engine, which answers the call as it does. -/
structure Started (j : Job) (s : Step Job) (run : Engine → Run) : Prop where
  /-- Of the engine nothing matters but its answer to the one call. -/
  engine : ∀ engine other, engine s.value.engineCall s.files = other s.value.engineCall s.files →
    run engine = run other
  /-- The engine is called once. -/
  calls : ∀ engine, (run engine).calls = [s.value.engineCall]
  /-- It is handed the batch file of the job, which says what the commands of the job are. -/
  batch : s.value.engineCall.batch = j.paths.batch ∧
    ∃ commands, s.value.commands = .ok commands ∧
      s.files.read s.value.engineCall.batch = .ok (renderBatch commands).toUTF8
  /-- The files are left as the engine leaves them. -/
  files : ∀ engine, (run engine).files = (engine s.value.engineCall s.files).2
  /-- The run is a success exactly if the engine reports one, by its exit code. -/
  success : ∀ engine report, (run engine).result = .ok report ↔
    (engine s.value.engineCall s.files).1 = .ok report ∧ report.exitCode = some 0
  /-- Any other report is in the fault, as it was given. -/
  failure : ∀ engine report, (engine s.value.engineCall s.files).1 = .ok report →
    report.exitCode ≠ some 0 → (run engine).result = .error (.engineFailed report)
  /-- An engine that could not be run is a fault of the run. -/
  unable : ∀ engine fault, (engine s.value.engineCall s.files).1 = .error fault →
    (run engine).result = .error fault

theorem run_of_fault {j : Job} {fs : FileSystem} {fault : Fault}
    (h : (j.setUp fs).fault = some fault) (engine : Engine) :
    j.run engine fs =
      ⟨(j.setUp fs).value, (j.setUp fs).files, (j.setUp fs).events, [], .error fault⟩ := by
  simp only [run, h]

theorem notStarted {j : Job} {fs : FileSystem} {fault : Fault}
    (h : (j.setUp fs).fault = some fault) : NotStarted j fs fault fun engine => j.run engine fs where
  engine engine other := by rw [run_of_fault h, run_of_fault h]
  calls engine := by rw [run_of_fault h]
  result engine := by rw [run_of_fault h]
  cause := setUp_canFailFor h
  batch engine content := by
    rw [run_of_fault h]
    exact batch_of_fault h content

/-- What a run is, once the job is set up, by the answer of the engine. -/
theorem run_of_done {j : Job} {fs : FileSystem} (h : (j.setUp fs).fault = none) (engine : Engine) :
    let s := j.setUp fs
    let answer := engine s.value.engineCall s.files
    (j.run engine fs).calls = [s.value.engineCall] ∧ (j.run engine fs).files = answer.2 ∧
      (j.run engine fs).result = answer.1.bind RunReport.check := by
  simp only [run, h]
  rcases engine (j.setUp fs).value.engineCall (j.setUp fs).files with ⟨fault | report, after⟩
  · exact ⟨rfl, rfl, rfl⟩
  · exact ⟨rfl, rfl, rfl⟩

theorem started {j : Job} {fs : FileSystem} (h : (j.setUp fs).fault = none) :
    Started j (j.setUp fs) fun engine => j.run engine fs where
  engine engine other hanswer := by simp only [run, h, hanswer]
  calls engine := (run_of_done h engine).1
  batch := by
    obtain ⟨_, _, commands, _, hvalue, _, hcommands, hbatch⟩ := setUp_inversion h
    have hpath : (j.setUp fs).value.engineCall.batch = j.paths.batch := by
      rw [hvalue, engineCall, placed_paths]
    refine ⟨hpath, commands, by rw [hvalue]; exact hcommands, ?_⟩
    rw [hpath]
    exact FileSystem.read_of_write hbatch
  files engine := (run_of_done h engine).2.1
  success engine report := by
    rw [(run_of_done h engine).2.2]
    cases (engine (j.setUp fs).value.engineCall (j.setUp fs).files).1 with
    | error fault => simp [Except.bind]
    | ok given =>
      rw [Except.bind]
      by_cases hcode : given.exitCode = some 0
      · rw [RunReport.check_of_success hcode]
        refine ⟨fun he => ?_, And.left⟩
        rw [← Except.ok.inj he]
        exact ⟨rfl, hcode⟩
      · rw [RunReport.check_of_failure hcode]
        refine ⟨fun he => absurd he (by simp), fun ⟨he, hzero⟩ => ?_⟩
        rw [← Except.ok.inj he] at hzero
        exact absurd hzero hcode
  failure engine report hreport hcode := by
    rw [(run_of_done h engine).2.2, hreport]
    exact RunReport.check_of_failure hcode
  unable engine fault hfault := by rw [(run_of_done h engine).2.2, hfault]; rfl

/-- **A run calls the engine at most once, and exactly if the job could be set up.** -/
theorem run_calls_engine (j : Job) (fs : FileSystem) :
    (∀ engine, (j.run engine fs).calls.length ≤ 1) ∧
    (∀ engine, (j.run engine fs).calls ≠ [] ↔ (j.setUp fs).fault = none) ∧
    (∀ fault, (j.setUp fs).fault = some fault →
      NotStarted j fs fault fun engine => j.run engine fs) ∧
    ((j.setUp fs).fault = none → Started j (j.setUp fs) fun engine => j.run engine fs) := by
  have hcalls : ∀ engine, (j.run engine fs).calls =
      if (j.setUp fs).fault = none then [(j.setUp fs).value.engineCall] else [] := by
    intro engine
    cases h : (j.setUp fs).fault with
    | none => exact (started h).calls engine
    | some fault => exact (notStarted h).calls engine
  refine ⟨fun engine => ?_, fun engine => ?_, fun fault => notStarted, started⟩
  · rw [hcalls engine]
    split <;> simp
  · rw [hcalls engine]
    split <;> simp [*]

/-- An engine that touches no file and reports an exit code, or none. -/
def reporting (exitCode : Option Int) : Engine :=
  fun call fs => (.ok (.ofExit exitCode call.logbook), fs)

/-- The plain survey is run: by its exit code the run is a success, and without one it has failed. The
flat survey has the same name and does not come so far: it leaves the batch file as it is. -/
theorem plainSurvey_calls_engine :
    (plainSurvey.run (reporting (some 0)) emptyFiles).result =
        .ok (.ofExit (some 0) (some ⟨"/jobs/survey_logbook.txt"⟩)) ∧
      (plainSurvey.run (reporting none) emptyFiles).result =
        .error (.engineFailed (.ofExit none (some ⟨"/jobs/survey_logbook.txt"⟩))) ∧
      (plainSurvey.run (reporting none) emptyFiles).calls.length = 1 ∧
      (let files := (plainSurvey.setUp emptyFiles).files
      let r := flatSurvey.run (reporting (some 0)) files
      r.calls = [] ∧ ∃ content, files.find? ["jobs", "survey.arb"] = some (.file content) ∧
        r.files.find? ["jobs", "survey.arb"] = some (.file content)) := by
  have hdone : (plainSurvey.setUp emptyFiles).fault = none := by decide +kernel
  have hstarted := (run_calls_engine plainSurvey emptyFiles).2.2.2 hdone
  have hcall : (plainSurvey.setUp emptyFiles).value.engineCall.logbook =
      some ⟨"/jobs/survey_logbook.txt"⟩ := by decide +kernel
  refine ⟨(hstarted.success _ _).mpr ⟨?_, rfl⟩, hstarted.failure _ _ ?_ (by decide), ?_, ?_⟩
  · rw [reporting, hcall]
  · rw [reporting, hcall]
  · rw [hstarted.calls]
    rfl
  have hfails : (flatSurvey.setUp (plainSurvey.setUp emptyFiles).files).fault.isSome = true := by
    decide +kernel
  obtain ⟨fault, hfault⟩ := Option.isSome_iff_exists.mp hfails
  have hstopped := (run_calls_engine flatSurvey _).2.2.1 fault hfault
  refine ⟨hstopped.calls _, ?_⟩
  -- the batch file that stands there is the one that the engine was handed
  obtain ⟨_, commands, _, hread⟩ := hstarted.batch
  obtain ⟨place, hleads, hfile⟩ := FileSystem.read_ok_iff.mp hread
  have hplace : place = ["jobs", "survey.arb"] := hleads.eq_target.trans (by decide +kernel)
  rw [hplace] at hfile
  exact ⟨_, hfile, (hstopped.batch _ _).mpr hfile⟩

end Job

end Disclosure
