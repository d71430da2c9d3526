import Disclosure.Proofs.Job.Commands
import Disclosure.Proofs.Job.Contents

/-!
# Setting up again after a repair

Problems are told last, when everything but the batch file has been written. So a job that was
refused has its metadata file already, and notes the place of it. When the columns are repaired and
the job is set up again, the metadata file has a place and is left alone: it says what was true
before the repair.

Nothing else could bring it up to date either. Whatever is still to be written has another ending
than the metadata file, so the file keeps, byte for byte, what the refused job wrote.
-/

namespace Disclosure

/-- The problems that a fault tells about. -/
def Fault.problems? : Fault → Option (List String)
  | .inconsistent problems => some problems
  | _ => none

theorem Fault.problems?_eq_some {f : Fault} {problems : List String} :
    f.problems? = some problems ↔ f = .inconsistent problems := by
  cases f <;> simp [problems?]

namespace Job

/-! ## Repairs -/

/-- A change to a column, by which a problem may be solved. -/
inductive Repair where
  | totalCode (column code : String)
  | hierarchy (column : String) (hierarchy : Hierarchy)
  | codeList (column : String) (codeList : Option CodeList)
  | length (column : String) (length : Option Nat)

/-- The column that is repaired. -/
def Repair.column : Repair → String
  | totalCode column _ | hierarchy column _ | codeList column _ | length column _ => column

/-- What is changed. -/
def Repair.change : Repair → Column → Column
  | totalCode _ given => (·.setTotalCode given)
  | hierarchy _ given => (·.setHierarchy given)
  | codeList _ given => (·.setCodeList given)
  | length _ given => (·.setLength given)

/-- The job with a column repaired; a column that is not there changes nothing. -/
def repair (j : Job) (r : Repair) : Job :=
  match j.input.updateColumn r.column fun c => .ok (r.change c) with
  | .ok input => { j with input }
  | .error _ => j

/-- The job with one repair after another. -/
def repairs (j : Job) (rs : List Repair) : Job :=
  rs.foldl repair j

theorem repair_columns (j : Job) (r : Repair) :
    ∃ columns, j.repair r = { j with input := { j.input with columns } } := by
  rw [repair, Input.updateColumn]
  cases j.input.column? r.column with
  | none => exact ⟨j.input.columns, rfl⟩
  | some c => exact ⟨_, rfl⟩

/-- Repairs change columns and nothing else. -/
theorem repairs_columns (j : Job) (rs : List Repair) :
    ∃ columns, j.repairs rs = { j with input := { j.input with columns } } := by
  induction rs generalizing j with
  | nil => exact ⟨j.input.columns, rfl⟩
  | cons r rest ih =>
    obtain ⟨columns, hfirst⟩ := j.repair_columns r
    obtain ⟨more, hrest⟩ := ih (j.repair r)
    refine ⟨more, ?_⟩
    show (j.repair r).repairs rest = _
    rw [hrest, hfirst]

/-! ## Setting up again -/

/-- A job with problems has everything in its place but the batch file. -/
theorem refused_inversion {j : Job} {fs : FileSystem} {problems : List String}
    (h : (j.setUp fs).fault = some (.inconsistent problems)) :
    ∃ made, Written j fs made (j.setUp fs).files ∧ (j.setUp fs).value = j.placed := by
  cases setUp_outcome j fs with
  | stopped fault hfault hother =>
    exact absurd (Option.some.inj (hfault.symm.trans h)) (hother problems)
  | refused made hwritten hvalue => exact ⟨made, hwritten, hvalue⟩
  | finished made written hwritten hvalue hfault =>
    exact absurd (hfault.symm.trans h) (by simp)

/-- **Once a job is repaired, its metadata file says what it said before.** A job was refused for
its problems, its columns were repaired, and it was set up. The metadata that the new batch file
opens is the file at the usual place of the job, and no other; it is as the refused job left it, and
says what the repaired job has it say exactly if the repairs did not change what there is to say. -/
theorem setUp_repaired {j : Job} {fs : FileSystem} {problems : List String} {rs : List Repair}
    (hown : j.input.metadataPath = none ∨
      j.input.metadataPath = some (j.paths.metadata j.input.kind.name))
    (hrefused : (j.setUp fs).fault = some (.inconsistent problems))
    (hagain : (((j.setUp fs).value.repairs rs).setUp (j.setUp fs).files).fault = none) :
    let refused := j.setUp fs
    let again := (refused.value.repairs rs).setUp refused.files
    let usual := j.paths.metadata j.input.kind.name
    ∃ commands, again.value.commands = .ok commands ∧
      again.files.read j.paths.batch = .ok (renderBatch commands).toUTF8 ∧
      (∀ path, .openMetadata path ∈ commands ↔ path = usual) ∧
      (∀ content, refused.files.read usual = .ok content →
        again.files.read usual = .ok content) ∧
      (j.input.metadataPath = none → ∃ before after,
        refused.value.input.metadataText = .ok before ∧
        again.value.input.metadataText = .ok after ∧
        refused.files.read usual = .ok before.toUTF8 ∧
        again.files.read usual = .ok before.toUTF8 ∧
        (again.files.read usual = .ok after.toUTF8 ↔ after = before)) := by
  intro refused again usual
  let repaired := refused.value.repairs rs
  obtain ⟨made, hwritten, hvalue⟩ := refused_inversion hrefused
  obtain ⟨columns, hrepaired⟩ := refused.value.repairs_columns rs
  obtain ⟨made', written, commands, hwritten', hvalue', _, hcommands, hbatch⟩ :=
    setUp_inversion hagain
  have hpaths : repaired.paths = j.paths := by
    show (refused.value.repairs rs).paths = j.paths
    rw [hrepaired]
    show refused.value.paths = j.paths
    rw [hvalue, placed_paths]
  have hplace : repaired.input.metadataPath = some usual := by
    show (refused.value.repairs rs).input.metadataPath = some usual
    rw [hrepaired]
    show refused.value.input.metadataPath = some usual
    rw [hvalue, placed_metadataPath]
    rcases hown with h | h <;> rw [h] <;> rfl
  have hplaced : again.value.input.metadataPath = some usual := by
    rw [hvalue', placed_metadataPath, hplace]
    rfl
  -- the metadata file has its place by now, so nothing that is written later meets it
  have hapart : ∀ (fs : FileSystem) (p : Path), p ∈ repaired.pending ∨ p = repaired.paths.batch →
      fs.target p ≠ fs.target usual := by
    intro fs p hp
    have h := metadata_apart (by rw [hplace]; rfl) fs j.input.kind.name hp
    rw [hpaths] at h
    exact h
  have hkeeps : ∀ content, refused.files.read usual = .ok content →
      again.files.read usual = .ok content := by
    intro content hread
    have hbefore := hwritten'.keeps.read (fun p hp => hapart _ p (.inl hp)) hread
    refine (FileSystem.keeps_write hbatch).read (fun p hp => ?_) hbefore
    exact hapart _ p (.inr (List.mem_singleton.mp hp))
  have hcommands' : again.value.commands = .ok commands := by
    rw [hvalue']
    exact hcommands
  refine ⟨commands, hcommands', ?_, fun path => ?_, hkeeps, fun hnone => ?_⟩
  · rw [← hpaths]
    exact FileSystem.read_of_write hbatch
  · rw [openMetadata_mem_iff hcommands', hplaced, Option.some.injEq]
    exact eq_comm
  · obtain ⟨before, hbefore, hread⟩ := hwritten.metadata hnone
    obtain ⟨after, hafter⟩ := repaired.placed_metadataText
    have hold := hkeeps _ hread
    refine ⟨before, after, by rw [hvalue]; exact hbefore, by rw [hvalue']; exact hafter, hread,
      hold, ?_⟩
    rw [hold, Except.ok.injEq, String.toUTF8_eq_toByteArray, String.toUTF8_eq_toByteArray,
      String.toByteArray_inj]
    exact eq_comm

/-- The survey, refused for its column. -/
def refusedSurvey : Step Job :=
  flatSurvey.setUp emptyFiles

/-- The survey, set up again once its column has a total code. -/
def repairedSurvey : Step Job :=
  (refusedSurvey.value.repairs [.totalCode "region" "All"]).setUp refusedSurvey.files

theorem refusedSurvey_fault : refusedSurvey.fault = some (.inconsistent
    ["Variable region not recodable. Add a hierarchy or total code to resolve."]) := by
  have hproblems : refusedSurvey.fault.bind Fault.problems? = some
      ["Variable region not recodable. Add a hierarchy or total code to resolve."] := by
    decide +kernel
  obtain ⟨fault, hfault, htold⟩ := Option.bind_eq_some_iff.mp hproblems
  rw [hfault, Fault.problems?_eq_some.mp htold]

theorem repairedSurvey_fault : repairedSurvey.fault = none := by
  decide +kernel

/-- Where the survey keeps its metadata. -/
def surveyMetadata : Path :=
  ⟨"/jobs/input/survey_microdata.rda"⟩

/-- The survey is refused for its column, and set up with its metadata as it was. -/
theorem setUp_repaired_survey :
    ∃ commands before after, repairedSurvey.value.commands = .ok commands ∧
      repairedSurvey.files.read flatSurvey.paths.batch = .ok (renderBatch commands).toUTF8 ∧
      (∀ path, .openMetadata path ∈ commands ↔ path = surveyMetadata) ∧
      (∀ content, refusedSurvey.files.read surveyMetadata = .ok content →
        repairedSurvey.files.read surveyMetadata = .ok content) ∧
      refusedSurvey.value.input.metadataText = .ok before ∧
      repairedSurvey.value.input.metadataText = .ok after ∧
      refusedSurvey.files.read surveyMetadata = .ok before.toUTF8 ∧
      repairedSurvey.files.read surveyMetadata = .ok before.toUTF8 ∧
      (repairedSurvey.files.read surveyMetadata = .ok after.toUTF8 ↔ after = before) := by
  have hown : flatSurvey.input.metadataPath = none := by decide +kernel
  have husual : flatSurvey.paths.metadata flatSurvey.input.kind.name = surveyMetadata := by
    decide +kernel
  obtain ⟨commands, hcommands, hbatch, hopened, hkept, hmetadata⟩ :=
    setUp_repaired (.inl hown) refusedSurvey_fault repairedSurvey_fault
  obtain ⟨before, after, htexts⟩ := hmetadata hown
  rw [husual] at hopened hkept htexts
  exact ⟨commands, before, after, hcommands, hbatch, hopened, hkept, htexts⟩

/-- **The metadata of a repaired survey is not what the survey has it say**, although its place was
left to the job. -/
theorem repaired_metadata_outdated :
    flatSurvey.input.metadataPath = none ∧
      (∃ problems, refusedSurvey.fault = some (.inconsistent problems)) ∧
      repairedSurvey.fault = none ∧
      ∃ commands path text, repairedSurvey.value.commands = .ok commands ∧
        .openMetadata path ∈ commands ∧ repairedSurvey.value.input.metadataText = .ok text ∧
        repairedSurvey.files.read path ≠ .ok text.toUTF8 := by
  have hplace : repairedSurvey.value.input.metadataPath = some surveyMetadata := by
    decide +kernel
  have htext : repairedSurvey.value.input.metadataText.toOption =
      some "\t<SEPARATOR> ,\nregion 1\n\t<RECODABLE>\n\t<TOTCODE> All\n" := by decide +kernel
  have hold : (repairedSurvey.files.read surveyMetadata).toOption ≠
      some "\t<SEPARATOR> ,\nregion 1\n\t<RECODABLE>\n\t<TOTCODE> All\n".toUTF8 := by
    decide +kernel
  obtain ⟨_, _, commands, _, hvalue, _, hcommands, _⟩ := setUp_inversion repairedSurvey_fault
  have hmade : repairedSurvey.value.commands = .ok commands := hvalue ▸ hcommands
  refine ⟨rfl, ⟨_, refusedSurvey_fault⟩, repairedSurvey_fault, commands, _, _, hmade,
    (openMetadata_mem_iff hmade _).mpr hplace, ok_of_toOption htext, fun hread => hold ?_⟩
  rw [hread]
  rfl

end Job

end Disclosure
