import Disclosure.Proofs.Job.Script
import Disclosure.Proofs.Job.SetUp

/-!
# What setting up can fail for

A job can be asked for its metadata and for its commands at any time, and both fail if they are to
name a file that has no place yet. Setting up asks for them as well, but late enough: hierarchies and
code lists are written before the metadata is, and everything has its place before the commands are
made.

So only four things can go wrong. There is no table, a file cannot be written, the job has problems,
or the rules of a table do not go together. `CanFailFor` lists them with what is known of each.
-/

namespace Disclosure

/-- The fault tells of something that is to be named and has no file. -/
def Fault.LacksFile : Fault → Prop
  | .hierarchyWithoutFile _ | .codeListWithoutFile _ | .missingArtifact _ | .unresolved _ _ => True
  | _ => False

/-- The tree and the code list of a column have files, as far as the column has them. -/
structure Column.HasFiles (c : Column) : Prop where
  /-- A tree has its file. -/
  hierarchy : ∀ tree, c.hierarchy = .tree tree → tree.path.isSome
  /-- A code list has its file. -/
  codeList : ∀ codeList, c.codeList = some codeList → codeList.path.isSome

/-- Every file that the commands of a table name has a place. -/
structure Table.HasPlaces (t : Table) : Prop where
  /-- The protected table is written somewhere. -/
  output : t.outputPath.isSome
  /-- Changes to cells have a file. -/
  overrides : t.HasOverridesFile
  /-- Recodes by listed codes have files. -/
  recodes : t.HasRecodeFiles

/-- Every file that the commands of a job name has a place. -/
structure Job.HasPlaces (j : Job) : Prop where
  /-- The data has a file. -/
  data : j.input.dataPath.isSome
  /-- The metadata has a file. -/
  metadata : j.input.metadataPath.isSome
  /-- Every table has its files. -/
  tables : ∀ t ∈ j.tables, t.2.HasPlaces

/-! ## With nothing pending, everything has its place -/

theorem Column.hasFiles_of_pending {c : Column} {paths : JobPaths}
    (hh : c.pendingHierarchy paths = []) (hl : c.pendingCodeList paths = []) : c.HasFiles where
  hierarchy tree htree := by
    rw [pendingHierarchy, htree] at hh
    exact Path.isSome_of_pending hh
  codeList codeList hlist := by
    rw [pendingCodeList, hlist] at hl
    exact Path.isSome_of_pending hl

theorem Table.hasPlaces_of_pending {paths : JobPaths} {t : String × Table}
    (h : pending paths t = []) : t.2.HasPlaces := by
  obtain ⟨name, t⟩ := t
  obtain ⟨hfiles, hrecodes⟩ := List.append_eq_nil_iff.mp h
  obtain ⟨houtput, hoverrides⟩ := List.append_eq_nil_iff.mp hfiles
  refine ⟨Path.isSome_of_pending houtput, fun o ho => ?_, fun recode hr => ?_⟩
  · rw [pendingOverrides, ho] at hoverrides
    exact Path.isSome_of_pending hoverrides
  · have hone := List.flatMap_eq_nil_iff.mp hrecodes recode hr
    obtain ⟨column, recode⟩ := recode
    cases recode with
    | file path => rfl
    | level level => rfl
    | tree tree =>
      -- a recode by listed codes goes by the file that its list has
      show (tree.path.map RecodeTarget.file).isSome
      rw [Option.isSome_map]
      exact Path.isSome_of_pending hone

namespace Job

theorem hasPlaces_of_pending {j : Job} (h : j.pending = []) : j.HasPlaces := by
  obtain ⟨hdata, hrest⟩ := List.append_eq_nil_iff.mp h
  obtain ⟨_, hrest⟩ := List.append_eq_nil_iff.mp hrest
  obtain ⟨_, hrest⟩ := List.append_eq_nil_iff.mp hrest
  obtain ⟨hmetadata, htables⟩ := List.append_eq_nil_iff.mp hrest
  exact ⟨Path.isSome_of_pending hdata, Path.isSome_of_pending hmetadata,
    fun t ht => Table.hasPlaces_of_pending (List.flatMap_eq_nil_iff.mp htables t ht)⟩

theorem placed_hasPlaces (j : Job) : j.placed.HasPlaces :=
  hasPlaces_of_pending j.placed_pending

/-! ## Commands of a job that has its places -/

/-- A pass over the tables fails where it fails for one of them. -/
theorem of_forTables_error {pass : Nat → String → Table → Except Fault (List BatchCommand)}
    {fault : Fault} : ∀ {n : Nat} {tables : List (String × Table)},
      forTables pass n tables = .error fault →
      ∃ k name t, (name, t) ∈ tables ∧ pass k name t = .error fault
  | _, [], h => absurd h (by simp [forTables])
  | n, (name, t) :: rest, h => by
    rw [forTables] at h
    rcases Fault.bind_eq_error_iff.mp h with hfirst | ⟨here, _, h⟩
    · exact ⟨n, name, t, List.mem_cons_self, hfirst⟩
    rcases Fault.bind_eq_error_iff.mp h with hrest | ⟨after, _, h⟩
    · obtain ⟨k, other, s, hmem, hs⟩ := of_forTables_error hrest
      exact ⟨k, other, s, List.mem_cons_of_mem _ hmem, hs⟩
    · exact absurd h (by simp [pure, Except.pure])

/-- **With its places filled in, a job lacks commands only if the rules of a table do not compose.** -/
theorem commands_error {j : Job} {fault : Fault} (htables : j.tables ≠ []) (hplaces : j.HasPlaces)
    (h : j.commands = .error fault) :
    ∃ name t e, (name, t) ∈ j.tables ∧ t.rules.compose = .error e ∧ fault = .tableRule name e := by
  obtain ⟨data, hdata⟩ := Option.isSome_iff_exists.mp hplaces.data
  obtain ⟨metadata, hmetadata⟩ := Option.isSome_iff_exists.mp hplaces.metadata
  unfold commands at h
  simp only [List.isEmpty_iff, htables, if_false, hdata, hmetadata, required, Fault.ok_bind] at h
  rcases Fault.bind_eq_error_iff.mp h with hspecified | ⟨specified, _, hlater⟩
  · obtain ⟨k, name, t, ht, hspecify⟩ := of_forTables_error hspecified
    rw [specification] at hspecify
    split at hspecify
    · rename_i e hcompose
      exact ⟨name, t, e, ht, hcompose, (Except.error.inj hspecify).symm⟩
    · exact absurd hspecify (by simp)
  -- the two passes that follow ask for files alone, and every table has its files
  rcases Fault.bind_eq_error_iff.mp hlater with hchanged | ⟨changed, _, hlast⟩
  · obtain ⟨k, name, t, ht, hprotect⟩ := of_forTables_error hchanged
    have hfiles := hplaces.tables _ ht
    have hok := (protection_eq_ok_iff k name t _).mpr ⟨⟨hfiles.overrides, hfiles.recodes⟩, rfl⟩
    exact absurd (hok.symm.trans hprotect) (by simp)
  rcases Fault.bind_eq_error_iff.mp hlast with hwritten | ⟨written, _, hmade⟩
  · obtain ⟨k, name, t, ht, hwrite⟩ := of_forTables_error hwritten
    have hok := (writing_eq_ok_iff k name t _).mpr ⟨(hplaces.tables _ ht).output, rfl⟩
    exact absurd (hok.symm.trans hwrite) (by simp)
  · exact absurd hmade (by simp [pure, Except.pure])

/-! ## Every fault of setting up -/

/-- What setting up a job can fail for. -/
def CanFailFor (j : Job) : Fault → Prop
  | .noTables => j.tables = []
  | .file _ _ => True
  | .inconsistent problems => problems ≠ [] ∧ problems = j.placed.problems
  | .tableRule name e => ∃ t, (name, t) ∈ j.placed.tables ∧ t.rules.compose = .error e
  | _ => False

theorem CanFailFor.not_lacksFile {j : Job} {fault : Fault} (h : j.CanFailFor fault) :
    ¬ fault.LacksFile := by
  cases fault <;> first | exact id | exact absurd h id

/-- The pieces of setting up that come before the metadata is written. -/
def untilMetadata (j : Job) : List (Work Job) :=
  [requireTables, createDirectories j.directories, setUpData, forColumns setUpHierarchy,
    forColumns setUpCodeList]

/-- The pieces of setting up that come before the commands are made. -/
def untilBatch (j : Job) : List (Work Job) :=
  j.untilMetadata ++ [setUpMetadata, setUpTables, reportProblems]

theorem of_requireTables_done {j k : Job} {fs files : FileSystem}
    (h : (requireTables j fs).Done k files) : k = j ∧ j.tables ≠ [] := by
  have hvalue := h.value
  have hfault := h.fault
  rw [requireTables] at hvalue hfault
  split at hvalue
  · rename_i hnone
    rw [if_pos hnone] at hfault
    exact absurd hfault (by simp [Step.failed])
  · rename_i hsome
    exact ⟨hvalue.symm, fun hnil => hsome (List.isEmpty_iff.mpr hnil)⟩

theorem of_createDirectories_done {j k : Job} {dirs : List Path} {fs files : FileSystem}
    (h : (createDirectories dirs j fs).Done k files) : k = j :=
  h.value.symm.trans (createDirectories_keeps j dirs fs).1

/-- A piece that tells about problems hands the job on only if there are none. -/
theorem of_reportProblems_done {j k : Job} {fs files : FileSystem}
    (h : (reportProblems j fs).Done k files) : k = j := by
  have hvalue := h.value
  rw [reportProblems] at hvalue
  split at hvalue <;> exact hvalue.symm

/-- The job, when its metadata is written. -/
theorem of_untilMetadata_done {j k : Job} {fs files : FileSystem}
    (h : (Step.inOrder j.untilMetadata j fs).Done k files) :
    k = (j.placeData.placeColumns Column.placeHierarchy).placeColumns Column.placeCodeList := by
  obtain ⟨a, fs₁, ha, h₁⟩ := Step.of_inOrder_cons_done h
  obtain ⟨rfl, _⟩ := of_requireTables_done ha
  obtain ⟨b, fs₂, hb, h₂⟩ := Step.of_inOrder_cons_done h₁
  obtain rfl := of_createDirectories_done hb
  obtain ⟨c, fs₃, hc, h₃⟩ := Step.of_inOrder_cons_done h₂
  obtain rfl := (settles_data b).done hc
  obtain ⟨d, fs₄, hd, h₄⟩ := Step.of_inOrder_cons_done h₃
  obtain rfl := (settles_columns Column.settles_hierarchy _).done hd
  obtain ⟨e, fs₅, he, h₅⟩ := Step.of_inOrder_cons_done h₄
  obtain rfl := (settles_columns Column.settles_codeList _).done he
  exact (Step.of_inOrder_nil_done h₅).1

/-- The job, when its commands are made. -/
theorem of_untilBatch_done {j k : Job} {fs files : FileSystem}
    (h : (Step.inOrder j.untilBatch j fs).Done k files) : k = j.placed := by
  obtain ⟨a, fs₁, ha, h₁⟩ := Step.of_inOrder_cons_done h
  obtain ⟨rfl, _⟩ := of_requireTables_done ha
  obtain ⟨b, fs₂, hb, h₂⟩ := Step.of_inOrder_cons_done h₁
  obtain rfl := of_createDirectories_done hb
  -- what is left are the pieces that write, and then the problems
  have hrow : ((Step.inOrder writings b fs₂).andThen (Step.inOrder [reportProblems])).Done k files := by
    rw [← Step.inOrder_append]
    exact h₂
  obtain ⟨c, fs₃, hc, h₃⟩ := Step.of_andThen_done hrow
  obtain rfl := b.settles.done hc
  obtain ⟨d, fs₄, hd, h₄⟩ := Step.of_inOrder_cons_done h₃
  obtain rfl := of_reportProblems_done hd
  exact (Step.of_inOrder_nil_done h₄).1

/-- The last two pieces tell about problems, or lack commands for want of rules that compose. -/
theorem batch_canFailFor {j : Job} {fault : Fault} {fs : FileSystem} (htables : j.tables ≠ [])
    (h : (Step.inOrder [reportProblems, writeBatch] j.placed fs).fault = some fault) :
    j.CanFailFor fault := by
  rcases Step.of_andThen_fault h with hreport | ⟨k, fs₁, hk, hlast⟩
  · rw [reportProblems, check] at hreport
    by_cases hnone : j.placed.problems.isEmpty = true
    · rw [if_pos hnone] at hreport
      exact absurd hreport (by simp [Step.done])
    · rw [if_neg hnone] at hreport
      obtain rfl := Option.some.inj hreport
      exact ⟨fun hnil => hnone (List.isEmpty_iff.mpr hnil), rfl⟩
  obtain rfl := of_reportProblems_done hk
  rcases Step.of_andThen_fault hlast with hbatch | ⟨_, _, _, hnil⟩
  · rw [writeBatch] at hbatch
    split at hbatch
    · rename_i other hother
      obtain rfl := Option.some.inj hbatch
      have hplaced : j.placed.tables ≠ [] := by
        rw [placed_tables]
        exact fun hnil => htables (List.map_eq_nil_iff.mp hnil)
      obtain ⟨name, t, e, ht, hcompose, rfl⟩ := commands_error hplaced j.placed_hasPlaces hother
      exact ⟨t, ht, hcompose⟩
    · split at hbatch
      · obtain rfl := Option.some.inj hbatch
        exact trivial
      · exact absurd hbatch (by simp [Step.done])
  · exact absurd hnil (by simp [Step.inOrder, Step.done])

/-- **Setting up fails for one of four things.** -/
theorem setUp_canFailFor {j : Job} {fs : FileSystem} {fault : Fault}
    (h : (j.setUp fs).fault = some fault) : j.CanFailFor fault := by
  rw [setUp_eq] at h
  rcases Step.of_andThen_fault h with hstart | ⟨a, made, ha, hrest⟩
  · rcases Step.of_andThen_fault hstart with hrequire | ⟨b, fs₁, _, hmake⟩
    · rw [requireTables] at hrequire
      split at hrequire
      · rename_i hnone
        obtain rfl := Option.some.inj hrequire
        exact List.isEmpty_iff.mp hnone
      · exact absurd hrequire (by simp [Step.done])
    · obtain ⟨path, e, rfl⟩ := createDirectories_fault hmake
      exact trivial
  obtain ⟨b, fs₁, hb, hmade⟩ := Step.of_andThen_done ha
  obtain ⟨rfl, htables⟩ := of_requireTables_done hb
  obtain rfl := of_createDirectories_done hmade
  rcases Step.of_andThen_fault hrest with hwrite | ⟨c, fs₂, hc, hbatch⟩
  · obtain ⟨path, e, rfl⟩ := a.settles.fault hwrite
    exact trivial
  · obtain rfl := a.settles.done hc
    exact batch_canFailFor htables hbatch

/-- **Setting up never lacks a file.** Whatever a job is made of, it does not fail because something
has no file: the pieces that need files come after those that write them. When the metadata is
written every tree and every code list has its file, and when the commands are made everything that
they name has its place. -/
theorem setUp_never_lacks_file (j : Job) (fs : FileSystem) :
    j.setUp fs = (Step.inOrder (j.untilBatch ++ [writeBatch]) j fs).inside (.setup j.name) ∧
    (∀ fault, (j.setUp fs).fault = some fault → ¬ fault.LacksFile ∧ j.CanFailFor fault) ∧
    (∀ k files, (Step.inOrder j.untilMetadata j fs).Done k files →
      (∀ c ∈ k.input.columns, c.HasFiles) ∧ ∃ text, k.input.metadataText = .ok text) ∧
    (∀ k files, (Step.inOrder j.untilBatch j fs).Done k files → k.HasPlaces) := by
  refine ⟨rfl, fun fault h => ?_, fun k files h => ?_, fun k files h => ?_⟩
  · have hcan := setUp_canFailFor h
    exact ⟨hcan.not_lacksFile, hcan⟩
  · rw [of_untilMetadata_done h]
    have hpending := j.placeData.placeColumns_pending
    exact ⟨fun c hc => Column.hasFiles_of_pending (hpending c hc).1 (hpending c hc).2,
      Input.metadataText_ok hpending⟩
  · rw [of_untilBatch_done h]
    exact j.placed_hasPlaces

/-- The full survey comes to its metadata and to its commands, and has the files that they need. On
a computer where its directory cannot be made, it fails for that. -/
theorem fullSurvey_never_lacks_file :
    (∀ c ∈ (Step.inOrder fullSurvey.untilMetadata fullSurvey emptyFiles).value.input.columns,
      c.HasFiles) ∧
    (Step.inOrder fullSurvey.untilBatch fullSurvey emptyFiles).value.HasPlaces ∧
    ∃ fault, (fullSurvey.setUp (emptyFiles.put ["jobs"] (.file .empty))).fault = some fault ∧
      ¬ fault.LacksFile := by
  obtain ⟨_, _, hmetadata, hbatch⟩ := setUp_never_lacks_file fullSurvey emptyFiles
  refine ⟨(hmetadata _ _ (Step.done_of_fault_none (by decide +kernel))).1,
    hbatch _ _ (Step.done_of_fault_none (by decide +kernel)), ?_⟩
  have hfails : (fullSurvey.setUp (emptyFiles.put ["jobs"] (.file .empty))).fault.isSome = true := by
    decide +kernel
  obtain ⟨fault, hfault⟩ := Option.isSome_iff_exists.mp hfails
  exact ⟨fault, hfault, ((setUp_never_lacks_file fullSurvey _).2.1 fault hfault).1⟩

end Job

end Disclosure
