import Disclosure.Proofs.Job.SetUp
import Disclosure.Proofs.Path

/-!
# Endings of job files

Every kind of file that a job writes has an ending of its own, and the ending comes last whatever
names of people stand before it. So a file of one kind is never in the way of a file of another:
data and tables end in `.csv`, metadata in `.rda`, hierarchies in `.hrc`, code lists in `.cdl`, a
priori files in `.hst`, recode files in `.grc`, and the batch file in `.arb`.
-/

namespace Disclosure

/-- The text of the path has this ending. -/
def Path.EndsIn (p : Path) (ending : String) : Prop :=
  ending.toList <:+ p.text.toList

namespace JobPaths

theorem suffix_append (front ending : String) : ending.toList <:+ (front ++ ending).toList := by
  rw [String.toList_append]
  exact List.suffix_append _ _

theorem inputFile_endsIn (p : JobPaths) (front ending : String) :
    (p.inputFile (front ++ ending)).EndsIn ending :=
  (suffix_append front ending).trans <|
    (suffix_append (p.job ++ "_") (front ++ ending)).trans (Path.suffix_join _ _)

theorem data_endsIn (p : JobPaths) (kind : String) : (p.data kind).EndsIn ".csv" :=
  p.inputFile_endsIn kind ".csv"

theorem metadata_endsIn (p : JobPaths) (kind : String) : (p.metadata kind).EndsIn ".rda" :=
  p.inputFile_endsIn kind ".rda"

theorem hierarchy_endsIn (p : JobPaths) (column : String) : (p.hierarchy column).EndsIn ".hrc" :=
  List.IsSuffix.trans (by decide) (p.inputFile_endsIn column "_hierarchy.hrc")

theorem codeList_endsIn (p : JobPaths) (column : String) : (p.codeList column).EndsIn ".cdl" :=
  List.IsSuffix.trans (by decide) (p.inputFile_endsIn column "_codelist.cdl")

theorem apriori_endsIn (p : JobPaths) (table : String) : (p.apriori table).EndsIn ".hst" :=
  List.IsSuffix.trans (by decide) (p.inputFile_endsIn (slug table) "_apriori.hst")

theorem recode_endsIn (p : JobPaths) (table column : String) :
    (p.recode table column).EndsIn ".grc" :=
  p.inputFile_endsIn (slug table ++ "_" ++ column) ".grc"

theorem tableOutput_endsIn (p : JobPaths) (table : String) :
    (p.tableOutput table).EndsIn ".csv" :=
  (suffix_append _ ".csv").trans (Path.suffix_join _ _)

theorem batch_endsIn (p : JobPaths) : p.batch.EndsIn ".arb" :=
  (suffix_append p.job ".arb").trans (Path.suffix_join _ _)

end JobPaths

theorem Path.of_mem_pending {given : Option Path} {usual p : Path}
    (h : p ∈ Path.pending given usual) : given = none ∧ p = usual := by
  rw [pending] at h
  split at h
  · exact absurd h (by simp)
  · rename_i hnone
    exact ⟨by simpa using hnone, List.mem_singleton.mp h⟩

theorem Column.pendingHierarchy_endsIn {paths : JobPaths} {c : Column} {p : Path}
    (h : p ∈ c.pendingHierarchy paths) : p.EndsIn ".hrc" := by
  rw [pendingHierarchy] at h
  split at h
  · rw [(Path.of_mem_pending h).2]
    exact paths.hierarchy_endsIn c.name
  · exact absurd h (by simp)

theorem Column.pendingCodeList_endsIn {paths : JobPaths} {c : Column} {p : Path}
    (h : p ∈ c.pendingCodeList paths) : p.EndsIn ".cdl" := by
  rw [pendingCodeList] at h
  split at h
  · rw [(Path.of_mem_pending h).2]
    exact paths.codeList_endsIn c.name
  · exact absurd h (by simp)

theorem Table.pendingOverrides_endsIn {paths : JobPaths} {name : String} {t : Table} {p : Path}
    (h : p ∈ t.pendingOverrides paths name) : p.EndsIn ".hst" := by
  rw [pendingOverrides] at h
  split at h
  · rw [(Path.of_mem_pending h).2]
    exact paths.apriori_endsIn name
  · exact absurd h (by simp)

theorem Table.pendingRecode_endsIn {paths : JobPaths} {name : String} {r : String × Recode}
    {p : Path} (h : p ∈ pendingRecode paths name r) : p.EndsIn ".grc" := by
  obtain ⟨column, recode⟩ := r
  cases recode with
  | file path => exact absurd h (by simp [pendingRecode])
  | level level => exact absurd h (by simp [pendingRecode])
  | tree tree =>
    rw [(Path.of_mem_pending h).2]
    exact paths.recode_endsIn name column

theorem Table.pending_endsIn {paths : JobPaths} {t : String × Table} {p : Path}
    (h : p ∈ pending paths t) : ∃ e ∈ [".csv", ".hst", ".grc"], p.EndsIn e := by
  obtain ⟨name, t⟩ := t
  rcases List.mem_append.mp h with h | h
  · rcases List.mem_append.mp h with h | h
    · rw [(Path.of_mem_pending h).2]
      exact ⟨".csv", by simp, paths.tableOutput_endsIn name⟩
    · exact ⟨".hst", by simp, pendingOverrides_endsIn h⟩
  · obtain ⟨r, _, hr⟩ := List.mem_flatMap.mp h
    exact ⟨".grc", by simp, pendingRecode_endsIn hr⟩

/-! ## Files that are never in the way of each other -/

/-- The endings of all files that setting up writes. -/
def JobPaths.endings : List String :=
  [".csv", ".rda", ".hrc", ".cdl", ".hst", ".grc", ".arb"]

theorem JobPaths.endings_isEnding :
    ∀ e ∈ endings, Path.IsEnding e.toList ∧ e.toList.length = 4 := by
  decide

/-- Paths in two of these endings never lead to one file. -/
theorem Path.EndsIn.apart {p q : Path} {e e' : String} (hp : p.EndsIn e) (hq : q.EndsIn e')
    (he : e ∈ JobPaths.endings) (he' : e' ∈ JobPaths.endings) (hne : e ≠ e') (fs : FileSystem) :
    fs.target p ≠ fs.target q := by
  obtain ⟨hending, hlen⟩ := JobPaths.endings_isEnding e he
  obtain ⟨hending', hlen'⟩ := JobPaths.endings_isEnding e' he'
  exact FileSystem.target_ne_of_endings hending hending' (hlen.trans hlen'.symm)
    (fun h => hne (String.toList_inj.mp h)) hp hq

/-- Between the two, no files were written but such with these endings. -/
def FileSystem.WritesOnly (endings : List String) (fs fs' : FileSystem) : Prop :=
  ∃ paths : List Path, fs.Keeps paths fs' ∧ ∀ p ∈ paths, ∃ e ∈ endings, p.EndsIn e

namespace FileSystem.WritesOnly

theorem trans {endings more : List String} {fs₁ fs₂ fs₃ : FileSystem} (h : WritesOnly endings fs₁ fs₂)
    (h' : WritesOnly more fs₂ fs₃) : WritesOnly (endings ++ more) fs₁ fs₃ := by
  obtain ⟨paths, hkeeps, hend⟩ := h
  obtain ⟨paths', hkeeps', hend'⟩ := h'
  refine ⟨paths ++ paths', ?_, fun p hp => ?_⟩
  · exact (hkeeps.mono fun p hp => List.mem_append_left _ hp).trans
      (hkeeps'.mono fun p hp => List.mem_append_right _ hp)
  · rcases List.mem_append.mp hp with hp | hp
    · obtain ⟨e, he, hpe⟩ := hend p hp
      exact ⟨e, List.mem_append_left _ he, hpe⟩
    · obtain ⟨e, he, hpe⟩ := hend' p hp
      exact ⟨e, List.mem_append_right _ he, hpe⟩

/-- A file with another ending stays as it is. -/
theorem read {endings : List String} {fs fs' : FileSystem} {p : Path} {e : String}
    {content : ByteArray} (h : WritesOnly endings fs fs')
    (hother : ∀ e' ∈ endings, e' ∈ JobPaths.endings ∧ e' ≠ e) (hp : p.EndsIn e)
    (he : e ∈ JobPaths.endings) (hread : fs.read p = .ok content) : fs'.read p = .ok content := by
  obtain ⟨paths, hkeeps, hend⟩ := h
  refine hkeeps.read (fun q hq => ?_) hread
  obtain ⟨e', hwritten, hqe⟩ := hend q hq
  obtain ⟨he', hne⟩ := hother e' hwritten
  exact hqe.apart hp he' he hne fs

end FileSystem.WritesOnly

/-- Work writes files with the endings of what it has pending. -/
theorem Settles.writesOnly {α : Type} {work : Work α} {x settled y : α} {pending : List Path}
    {endings : List String} (h : Settles work x settled pending)
    (hend : ∀ p ∈ pending, ∃ e ∈ endings, p.EndsIn e) {fs fs' : FileSystem}
    (hdone : (work x fs).Done y fs') : fs.WritesOnly endings fs' := by
  refine ⟨pending, ?_, hend⟩
  rw [← hdone.files]
  exact h.keeps fs

namespace Job

/-- What is pending is the metadata file, or ends in another way. -/
theorem pending_endsIn {j : Job} {p : Path} (hp : p ∈ j.pending) :
    (j.input.metadataPath = none ∧ p = j.paths.metadata j.input.kind.name) ∨
      ∃ e ∈ [".csv", ".hrc", ".cdl", ".hst", ".grc"], p.EndsIn e := by
  -- what is pending, in the order in which it is listed
  rcases List.mem_append.mp hp with hp | hp
  · rw [(Path.of_mem_pending hp).2]
    exact .inr ⟨".csv", by simp, j.paths.data_endsIn _⟩
  rcases List.mem_append.mp hp with hp | hp
  · obtain ⟨c, _, hc⟩ := List.mem_flatMap.mp hp
    exact .inr ⟨".hrc", by simp, Column.pendingHierarchy_endsIn hc⟩
  rcases List.mem_append.mp hp with hp | hp
  · obtain ⟨c, _, hc⟩ := List.mem_flatMap.mp hp
    exact .inr ⟨".cdl", by simp, Column.pendingCodeList_endsIn hc⟩
  rcases List.mem_append.mp hp with hp | hp
  · exact .inl (Path.of_mem_pending hp)
  · obtain ⟨t, _, ht⟩ := List.mem_flatMap.mp hp
    obtain ⟨e, he, hend⟩ := Table.pending_endsIn ht
    have hmore : ∀ e ∈ [".csv", ".hst", ".grc"], e ∈ [".csv", ".hrc", ".cdl", ".hst", ".grc"] := by
      decide
    exact .inr ⟨e, hmore e he, hend⟩

/-- **A metadata file that has its place is not written over**, neither by a file that is still to
be written nor by the batch file. -/
theorem metadata_apart {j : Job} (hplace : j.input.metadataPath.isSome = true) (fs : FileSystem)
    (kind : String) {p : Path} (hp : p ∈ j.pending ∨ p = j.paths.batch) :
    fs.target p ≠ fs.target (j.paths.metadata kind) := by
  have hmetadata := j.paths.metadata_endsIn kind
  rcases hp with hp | rfl
  · rcases pending_endsIn hp with ⟨hnone, _⟩ | ⟨e, he, hend⟩
    · rw [hnone] at hplace
      exact absurd hplace (by simp)
    · have hother : ∀ e ∈ [".csv", ".hrc", ".cdl", ".hst", ".grc"],
          e ∈ JobPaths.endings ∧ e ≠ ".rda" := by decide
      exact hend.apart hmetadata (hother e he).1 (by decide) (hother e he).2 fs
  · exact j.paths.batch_endsIn.apart hmetadata (by decide) (by decide) (by decide) fs

/-- **The batch file is not among what is pending.** -/
theorem batch_apart {j : Job} (fs : FileSystem) {p : Path} (hp : p ∈ j.pending) :
    fs.target p ≠ fs.target j.paths.batch := by
  have hbatch := j.paths.batch_endsIn
  rcases pending_endsIn hp with ⟨_, rfl⟩ | ⟨e, he, hend⟩
  · exact (j.paths.metadata_endsIn _).apart hbatch (by decide) (by decide) (by decide) fs
  · have hother : ∀ e ∈ [".csv", ".hrc", ".cdl", ".hst", ".grc"],
        e ∈ JobPaths.endings ∧ e ≠ ".arb" := by decide
    exact hend.apart hbatch (hother e he).1 (by decide) (hother e he).2 fs

end Job

end Disclosure
