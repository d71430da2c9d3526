import Disclosure.Proofs.Job.Endings
import Disclosure.Proofs.Slug
import Mathlib.Data.List.Nodup
import Mathlib.Data.List.Pairwise

/-!
# Files of tables

A table has a file that it is written to, an a priori file if cells of it are changed, and a recode
file for each column that it recodes by codes. All of them are named after the slug of the table.
Tables are kept apart by their names and not by their slugs, and an underscore between a slug and a
column looks the same as one inside either. So two of these files can have one place, although what
they belong to has different names.

`Meets` says when that happens, by the names alone: the directory and the job do not matter, and
files of different kinds never meet. Setting up gives every such file that has no place its own
exactly if no two of them meet.
-/

namespace Disclosure

/-- A file that belongs to a table. -/
inductive TableFile where
  | output (table : String)
  | overrides (table : String)
  | recode (table column : String)
  deriving DecidableEq, Repr

namespace TableFile

/-- The table that the file belongs to. -/
def table : TableFile → String
  | output table | overrides table | recode table _ => table

/-- The default place of the file. -/
def path (paths : JobPaths) : TableFile → Path
  | output table => paths.tableOutput table
  | overrides table => paths.apriori table
  | recode table column => paths.recode table column

/-- How the place of a recode file goes on behind the name of the job. -/
def recodeName (table column : String) : List (List Char) :=
  Path.continued (slug table ++ "_" ++ column ++ ".grc").toList

/-- The two files have one place. -/
def Meets : TableFile → TableFile → Prop
  | output table, output other => slug table = slug other
  | overrides table, overrides other => slug table = slug other
  | recode table column, recode other column' => recodeName table column = recodeName other column'
  | _, _ => False

/-- No column of the file is named in a way that leads up. -/
def Straight : TableFile → Prop
  | recode _ column => ".." ∉ (Path.mk column).names
  | _ => True

theorem Meets.symm {a b : TableFile} (h : a.Meets b) : b.Meets a := by
  cases a <;> cases b <;> first | exact Eq.symm h | exact h

/-! ## What places are made of -/

/-- The directory that the file is in. -/
def directory (paths : JobPaths) : TableFile → Path
  | output _ => paths.output
  | _ => paths.input

/-- What stands behind the name of the job. -/
def stem : TableFile → String
  | output table => slug table ++ ".csv"
  | overrides table => slug table ++ "_apriori.hst"
  | recode table column => slug table ++ "_" ++ column ++ ".grc"

/-- The ending that all files of this kind have. -/
def ending : TableFile → String
  | output _ => ".csv"
  | overrides _ => ".hst"
  | recode _ _ => ".grc"

theorem path_eq (paths : JobPaths) (a : TableFile) :
    a.path paths = (a.directory paths).join (paths.job ++ "_" ++ a.stem) := by
  cases a with
  | output table => exact congrArg paths.output.join String.append_assoc
  | overrides table => rfl
  | recode table column => rfl

theorem path_endsIn (paths : JobPaths) (a : TableFile) : (a.path paths).EndsIn a.ending := by
  cases a with
  | output table => exact paths.tableOutput_endsIn table
  | overrides table => exact paths.apriori_endsIn table
  | recode table column => exact paths.recode_endsIn table column

theorem ending_isEnding (a : TableFile) :
    Path.IsEnding a.ending.toList ∧ a.ending.toList.length = 4 := by
  cases a with
  | output table => exact (by decide : Path.IsEnding ".csv".toList ∧ ".csv".toList.length = 4)
  | overrides table => exact (by decide : Path.IsEnding ".hst".toList ∧ ".hst".toList.length = 4)
  | recode table column =>
    exact (by decide : Path.IsEnding ".grc".toList ∧ ".grc".toList.length = 4)

theorem directory_congr (paths : JobPaths) {a b : TableFile} (h : a.ending = b.ending) :
    a.directory paths = b.directory paths := by
  have hcsv : ".csv" ≠ ".hst" ∧ ".csv" ≠ ".grc" := by decide
  cases a <;> cases b <;> first
    | rfl
    | exact absurd h hcsv.1
    | exact absurd h hcsv.2
    | exact absurd h hcsv.1.symm
    | exact absurd h hcsv.2.symm

theorem stem_straight {a : TableFile} (h : a.Straight) : Path.Straight a.stem.toList := by
  have hslug : ∀ (table ending : String), Path.IsEnding ending.toList →
      Path.Straight (slug table ++ ending).toList := fun table ending he => by
    obtain ⟨hslash, c, hc, hdot⟩ := he
    rw [String.toList_append]
    refine Path.straight_of_ending ⟨?_, c, List.mem_append_right _ hc, hdot⟩
    simp [not_mem_slug (.inl rfl) table, hslash]
  cases a with
  | output table => exact hslug table ".csv" (by decide)
  | overrides table => exact hslug table "_apriori.hst" (by decide)
  | recode table column => exact Path.straight_recode table h

/-- A slug and an ending stay within one name, so they go on alike only for one slug. -/
theorem continued_slug_iff {table other ending : String} (h : '/' ∉ ending.toList) :
    Path.continued (slug table ++ ending).toList = Path.continued (slug other ++ ending).toList ↔
      slug table = slug other := by
  have hone : ∀ name : String, Path.continued (slug name ++ ending).toList =
      [(slug name).toList ++ ending.toList] := fun name => by
    rw [String.toList_append]
    exact Path.continued_of_not_mem (by simp [not_mem_slug (.inl rfl) name, h])
  rw [hone, hone, List.singleton_inj, List.append_cancel_right_eq, String.toList_inj]

/-- Files meet if they are of one kind and go on alike behind the name of the job. -/
theorem meets_iff_stem {a b : TableFile} : a.Meets b ↔
    a.ending = b.ending ∧ Path.continued a.stem.toList = Path.continued b.stem.toList := by
  have hcsv : ".csv" ≠ ".hst" ∧ ".csv" ≠ ".grc" ∧ ".hst" ≠ ".grc" := by decide
  obtain ⟨hch, hcg, hhg⟩ := hcsv
  cases a with
  | output table =>
    cases b with
    | output other =>
      exact (continued_slug_iff (by decide)).symm.trans (iff_and_self.mpr fun _ => rfl)
    | overrides other => exact iff_of_false id fun h => hch h.1
    | recode other column => exact iff_of_false id fun h => hcg h.1
  | overrides table =>
    cases b with
    | output other => exact iff_of_false id fun h => hch h.1.symm
    | overrides other =>
      exact (continued_slug_iff (by decide)).symm.trans (iff_and_self.mpr fun _ => rfl)
    | recode other column => exact iff_of_false id fun h => hhg h.1
  | recode table column =>
    cases b with
    | output other => exact iff_of_false id fun h => hcg h.1.symm
    | overrides other => exact iff_of_false id fun h => hhg h.1.symm
    | recode other column' => exact iff_and_self.mpr fun _ => rfl

instance (a b : TableFile) : Decidable (a.Meets b) :=
  decidable_of_iff _ meets_iff_stem.symm

/-- **Two files have the same path exactly if they meet.** -/
theorem meets_iff_sameAs (paths : JobPaths) (a b : TableFile) :
    a.Meets b ↔ (a.path paths).SameAs (b.path paths) := by
  rw [meets_iff_stem]
  by_cases h : a.ending = b.ending
  · -- files of one kind are in one directory and begin with the name of the job
    rw [path_eq, path_eq, directory_congr paths h, Path.join_sameAs_iff]
    exact and_iff_right h
  · obtain ⟨ha, hlen⟩ := a.ending_isEnding
    obtain ⟨hb, hlen'⟩ := b.ending_isEnding
    exact iff_of_false (fun hm => h hm.1) <|
      Path.not_sameAs_of_endings ha hb (hlen.trans hlen'.symm)
        (fun he => h (String.toList_inj.mp he)) (a.path_endsIn paths) (b.path_endsIn paths)

/-- Files that never lead up are one file exactly if they meet. -/
theorem meets_iff_target (paths : JobPaths) (fs : FileSystem) {a b : TableFile} (ha : a.Straight)
    (hb : b.Straight) : a.Meets b ↔ fs.target (a.path paths) = fs.target (b.path paths) := by
  rw [meets_iff_stem]
  by_cases h : a.ending = b.ending
  · rw [path_eq, path_eq, directory_congr paths h,
      Path.join_target_iff _ _ (stem_straight ha) (stem_straight hb)]
    exact and_iff_right h
  · obtain ⟨hea, hlen⟩ := a.ending_isEnding
    obtain ⟨heb, hlen'⟩ := b.ending_isEnding
    exact iff_of_false (fun hm => h hm.1) <|
      FileSystem.target_ne_of_endings hea heb (hlen.trans hlen'.symm)
        (fun he => h (String.toList_inj.mp he)) (a.path_endsIn paths) (b.path_endsIn paths)

/-- Different files have different paths exactly if none of them meet. -/
theorem pairwise_meets_iff {files : List TableFile} (h : files.Nodup) :
    files.Pairwise (fun a b => ¬ a.Meets b) ↔ ∀ a ∈ files, ∀ b ∈ files, a.Meets b → a = b := by
  have : Std.Symm fun a b : TableFile => ¬ a.Meets b := ⟨fun _ _ hab hba => hab hba.symm⟩
  constructor
  · intro hpair a ha b hb hmeet
    exact Classical.byContradiction fun hne => hpair.forall ha hb hne hmeet
  · intro hinj
    exact h.pairwise_of_forall_ne fun a ha b hb hne hmeet => hne (hinj a ha b hb hmeet)

end TableFile

end Disclosure
