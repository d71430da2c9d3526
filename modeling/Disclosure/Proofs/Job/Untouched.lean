import Disclosure.Proofs.Column
import Disclosure.Proofs.Job.Endings

/-!
# What setting up leaves alone

Setting up writes and notes places in nine pieces, and any of them may be the last one. What it may
do is said without looking at the pieces: everything about a job that can have a file has a `Place`,
and all else is what is left when the places are taken out of the job, which is what `bare` does. A
job was only filled in if it is as bare as it was and every place is as it was, or was open and is
now the usual one.

Being filled in is handed on from one piece to the next, so it holds wherever the row stops. The
files are followed in the same way by `Keeps`: nothing is written but the batch file and what goes
to an open place.
-/

namespace Disclosure

/-! ## Places -/

/-- Where a file is: the place that it has, and the one that it gets if it has none. -/
structure Place where
  given : Option Path
  usual : Path

/-- The place is as it was, or it was open and is now the usual one. -/
structure Place.FilledIn (before after : Place) : Prop where
  /-- The usual place is decided by names. -/
  usual : after.usual = before.usual
  /-- Only an open place changes. -/
  given : after.given = before.given ∨ before.given = none ∧ after.given = some before.usual

namespace Place

theorem FilledIn.refl (p : Place) : p.FilledIn p :=
  ⟨rfl, .inl rfl⟩

theorem FilledIn.trans {p q r : Place} (h : p.FilledIn q) (h' : q.FilledIn r) : p.FilledIn r := by
  refine ⟨h'.usual.trans h.usual, ?_⟩
  rcases h'.given with hsame | ⟨hopen, hfilled⟩
  · rw [hsame]
    exact h.given
  · -- a place that was open in between was open before
    rcases h.given with hbefore | ⟨_, hbetween⟩
    · exact .inr ⟨hbefore ▸ hopen, h.usual ▸ hfilled⟩
    · exact absurd (hbetween.symm.trans hopen) (by simp)

theorem filledIn_usual {given : Option Path} (h : given = none) (usual : Path) :
    FilledIn ⟨given, usual⟩ ⟨some usual, usual⟩ :=
  ⟨rfl, .inr ⟨h, rfl⟩⟩

theorem filledIn_all_refl (ps : List Place) : List.Forall₂ FilledIn ps ps :=
  List.forall₂_same.mpr fun p _ => .refl p

theorem filledIn_all_trans : ∀ {ps qs rs : List Place}, List.Forall₂ FilledIn ps qs →
    List.Forall₂ FilledIn qs rs → List.Forall₂ FilledIn ps rs
  | [], [], [], .nil, .nil => .nil
  | _ :: _, _ :: _, _ :: _, .cons h hrest, .cons h' hrest' =>
    .cons (h.trans h') (filledIn_all_trans hrest hrest')

end Place

/-! ## Being filled in -/

/-- Without its places a value is what it was, and of the places only open ones have changed. -/
structure Fills {α β : Type} (bare : α → β) (places : α → List Place) (before after : α) : Prop where
  /-- What there is besides places. -/
  bare : bare after = bare before
  /-- The places in their order. -/
  places : List.Forall₂ Place.FilledIn (places before) (places after)

namespace Fills

variable {α β : Type} {bare : α → β} {places : α → List Place}

theorem refl (x : α) : Fills bare places x x :=
  ⟨rfl, Place.filledIn_all_refl _⟩

theorem trans {x y z : α} (h : Fills bare places x y) (h' : Fills bare places y z) :
    Fills bare places x z :=
  ⟨h'.bare.trans h.bare, Place.filledIn_all_trans h.places h'.places⟩

/-- What holds of every value of a list holds of the list. -/
theorem list : ∀ {xs ys : List α}, List.Forall₂ (Fills bare places) xs ys →
    Fills (List.map bare) (List.flatMap places) xs ys
  | [], [], .nil => .refl []
  | x :: xs, y :: ys, .cons h hrest => by
    have hlist := list hrest
    refine ⟨?_, ?_⟩
    · rw [List.map_cons, List.map_cons, h.bare, hlist.bare]
    · rw [List.flatMap_cons, List.flatMap_cons]
      exact List.rel_append h.places hlist.places

/-- Work that fills places in, wherever it stops, does so over a list. -/
theorem each {work : Work α} (hwork : ∀ x fs, Fills bare places x (work x fs).value) (xs : List α)
    (fs : FileSystem) : Fills (List.map bare) (List.flatMap places) xs (Step.each work xs fs).value :=
  list <| Step.each_forall₂ (fun _ y fs h => h.trans (hwork y fs)) fs
    (List.forall₂_same.mpr fun x _ => .refl x)

/-- Saving leaves the value as it was, or notes the file. -/
theorem saving {γ : Type} {x : α} {before after : γ} {f : γ → α} {fs : FileSystem} {path : Path}
    {content : ByteArray} {event : γ → Event} {saved : Except Fault (γ × FileSystem)}
    (hsaved : Saves fs path content after saved) (hbefore : Fills bare places x (f before))
    (hafter : Fills bare places x (f after)) :
    Fills bare places x ((Step.ofSaving before fs event saved).map f).value := by
  rw [hsaved]
  split
  · exact hbefore
  · exact hafter

end Fills

/-! ## Columns -/

/-- The hierarchy without its place. -/
def Hierarchy.bare : Hierarchy → Hierarchy
  | .tree h => .tree { h with path := none }
  | other => other

namespace Column

/-- The column without its places, and without the length that it remembers. -/
def bare (c : Column) : Column :=
  { c with
    hierarchy := c.hierarchy.bare
    codeList := c.codeList.map fun codeList => { codeList with path := none }
    resolvedLength := none }

/-- The places of a column. -/
def places (paths : JobPaths) (c : Column) : List Place :=
  (c.hierarchy.tree?.toList.map fun tree => ⟨tree.path, paths.hierarchy c.name⟩) ++
    c.codeList.toList.map fun codeList => ⟨codeList.path, paths.codeList c.name⟩

/-- The length follows from what there is besides places. -/
theorem resolveLength_bare (c : Column) : c.bare.resolveLength = c.resolveLength := by
  have hcodes : c.hierarchy.bare.codeLength? = c.hierarchy.codeLength? := by
    cases c.hierarchy <;> rfl
  have hlist : c.bare.codeList.map CodeList.codeLength = c.codeList.map CodeList.codeLength := by
    rw [bare]
    cases c.codeList <;> rfl
  show (c.explicitLength <|> c.hierarchy.bare.codeLength? <|>
    c.bare.codeList.map CodeList.codeLength <|> c.valueLength).getD _ = _
  rw [hcodes, hlist]
  rfl

/-- The place of a tree is filled in, or only the length is forgotten. -/
theorem fills_tree {paths : JobPaths} {c : Column} {tree : TreeHierarchy}
    (htree : c.hierarchy = .tree tree) {path : Option Path}
    (h : Place.FilledIn ⟨tree.path, paths.hierarchy c.name⟩ ⟨path, paths.hierarchy c.name⟩) :
    Fills bare (places paths) c (c.editHierarchy fun _ => .tree { tree with path }) := by
  refine ⟨?_, ?_⟩
  · simp only [bare, editHierarchy, forgetLength, Hierarchy.bare, htree]
  · rw [places, htree]
    exact .cons h (Place.filledIn_all_refl _)

/-- The place of a code list is filled in, or only the length is forgotten. -/
theorem fills_list {paths : JobPaths} {c : Column} {codeList : CodeList}
    (hlist : c.codeList = some codeList) {path : Option Path}
    (h : Place.FilledIn ⟨codeList.path, paths.codeList c.name⟩ ⟨path, paths.codeList c.name⟩) :
    Fills bare (places paths) c (c.editCodeList fun _ => { codeList with path }) := by
  refine ⟨?_, ?_⟩
  · simp only [bare, editCodeList, forgetLength, hlist, Option.map_some]
  · rw [places, places, editCodeList, forgetLength, hlist]
    exact List.rel_append (Place.filledIn_all_refl _) (.cons h .nil)

theorem fills_hierarchy (paths : JobPaths) (c : Column) (fs : FileSystem) :
    Fills bare (places paths) c (Job.setUpHierarchy paths c fs).value := by
  rw [Job.setUpHierarchy]
  split
  · rename_i tree htree
    split
    · exact .refl c
    · rename_i hgiven
      have hopen : tree.path = none := by simpa using hgiven
      exact .saving (tree.saves fs _ _) (fills_tree htree (.refl _))
        (fills_tree htree (Place.filledIn_usual hopen _))
  · exact .refl c

theorem fills_codeList (paths : JobPaths) (c : Column) (fs : FileSystem) :
    Fills bare (places paths) c (Job.setUpCodeList paths c fs).value := by
  rw [Job.setUpCodeList]
  split
  · exact .refl c
  · rename_i codeList hlist
    split
    · exact .refl c
    · rename_i hgiven
      have hopen : codeList.path = none := by simpa using hgiven
      exact .saving (codeList.saves fs _ _) (fills_list hlist (.refl _))
        (fills_list hlist (Place.filledIn_usual hopen _))

theorem open_of_mem_pending {paths : JobPaths} {c : Column} {p : Path}
    (h : p ∈ c.pendingHierarchy paths ∨ p ∈ c.pendingCodeList paths) :
    ∃ q ∈ c.places paths, q.given = none ∧ q.usual = p := by
  rcases h with h | h
  · rw [pendingHierarchy] at h
    split at h
    · rename_i tree htree
      obtain ⟨hopen, rfl⟩ := Path.of_mem_pending h
      refine ⟨⟨tree.path, paths.hierarchy c.name⟩, List.mem_append_left _ ?_, hopen, rfl⟩
      rw [htree]
      exact List.mem_cons_self
    · exact absurd h (by simp)
  · rw [pendingCodeList] at h
    split at h
    · rename_i codeList hlist
      obtain ⟨hopen, rfl⟩ := Path.of_mem_pending h
      refine ⟨⟨codeList.path, paths.codeList c.name⟩, List.mem_append_right _ ?_, hopen, rfl⟩
      rw [hlist]
      exact List.mem_cons_self
    · exact absurd h (by simp)

theorem measured_hierarchy {paths : JobPaths} {c : Column} (h : c.Measured) (fs : FileSystem) :
    (Job.setUpHierarchy paths c fs).value.Measured := by
  rw [Job.setUpHierarchy]
  split
  · split
    · exact h
    · exact measured_forgetLength _
  · exact h

theorem measured_codeList {paths : JobPaths} {c : Column} (h : c.Measured) (fs : FileSystem) :
    (Job.setUpCodeList paths c fs).value.Measured := by
  rw [Job.setUpCodeList]
  split
  · exact h
  · split
    · exact h
    · exact measured_forgetLength _

/-- Columns that differ in places only have codes of one length. -/
theorem length_of_bare {c d : Column} (h : d.bare = c.bare) (hc : c.Measured) (hd : d.Measured) :
    d.length = c.length := by
  rw [hc.length_eq, hd.length_eq, ← resolveLength_bare d, h, resolveLength_bare]

theorem lengths_of_bare : ∀ {cs ds : List Column}, ds.map bare = cs.map bare →
    (∀ c ∈ cs, c.Measured) → (∀ d ∈ ds, d.Measured) → ds.map length = cs.map length
  | [], [], _, _, _ => rfl
  | [], _ :: _, h, _, _ => absurd h (by simp)
  | _ :: _, [], h, _, _ => absurd h (by simp)
  | c :: cs, d :: ds, h, hcs, hds => by
    injection h with hbare hrest
    obtain ⟨hc, hcs⟩ := List.forall_mem_cons.mp hcs
    obtain ⟨hd, hds⟩ := List.forall_mem_cons.mp hds
    rw [List.map_cons, List.map_cons, length_of_bare hbare hc hd, lengths_of_bare hrest hcs hds]

end Column

/-! ## Tables -/

/-- The recode without its place. -/
def Recode.bare : Recode → Recode
  | .tree r => .tree { r with path := none }
  | other => other

namespace Table

/-- The table without its places. -/
def bare (t : Table) : Table :=
  { t with
    overrides := t.overrides.map fun overrides => { overrides with path := none }
    recodes := t.recodes.map fun r => (r.1, r.2.bare)
    outputPath := none }

/-- The place of a recode by listed codes. -/
def recodePlaces (paths : JobPaths) (name : String) : String × Recode → List Place
  | (column, .tree recode) => [⟨recode.path, paths.recode name column⟩]
  | _ => []

/-- The places of a table. -/
def places (paths : JobPaths) (name : String) (t : Table) : List Place :=
  ⟨t.outputPath, paths.tableOutput name⟩ ::
    (t.overrides.toList.map fun overrides => ⟨overrides.path, paths.apriori name⟩) ++
    t.recodes.flatMap (recodePlaces paths name)

theorem fills_output (paths : JobPaths) (name : String) (t : Table) (fs : FileSystem) :
    Fills bare (places paths name) t (Job.setUpOutput paths name t fs).value := by
  refine ⟨rfl, .cons ?_ (Place.filledIn_all_refl _)⟩
  show Place.FilledIn ⟨t.outputPath, _⟩ ⟨t.outputPath <|> some (paths.tableOutput name), _⟩
  cases t.outputPath with
  | none => exact Place.filledIn_usual rfl _
  | some path => exact .refl _

/-- The place of the changes is filled in, or nothing has happened. -/
theorem fills_changes {paths : JobPaths} {name : String} {t : Table} {overrides : CellOverrides}
    (hoverrides : t.overrides = some overrides) {path : Option Path}
    (h : Place.FilledIn ⟨overrides.path, paths.apriori name⟩ ⟨path, paths.apriori name⟩) :
    Fills bare (places paths name) t { t with overrides := some { overrides with path } } := by
  refine ⟨?_, ?_⟩
  · simp only [bare, hoverrides, Option.map_some]
  · rw [places, places, hoverrides]
    exact .cons (.refl _) (.cons h (Place.filledIn_all_refl _))

theorem fills_overrides (paths : JobPaths) (name : String) (t : Table) (fs : FileSystem) :
    Fills bare (places paths name) t (Job.setUpOverrides paths name t fs).value := by
  rw [Job.setUpOverrides]
  split
  · exact .refl t
  · rename_i overrides hoverrides
    split
    · exact .refl t
    · rename_i hgiven
      have hopen : overrides.path = none := by simpa using hgiven
      exact .saving (overrides.saves fs _) (fills_changes hoverrides (.refl _))
        (fills_changes hoverrides (Place.filledIn_usual hopen _))

theorem fills_recode (paths : JobPaths) (name : String) (lengthOf : String → Nat)
    (r : String × Recode) (fs : FileSystem) :
    Fills (fun r => (r.1, r.2.bare)) (recodePlaces paths name) r
      (Job.setUpRecode paths name lengthOf r fs).value := by
  obtain ⟨column, recode⟩ := r
  cases recode with
  | file path => exact .refl _
  | level level => exact .refl _
  | tree tree =>
    rw [Job.setUpRecode]
    dsimp only
    split
    · exact .refl _
    · rename_i hgiven
      have hopen : tree.path = none := by simpa using hgiven
      exact .saving (tree.saves fs _ _) (.refl _)
        ⟨rfl, .cons (Place.filledIn_usual hopen _) .nil⟩

theorem fills_recodes (paths : JobPaths) (name : String) (lengthOf : String → Nat) (t : Table)
    (fs : FileSystem) :
    Fills bare (places paths name) t (Job.setUpRecodes paths name lengthOf t fs).value := by
  have hrecodes := Fills.each (fills_recode paths name lengthOf) t.recodes fs
  refine ⟨?_, .cons (.refl _) (List.rel_append (Place.filledIn_all_refl _) hrecodes.places)⟩
  exact congrArg (fun recodes => ({ t.bare with recodes } : Table)) hrecodes.bare

theorem fills (paths : JobPaths) (lengthOf : String → Nat) (t : String × Table)
    (fs : FileSystem) :
    Fills (fun t => (t.1, t.2.bare)) (fun t => places paths t.1 t.2) t
      (Job.setUpTable paths lengthOf t fs).value := by
  obtain ⟨name, t⟩ := t
  have hrow : Fills bare (places paths name) t (Step.inOrder [Job.setUpOutput paths name,
      Job.setUpOverrides paths name, Job.setUpRecodes paths name lengthOf] t fs).value := by
    refine Step.inOrder_preserves (P := fun a _ => Fills bare (places paths name) t a)
      (fun work hwork a files ha => ?_) t fs (.refl t)
    simp only [List.mem_cons, List.not_mem_nil, or_false] at hwork
    rcases hwork with rfl | rfl | rfl
    · exact ha.trans (fills_output paths name a files)
    · exact ha.trans (fills_overrides paths name a files)
    · exact ha.trans (fills_recodes paths name lengthOf a files)
  exact ⟨congrArg (Prod.mk name) hrow.bare, hrow.places⟩

theorem open_of_mem_pending {paths : JobPaths} {t : String × Table} {p : Path}
    (h : p ∈ pending paths t) : ∃ q ∈ t.2.places paths t.1, q.given = none ∧ q.usual = p := by
  obtain ⟨name, t⟩ := t
  rcases List.mem_append.mp h with h | h
  · rcases List.mem_append.mp h with h | h
    · obtain ⟨hopen, rfl⟩ := Path.of_mem_pending h
      exact ⟨_, List.mem_cons_self, hopen, rfl⟩
    · rw [pendingOverrides] at h
      split at h
      · rename_i overrides hoverrides
        obtain ⟨hopen, rfl⟩ := Path.of_mem_pending h
        refine ⟨⟨overrides.path, paths.apriori name⟩, List.mem_cons_of_mem _ ?_, hopen, rfl⟩
        refine List.mem_append_left _ ?_
        rw [hoverrides]
        exact List.mem_cons_self
      · exact absurd h (by simp)
  · obtain ⟨⟨column, recode⟩, hr, hp⟩ := List.mem_flatMap.mp h
    cases recode with
    | file path => exact absurd hp (by simp [pendingRecode])
    | level level => exact absurd hp (by simp [pendingRecode])
    | tree tree =>
      obtain ⟨hopen, rfl⟩ := Path.of_mem_pending hp
      refine ⟨⟨tree.path, paths.recode name column⟩, List.mem_cons_of_mem _ ?_, hopen, rfl⟩
      exact List.mem_append_right _ (List.mem_flatMap.mpr ⟨_, hr, List.mem_cons_self⟩)

end Table

/-! ## Jobs -/

/-- The input without its places. -/
def Input.bare (i : Input) : Input :=
  { i with columns := i.columns.map Column.bare, dataPath := none, metadataPath := none }

namespace Job

/-- The job without its places. -/
def bare (j : Job) : Job :=
  ({ j with input := j.input.bare } : Job).withTables (j.tables.map fun t => (t.1, t.2.bare))

/-- The places of a job. -/
def places (j : Job) : List Place :=
  ⟨j.input.dataPath, j.paths.data j.input.kind.name⟩ ::
    ⟨j.input.metadataPath, j.paths.metadata j.input.kind.name⟩ ::
    (j.input.columns.flatMap (Column.places j.paths) ++
      j.tables.flatMap fun t => t.2.places j.paths t.1)

theorem fills_data (j : Job) (fs : FileSystem) : Fills bare places j (setUpData j fs).value := by
  rw [setUpData]
  split
  · exact .refl j
  · rename_i hopen
    exact .saving (j.input.saves_data fs _) (.refl j)
      ⟨rfl, .cons (Place.filledIn_usual hopen _) (Place.filledIn_all_refl _)⟩

theorem fills_columns {work : JobPaths → Work Column}
    (hwork : ∀ paths c fs, Fills Column.bare (Column.places paths) c (work paths c fs).value)
    (j : Job) (fs : FileSystem) : Fills bare places j (forColumns work j fs).value := by
  have hcolumns := Fills.each (hwork j.paths) j.input.columns fs
  refine ⟨?_, .cons (.refl _) (.cons (.refl _) ?_)⟩
  · exact congrArg (fun columns => ({ j with input := { j.input.bare with columns } } : Job).withTables
      (j.tables.map fun t => (t.1, t.2.bare))) hcolumns.bare
  · exact List.rel_append hcolumns.places (Place.filledIn_all_refl _)

theorem fills_metadata (j : Job) (fs : FileSystem) :
    Fills bare places j (setUpMetadata j fs).value := by
  rw [setUpMetadata]
  split
  · exact .refl j
  · rename_i hopen
    dsimp only
    cases htext : j.input.metadataText with
    | error fault =>
      rw [Input.saveMetadata, htext]
      exact .refl j
    | ok text =>
      exact .saving (Input.saves_metadata htext fs _) (.refl j)
        ⟨rfl, .cons (.refl _) (.cons (Place.filledIn_usual hopen _) (Place.filledIn_all_refl _))⟩

/-- Putting tables back has nothing to do with places of the input. -/
theorem withTables_bare (j : Job) (ts us : List (String × Table)) :
    ({ j.withTables ts with input := (j.withTables ts).input.bare } : Job).withTables us =
      (({ j with input := j.input.bare } : Job).withTables ts).withTables us := by
  congr 1
  unfold withTables
  by_cases hempty : j.ownTables.isEmpty = true
  · rw [if_pos hempty, if_pos hempty]
    cases hroles : j.input.roles with
    | microdata roles => simp [Input.bare, hroles]
    | tableData roles => cases ts <;> simp [Input.bare, hroles]
  · rw [if_neg hempty, if_neg hempty]

theorem fills_tables (j : Job) (fs : FileSystem) :
    Fills bare places j (setUpTables j fs).value := by
  have htables := Fills.each (Table.fills j.paths j.columnLength) j.tables fs
  set ts := (Step.each (setUpTable j.paths j.columnLength) j.tables fs).value with hts
  have hnames : ts.map (·.1) = j.tables.map (·.1) := by
    simpa [Function.comp_def] using congrArg (List.map (·.1)) htables.bare
  have hback : (j.withTables ts).tables = ts := tables_withTables hnames
  obtain ⟨hcolumns, hkind, hdata, hmetadata⟩ := withTables_input j ts
  have hpaths := withTables_paths j ts
  show Fills bare places j (j.withTables ts)
  refine ⟨?_, ?_⟩
  · rw [bare, hback, htables.bare, withTables_bare]
    exact withTables_withTables hnames (by simp; rfl)
  · rw [places, places, hback, hcolumns, hkind, hdata, hmetadata, hpaths]
    exact .cons (.refl _) (.cons (.refl _) (List.rel_append (Place.filledIn_all_refl _) htables.places))

/-- **Wherever setting up stops, places were filled in and nothing else has happened to the job.** -/
theorem setUp_fills (j : Job) (fs : FileSystem) : Fills bare places j (j.setUp fs).value := by
  refine setUp_preserves (P := Fills bare places j) (fun work hmem a files ha => ?_) (.refl j) fs
  simp only [writings, List.mem_cons, List.not_mem_nil, or_false] at hmem
  rcases hmem with rfl | rfl | rfl | rfl | rfl
  · exact ha.trans (fills_data a files)
  · exact ha.trans (fills_columns Column.fills_hierarchy a files)
  · exact ha.trans (fills_columns Column.fills_codeList a files)
  · exact ha.trans (fills_metadata a files)
  · exact ha.trans (fills_tables a files)

/-- Wherever setting up stops, no column remembers a length that is wrong. -/
theorem setUp_measured {j : Job} (h : ∀ c ∈ j.input.columns, c.Measured) (fs : FileSystem) :
    ∀ c ∈ (j.setUp fs).value.input.columns, c.Measured := by
  have hkeeps : ∀ {a k : Job}, k.input.columns = a.input.columns →
      (∀ c ∈ a.input.columns, c.Measured) → ∀ c ∈ k.input.columns, c.Measured :=
    fun he ha => he ▸ ha
  refine setUp_preserves (P := fun a => ∀ c ∈ a.input.columns, c.Measured)
    (fun work hmem a files ha => ?_) h fs
  simp only [writings, List.mem_cons, List.not_mem_nil, or_false] at hmem
  rcases hmem with rfl | rfl | rfl | rfl | rfl
  · refine hkeeps ?_ ha
    rw [setUpData]
    split
    · rfl
    · dsimp only
      rw [Input.saveData]
      split <;> rfl
  · exact Step.each_all (fun _ fs hc => Column.measured_hierarchy hc fs) files ha
  · exact Step.each_all (fun _ fs hc => Column.measured_codeList hc fs) files ha
  · refine hkeeps ?_ ha
    rw [setUpMetadata]
    split
    · rfl
    · dsimp only
      rw [Input.saveMetadata]
      split
      · rfl
      · split <;> rfl
  · exact hkeeps (withTables_input a _).1 ha

/-! ## What may be written -/

/-- Setting up may write a file here: it is the place of the batch file, or the usual one of something
that has none. -/
def MayWrite (j : Job) (fs : FileSystem) (place : Location) : Prop :=
  place = fs.target j.paths.batch ∨
    ∃ q ∈ j.places, q.given = none ∧ place = fs.target q.usual

/-- What is pending is the usual place of something that has none. -/
theorem open_of_mem_pending {j : Job} {p : Path} (h : p ∈ j.pending) :
    ∃ q ∈ j.places, q.given = none ∧ q.usual = p := by
  rcases List.mem_append.mp h with h | h
  · obtain ⟨hopen, rfl⟩ := Path.of_mem_pending h
    exact ⟨_, List.mem_cons_self, hopen, rfl⟩
  have hcolumn : ∀ {c : Column}, c ∈ j.input.columns →
      p ∈ c.pendingHierarchy j.paths ∨ p ∈ c.pendingCodeList j.paths →
      ∃ q ∈ j.places, q.given = none ∧ q.usual = p := by
    intro c hc hp
    obtain ⟨q, hq, hopen⟩ := Column.open_of_mem_pending hp
    refine ⟨q, List.mem_cons_of_mem _ (List.mem_cons_of_mem _ (List.mem_append_left _ ?_)), hopen⟩
    exact List.mem_flatMap.mpr ⟨c, hc, hq⟩
  rcases List.mem_append.mp h with h | h
  · obtain ⟨c, hc, hp⟩ := List.mem_flatMap.mp h
    exact hcolumn hc (.inl hp)
  rcases List.mem_append.mp h with h | h
  · obtain ⟨c, hc, hp⟩ := List.mem_flatMap.mp h
    exact hcolumn hc (.inr hp)
  rcases List.mem_append.mp h with h | h
  · obtain ⟨hopen, rfl⟩ := Path.of_mem_pending h
    exact ⟨_, List.mem_cons_of_mem _ List.mem_cons_self, hopen, rfl⟩
  · obtain ⟨t, ht, hp⟩ := List.mem_flatMap.mp h
    obtain ⟨q, hq, hopen⟩ := Table.open_of_mem_pending hp
    refine ⟨q, List.mem_cons_of_mem _ (List.mem_cons_of_mem _ (List.mem_append_right _ ?_)), hopen⟩
    exact List.mem_flatMap.mpr ⟨t, ht, hq⟩

theorem keeps_apart {j : Job} {fs : FileSystem} {place : Location} (h : ¬ j.MayWrite fs place) :
    ∀ p ∈ j.paths.batch :: j.pending, fs.target p ≠ place := by
  intro p hp htarget
  rcases List.mem_cons.mp hp with rfl | hp
  · exact h (.inl htarget.symm)
  · obtain ⟨q, hq, hopen, rfl⟩ := open_of_mem_pending hp
    exact h (.inr ⟨q, hq, hopen, htarget.symm⟩)

/-- **Setting up leaves everything alone but the batch file and open places**, whether it comes to its
end or stops on the way. Files elsewhere are there afterwards exactly if they were there before, with
the content they had. Without its places the job is what it was, and a place is as it was, or was
open and is now the usual one; the lengths of codes do not change either. -/
theorem setUp_untouched (j : Job) (fs : FileSystem) :
    let s := j.setUp fs
    (∀ place, ¬ j.MayWrite fs place → ∀ content,
      s.files.find? place = some (.file content) ↔ fs.find? place = some (.file content)) ∧
    (∀ p content, ¬ j.MayWrite fs (fs.target p) → fs.read p = .ok content →
      s.files.read p = .ok content) ∧
    s.value.bare = j.bare ∧ List.Forall₂ Place.FilledIn j.places s.value.places ∧
    ((∀ c ∈ j.input.columns, c.Measured) →
      s.value.input.columns.map Column.length = j.input.columns.map Column.length) := by
  intro s
  have hkeeps := j.setUp_keeps fs
  have hfills := j.setUp_fills fs
  refine ⟨fun place h content => hkeeps.file_iff (keeps_apart h) content,
    fun p content h hread => hkeeps.read (keeps_apart h) hread, hfills.bare, hfills.places,
    fun h => Column.lengths_of_bare ?_ h (setUp_measured h fs)⟩
  -- the columns without their places are part of the job without its places
  have hcolumns : ∀ k : Job, k.bare.input.columns = k.input.columns.map Column.bare :=
    fun k => (withTables_input _ _).1
  rw [← hcolumns, ← hcolumns]
  exact congrArg (·.input.columns) hfills.bare

/-- A computer on which a directory stands where the labels of the survey's regions go, and someone
keeps notes in a file. -/
def occupiedFiles : FileSystem :=
  [(["jobs", "notes.txt"], .file "mine".toUTF8), (["jobs", "input"], .directory),
    (["jobs", "input", "survey_region_codelist.cdl"], .directory)].foldl
    (fun fs (place, entry) => fs.put place entry) emptyFiles

/-- The full survey stops at the labels, with the data and the tree in their places. The notes are as
they were, and so is the job but for these two places. -/
theorem fullSurvey_untouched :
    (fullSurvey.setUp occupiedFiles).fault.isSome = true ∧
      (fullSurvey.setUp occupiedFiles).files.read ⟨"/jobs/notes.txt"⟩ = .ok "mine".toUTF8 ∧
      (fullSurvey.setUp occupiedFiles).value.bare = fullSurvey.bare ∧
      (fullSurvey.setUp occupiedFiles).value.places.map (·.given.isSome) =
        [true, false, true, false, false, false, false] ∧
      fullSurvey.places.map (·.given.isSome) = List.replicate 7 false ∧
      (fullSurvey.setUp occupiedFiles).value.input.columns.map Column.length =
        fullSurvey.input.columns.map Column.length := by
  obtain ⟨_, hread, hbare, _, hlengths⟩ := setUp_untouched fullSurvey occupiedFiles
  have hapart : ¬ fullSurvey.MayWrite occupiedFiles (occupiedFiles.target ⟨"/jobs/notes.txt"⟩) := by
    rintro (hbatch | ⟨q, hq, _, hplace⟩)
    · exact absurd hbatch (by decide +kernel)
    · have hall : ∀ q ∈ fullSurvey.places,
          occupiedFiles.target ⟨"/jobs/notes.txt"⟩ ≠ occupiedFiles.target q.usual := by
        decide +kernel
      exact hall q hq hplace
  have hnotes : occupiedFiles.read ⟨"/jobs/notes.txt"⟩ = .ok "mine".toUTF8 :=
    ok_of_toOption (by decide +kernel)
  have hmeasured : ∀ c ∈ fullSurvey.input.columns, c.Measured := by
    intro c hc
    obtain rfl := List.mem_singleton.mp hc
    exact Column.measured_forgetLength _
  exact ⟨by decide +kernel, hread _ _ hapart hnotes, hbare, by decide +kernel, by decide +kernel,
    hlengths hmeasured⟩

end Job

end Disclosure
