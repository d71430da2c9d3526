import Disclosure.Job.Setup
import Disclosure.Proofs.FileSystem
import Disclosure.Proofs.Step

/-!
# What setting up a job leaves in its place

Setting up gives every artifact that has no place yet its default one and writes it there. Both
halves are said here by functions of the job alone. `placed` is the job with every place filled in,
and `pending` lists the default places of what has none.

`Settles` ties a piece of work to the two: if it comes to its end it has filled every place in, it
writes nothing that is not pending, it does nothing at all if nothing is pending, and it fails at a
file or not at all. It is proved once for writing a file, handed on through rows and lists of work,
and so reaches the whole job.
-/

namespace Disclosure

/-- The default place of something that was given none. -/
def Path.pending (given : Option Path) (usual : Path) : List Path :=
  if given.isSome then [] else [usual]

theorem Path.isSome_of_pending {given : Option Path} {usual : Path}
    (h : Path.pending given usual = []) : given.isSome = true := by
  rw [Path.pending] at h
  split at h
  · assumption
  · exact absurd h (by simp)

theorem Path.pending_of_isSome {given : Option Path} (usual : Path) (h : given.isSome = true) :
    Path.pending given usual = [] :=
  if_pos h

theorem Path.pending_of_isNone {given : Option Path} (usual : Path) (h : ¬ given.isSome = true) :
    Path.pending given usual = [usual] :=
  if_neg h

/-! ## Work that puts things in their place -/

/-- The outcome of saving: the file is written and `after` notes it, or the fault names the path. -/
def Saves {α : Type} (fs : FileSystem) (path : Path) (content : ByteArray) (after : α)
    (saved : Except Fault (α × FileSystem)) : Prop :=
  saved = match fs.write path content with
    | .error fault => .error (.file path fault)
    | .ok written => .ok (after, written)

/-- The work fills in the places of `x`. -/
structure Settles {α : Type} (work : Work α) (x settled : α) (pending : List Path) : Prop where
  /-- Work that comes to its end has filled every place in. -/
  done : ∀ {fs fs' : FileSystem} {y : α}, (work x fs).Done y fs' → y = settled
  /-- If nothing is pending, nothing is done. -/
  idle : pending = [] → ∀ fs : FileSystem, (work x fs).Done x fs
  /-- Only what is pending is written. -/
  keeps : ∀ fs : FileSystem, fs.Keeps pending (work x fs).files
  /-- Only a file can be at fault. -/
  fault : ∀ {fs : FileSystem} {f : Fault}, (work x fs).fault = some f → ∃ path e, f = .file path e

theorem TreeHierarchy.saves (h : TreeHierarchy) (fs : FileSystem) (path : Path) (width : Nat) :
    Saves fs path (h.toText width).toUTF8 { h with path := some path } (h.save fs path width) := rfl

theorem CodeList.saves (l : CodeList) (fs : FileSystem) (path : Path) (width : Nat) :
    Saves fs path (l.toText width).toUTF8 { l with path := some path } (l.save fs path width) := rfl

theorem CellOverrides.saves (o : CellOverrides) (fs : FileSystem) (path : Path) :
    Saves fs path o.toText.toUTF8 { o with path := some path } (o.save fs path) := rfl

theorem TreeRecode.saves (r : TreeRecode) (fs : FileSystem) (path : Path) (width : Nat) :
    Saves fs path (r.toText width).toUTF8 { r with path := some path } (r.save fs path width) := rfl

theorem Input.saves_data (i : Input) (fs : FileSystem) (path : Path) :
    Saves fs path (i.frame.forEngine.toBytes i.separator) { i with dataPath := some path }
      (i.saveData fs path) := rfl

theorem Input.saves_metadata {i : Input} {text : String} (h : i.metadataText = .ok text)
    (fs : FileSystem) (path : Path) :
    Saves fs path text.toUTF8 { i with metadataPath := some path } (i.saveMetadata fs path) := by
  rw [Saves, saveMetadata, h]
  rfl

/-- A file that was saved is read back. -/
theorem Saves.read {α β : Type} {fs fs' : FileSystem} {path : Path} {content : ByteArray}
    {before after : α} {event : α → Event} {saved : Except Fault (α × FileSystem)} {f : α → β} {y : β}
    (h : Saves fs path content after saved)
    (hdone : ((Step.ofSaving before fs event saved).map f).Done y fs') :
    fs'.read path = .ok content := by
  obtain ⟨a, ha, _⟩ := Step.of_map_done hdone
  have hok := Step.of_ofSaving_done ha
  rw [h] at hok
  split at hok
  · exact absurd hok (by simp)
  · rename_i written hwrite
    obtain ⟨_, rfl⟩ := Prod.mk.inj (Except.ok.inj hok)
    exact FileSystem.read_of_write hwrite

namespace Settles

variable {α β : Type}

/-- Work that does nothing. -/
theorem nothing {work : Work α} {x : α} (h : ∀ fs, (work x fs).Done x fs) :
    Settles work x x [] where
  done hd := hd.value.symm.trans (h _).value
  idle _ := h
  keeps fs := by rw [(h fs).files]; exact .refl [] fs
  fault hf := absurd ((h _).fault.symm.trans hf) (by simp)

/-- Writing a file. -/
theorem saving {work : Work α} {x : α} {before : β} {event : β → Event} {path : Path}
    {content : ByteArray} {saved : FileSystem → Except Fault (β × FileSystem)} (after : β)
    (f : β → α) (hwork : ∀ fs, work x fs = (Step.ofSaving before fs event (saved fs)).map f)
    (hsaved : ∀ fs, Saves fs path content after (saved fs)) :
    Settles work x (f after) [path] where
  done {fs fs' y} hd := by
    rw [hwork fs] at hd
    obtain ⟨a, ha, rfl⟩ := Step.of_map_done hd
    have hok := Step.of_ofSaving_done ha
    rw [hsaved fs] at hok
    split at hok
    · exact absurd hok (by simp)
    · injection hok with hok
      rw [← (Prod.mk.inj hok).1]
  idle hnil := absurd hnil (by simp)
  keeps fs := by
    rw [hwork fs, hsaved fs]
    split
    · exact .refl [path] fs
    · rename_i written hwrite
      exact FileSystem.keeps_write hwrite
  fault {fs g} hf := by
    rw [hwork fs, hsaved fs] at hf
    split at hf
    · rename_i e _
      injection hf with hf
      exact ⟨path, e, hf.symm⟩
    · exact absurd hf (by simp [Step.ofSaving, Step.map, Step.done])

/-- The same work, seen as work on something larger. -/
theorem part {work : Work α} {outer : Work β} {x settled : α} {b : β} {pending : List Path}
    {f : α → β} (h : Settles work x settled pending)
    (houter : ∀ fs, outer b fs = (work x fs).map f) (hb : f x = b) :
    Settles outer b (f settled) pending where
  done {fs fs' y} hd := by
    rw [houter fs] at hd
    obtain ⟨a, ha, rfl⟩ := Step.of_map_done hd
    rw [h.done ha]
  idle hnil fs := by
    rw [houter fs, ← hb]
    exact Step.map_done (h.idle hnil fs)
  keeps fs := by rw [houter fs]; exact h.keeps fs
  fault {fs g} hf := by rw [houter fs] at hf; exact h.fault hf

/-- Two pieces of work in a row. -/
theorem andThen {work next : Work α} {x y z : α} {pending more : List Path}
    (h : Settles work x y pending) (hn : Settles next y z more) :
    Settles (fun a fs => (work a fs).andThen next) x z (pending ++ more) where
  done {fs fs' b} hd := by
    obtain ⟨a, fs₁, ha, hb⟩ := Step.of_andThen_done hd
    rw [h.done ha] at hb
    exact hn.done hb
  idle hnil fs := by
    obtain ⟨hp, hm⟩ := List.append_eq_nil_iff.mp hnil
    have hx := h.idle hp fs
    -- nothing was pending, so the first piece of work has changed nothing
    have hxy : x = y := h.done hx
    subst hxy
    exact Step.andThen_done hx (hn.idle hm fs)
  keeps fs := by
    have hfirst : fs.Keeps (pending ++ more) (work x fs).files :=
      (h.keeps fs).mono fun p hp => List.mem_append_left _ hp
    cases hs : (work x fs).fault with
    -- if the first piece stops, the second one writes nothing at all
    | some f => rw [Step.andThen_of_fault hs]; exact hfirst
    | none =>
      have hd := Step.done_of_fault_none hs
      rw [(Step.andThen_of_done next hd).2.1, h.done hd]
      exact hfirst.trans ((hn.keeps _).mono fun p hp => List.mem_append_right _ hp)
  fault {fs f} hf := by
    rcases Step.of_andThen_fault hf with hf | ⟨a, fs₁, ha, hf⟩
    · exact h.fault hf
    · rw [h.done ha] at hf
      exact hn.fault hf

theorem inOrder_nil {x : α} : Settles (Step.inOrder []) x x [] :=
  nothing fun _ => Step.done_done _ _ _

theorem inOrder_cons {work : Work α} {works : List (Work α)} {x y z : α}
    {pending more : List Path} (h : Settles work x y pending)
    (hn : Settles (Step.inOrder works) y z more) :
    Settles (Step.inOrder (work :: works)) x z (pending ++ more) :=
  andThen h hn

/-- Work over a list. -/
theorem each {work : Work α} {placed : α → α} {pending : α → List Path} :
    ∀ {xs : List α}, (∀ x ∈ xs, Settles work x (placed x) (pending x)) →
      Settles (Step.each work) xs (xs.map placed) (xs.flatMap pending)
  | [], _ => nothing fun _ => Step.done_done _ _ _
  | x :: rest, h => by
    have hx := h x List.mem_cons_self
    have hrest := each fun y hy => h y (List.mem_cons_of_mem _ hy)
    refine ⟨fun {fs fs' ys} hd => ?_, fun hnil fs => ?_, fun fs => ?_, fun {fs f} hf => ?_⟩
    · obtain ⟨y, fs₁, ys', hy, hys, rfl⟩ := Step.of_each_cons_done hd
      rw [hx.done hy, hrest.done hys, List.map_cons]
    · refine Step.each_idle fun y hy => (h y hy).idle ?_ fs
      exact List.flatMap_eq_nil_iff.mp hnil y hy
    · -- the files are compared with those at the start, whatever was written before
      refine Step.each_files (P := fs.Keeps ((x :: rest).flatMap pending)) (fun y hy fs₁ hk => ?_)
        (.refl _ fs)
      exact hk.trans (((h y hy).keeps fs₁).mono fun p hp => List.mem_flatMap.mpr ⟨y, hy, hp⟩)
    · obtain ⟨y, hy, fs₁, hf⟩ := Step.of_each_fault hf
      exact (h y hy).fault hf

/-- A file that work over a list has written for one value is there at the end, if the work on no
other value writes it. -/
theorem read_of_each {work : Work α} {placed : α → α} {pending : α → List Path} {x : α} {path : Path}
    {content : ByteArray}
    (hwrites : ∀ {fs fs' : FileSystem} {y : α}, (work x fs).Done y fs' →
      fs'.read path = .ok content) : ∀ {xs ys : List α} {fs fs' : FileSystem},
    (∀ y ∈ xs, Settles work y (placed y) (pending y)) → x ∈ xs →
    (∀ y ∈ xs, y ≠ x → ∀ (fs : FileSystem), ∀ p ∈ pending y, fs.target p ≠ fs.target path) →
    (Step.each work xs fs).Done ys fs' → fs'.read path = .ok content
  | [], _, _, _, _, hx, _, _ => absurd hx (by simp)
  | first :: rest, _, fs, fs', h, hx, hapart, hdone => by
    obtain ⟨y, fs₁, ys, hy, hys, _⟩ := Step.of_each_cons_done hdone
    have hrest := fun z hz => h z (List.mem_cons_of_mem first hz)
    by_cases hlater : x ∈ rest
    · exact read_of_each hwrites hrest hlater
        (fun z hz => hapart z (List.mem_cons_of_mem first hz)) hys
    · -- it was written for the first value, and the rest are others
      obtain rfl := (List.mem_cons.mp hx).resolve_right hlater
      have hkeeps := (Settles.each hrest).keeps fs₁
      rw [hys.files] at hkeeps
      refine hkeeps.read (fun p hp => ?_) (hwrites hy)
      obtain ⟨z, hz, hp⟩ := List.mem_flatMap.mp hp
      exact hapart z (List.mem_cons_of_mem x hz) (fun he => hlater (he ▸ hz)) fs₁ p hp

theorem congr {work : Work α} {x settled settled' : α} {pending pending' : List Path}
    (h : Settles work x settled pending) (hs : settled = settled') (hp : pending = pending') :
    Settles work x settled' pending' :=
  hs ▸ hp ▸ h

end Settles

/-! ## Columns -/

namespace Column

/-- The place of the hierarchy file, if it still has to be written. -/
def pendingHierarchy (paths : JobPaths) (c : Column) : List Path :=
  match c.hierarchy with
  | .tree tree => Path.pending tree.path (paths.hierarchy c.name)
  | _ => []

/-- The place of the code list's file, if it still has to be written. -/
def pendingCodeList (paths : JobPaths) (c : Column) : List Path :=
  match c.codeList with
  | some codeList => Path.pending codeList.path (paths.codeList c.name)
  | none => []

/-- The column with a place for its hierarchy. -/
def placeHierarchy (paths : JobPaths) (c : Column) : Column :=
  match c.hierarchy with
  | .tree tree =>
    if tree.path.isSome then c
    else c.editHierarchy fun _ => .tree { tree with path := some (paths.hierarchy c.name) }
  | _ => c

/-- The column with a place for its code list. -/
def placeCodeList (paths : JobPaths) (c : Column) : Column :=
  match c.codeList with
  | none => c
  | some codeList =>
    if codeList.path.isSome then c
    else c.editCodeList fun _ => { codeList with path := some (paths.codeList c.name) }

/-- The column with every place filled in. -/
def placed (paths : JobPaths) (c : Column) : Column :=
  (c.placeHierarchy paths).placeCodeList paths

theorem placeHierarchy_name (paths : JobPaths) (c : Column) :
    (c.placeHierarchy paths).name = c.name := by
  rw [placeHierarchy]
  split
  · split <;> rfl
  · rfl

theorem placeHierarchy_codeList (paths : JobPaths) (c : Column) :
    (c.placeHierarchy paths).codeList = c.codeList := by
  rw [placeHierarchy]
  split
  · split <;> rfl
  · rfl

theorem placeCodeList_hierarchy (paths : JobPaths) (c : Column) :
    (c.placeCodeList paths).hierarchy = c.hierarchy := by
  rw [placeCodeList]
  split
  · rfl
  · split <;> rfl

theorem placeCodeList_name (paths : JobPaths) (c : Column) :
    (c.placeCodeList paths).name = c.name := by
  rw [placeCodeList]
  split
  · rfl
  · split <;> rfl

theorem pendingHierarchy_placeHierarchy (paths : JobPaths) (c : Column) :
    (c.placeHierarchy paths).pendingHierarchy paths = [] := by
  rw [placeHierarchy]
  split
  · rename_i tree htree
    split
    · rename_i hpath
      rw [pendingHierarchy, htree]
      exact Path.pending_of_isSome _ hpath
    · rfl
  · rename_i hother
    rw [pendingHierarchy]
    split
    · rename_i tree htree
      exact absurd htree (hother tree)
    · rfl

theorem pendingCodeList_placeCodeList (paths : JobPaths) (c : Column) :
    (c.placeCodeList paths).pendingCodeList paths = [] := by
  rw [placeCodeList]
  split
  · rename_i hnone
    rw [pendingCodeList, hnone]
  · rename_i codeList hlist
    split
    · rename_i hpath
      rw [pendingCodeList, hlist]
      exact Path.pending_of_isSome _ hpath
    · rw [pendingCodeList, editCodeList, forgetLength, hlist]
      rfl

theorem pendingHierarchy_congr {paths : JobPaths} {c d : Column} (hn : d.name = c.name)
    (hh : d.hierarchy = c.hierarchy) : d.pendingHierarchy paths = c.pendingHierarchy paths := by
  rw [pendingHierarchy, pendingHierarchy, hn, hh]

theorem pendingCodeList_congr {paths : JobPaths} {c d : Column} (hn : d.name = c.name)
    (hl : d.codeList = c.codeList) : d.pendingCodeList paths = c.pendingCodeList paths := by
  rw [pendingCodeList, pendingCodeList, hn, hl]

theorem placed_pending (paths : JobPaths) (c : Column) :
    (c.placed paths).pendingHierarchy paths = [] ∧ (c.placed paths).pendingCodeList paths = [] := by
  refine ⟨?_, pendingCodeList_placeCodeList paths _⟩
  rw [placed, pendingHierarchy_congr (placeCodeList_name paths _) (placeCodeList_hierarchy paths _)]
  exact pendingHierarchy_placeHierarchy paths c

theorem settles_hierarchy (paths : JobPaths) (c : Column) :
    Settles (Job.setUpHierarchy paths) c (c.placeHierarchy paths) (c.pendingHierarchy paths) := by
  rw [placeHierarchy, pendingHierarchy]
  cases hh : c.hierarchy with
  | flat total => exact .nothing fun fs => by rw [Job.setUpHierarchy, hh]; exact Step.done_done ..
  | levels h => exact .nothing fun fs => by rw [Job.setUpHierarchy, hh]; exact Step.done_done ..
  | tree tree =>
    dsimp only
    by_cases hp : tree.path.isSome = true
    · rw [if_pos hp, Path.pending_of_isSome _ hp]
      exact .nothing fun fs => by
        simp only [Job.setUpHierarchy, hh, if_pos hp]
        exact Step.done_done ..
    · rw [if_neg hp, Path.pending_of_isNone _ hp]
      have hwork : ∀ fs, Job.setUpHierarchy paths c fs =
          (Step.ofSaving tree fs
            (fun tree => .wroteHierarchy (paths.hierarchy c.name) tree.tree.size)
            (tree.save fs (paths.hierarchy c.name) c.length)).map
              fun tree => c.editHierarchy fun _ => .tree tree := fun fs => by
        simp only [Job.setUpHierarchy, hh, if_neg hp]
      exact .saving { tree with path := some (paths.hierarchy c.name) }
        (fun tree => c.editHierarchy fun _ => .tree tree) hwork fun fs => tree.saves fs _ _

theorem settles_codeList (paths : JobPaths) (c : Column) :
    Settles (Job.setUpCodeList paths) c (c.placeCodeList paths) (c.pendingCodeList paths) := by
  rw [placeCodeList, pendingCodeList]
  cases hl : c.codeList with
  | none => exact .nothing fun fs => by rw [Job.setUpCodeList, hl]; exact Step.done_done ..
  | some codeList =>
    dsimp only
    by_cases hp : codeList.path.isSome = true
    · rw [if_pos hp, Path.pending_of_isSome _ hp]
      exact .nothing fun fs => by
        simp only [Job.setUpCodeList, hl, if_pos hp]
        exact Step.done_done ..
    · rw [if_neg hp, Path.pending_of_isNone _ hp]
      have hwork : ∀ fs, Job.setUpCodeList paths c fs =
          (Step.ofSaving codeList fs
            (fun codeList => .wroteCodeList (paths.codeList c.name) codeList.size)
            (codeList.save fs (paths.codeList c.name) c.length)).map
              fun codeList => c.editCodeList fun _ => codeList := fun fs => by
        simp only [Job.setUpCodeList, hl, if_neg hp]
      exact .saving { codeList with path := some (paths.codeList c.name) }
        (fun codeList => c.editCodeList fun _ => codeList) hwork fun fs => codeList.saves fs _ _

end Column

/-! ## Tables -/

namespace Table

/-- The place of the a priori file, if it still has to be written. -/
def pendingOverrides (paths : JobPaths) (name : String) (t : Table) : List Path :=
  match t.overrides with
  | some overrides => Path.pending overrides.path (paths.apriori name)
  | none => []

/-- The place of a recode file, if it still has to be written. -/
def pendingRecode (paths : JobPaths) (name : String) : String × Recode → List Path
  | (column, .tree recode) => Path.pending recode.path (paths.recode name column)
  | _ => []

/-- The places of everything about the table that has none. -/
def pending (paths : JobPaths) : String × Table → List Path
  | (name, t) =>
    Path.pending t.outputPath (paths.tableOutput name) ++ t.pendingOverrides paths name ++
      t.recodes.flatMap (pendingRecode paths name)

/-- The table with a place to be written to. -/
def placeOutput (paths : JobPaths) (name : String) (t : Table) : Table :=
  { t with outputPath := t.outputPath <|> some (paths.tableOutput name) }

/-- The table with a place for its a priori file. -/
def placeOverrides (paths : JobPaths) (name : String) (t : Table) : Table :=
  match t.overrides with
  | none => t
  | some overrides =>
    if overrides.path.isSome then t
    else { t with overrides := some { overrides with path := some (paths.apriori name) } }

/-- A recode with a place for its file. -/
def placeRecode (paths : JobPaths) (name : String) : String × Recode → String × Recode
  | (column, .tree recode) =>
    if recode.path.isSome then (column, .tree recode)
    else (column, .tree { recode with path := some (paths.recode name column) })
  | other => other

/-- The table with places for its recode files. -/
def placeRecodes (paths : JobPaths) (name : String) (t : Table) : Table :=
  { t with recodes := t.recodes.map (placeRecode paths name) }

/-- The table with every place filled in. -/
def placed (paths : JobPaths) : String × Table → String × Table
  | (name, t) => (name, ((t.placeOutput paths name).placeOverrides paths name).placeRecodes paths name)

theorem settles_output (paths : JobPaths) (name : String) (t : Table) :
    Settles (Job.setUpOutput paths name) t (t.placeOutput paths name)
      (Path.pending t.outputPath (paths.tableOutput name)) where
  done hd := hd.value.symm
  idle hnil fs := by
    have hsome := Path.isSome_of_pending hnil
    refine ⟨?_, rfl, rfl⟩
    obtain ⟨path, hpath⟩ := Option.isSome_iff_exists.mp hsome
    show { t with outputPath := t.outputPath <|> some (paths.tableOutput name) } = t
    rw [hpath]
    cases t
    cases hpath
    rfl
  keeps fs := .refl _ fs
  fault hf := absurd hf (by simp [Job.setUpOutput, Step.done])

theorem settles_overrides (paths : JobPaths) (name : String) (t : Table) :
    Settles (Job.setUpOverrides paths name) t (t.placeOverrides paths name)
      (t.pendingOverrides paths name) := by
  rw [placeOverrides, pendingOverrides]
  cases ho : t.overrides with
  | none => exact .nothing fun fs => by rw [Job.setUpOverrides, ho]; exact Step.done_done ..
  | some overrides =>
    dsimp only
    by_cases hp : overrides.path.isSome = true
    · rw [if_pos hp, Path.pending_of_isSome _ hp]
      exact .nothing fun fs => by
        simp only [Job.setUpOverrides, ho, if_pos hp]
        exact Step.done_done ..
    · rw [if_neg hp, Path.pending_of_isNone _ hp]
      have hwork : ∀ fs, Job.setUpOverrides paths name t fs =
          (Step.ofSaving overrides fs
            (fun overrides => .wroteOverrides (paths.apriori name) overrides.changes.length)
            (overrides.save fs (paths.apriori name))).map
              fun overrides => { t with overrides := some overrides } := fun fs => by
        simp only [Job.setUpOverrides, ho, if_neg hp]
      exact .saving { overrides with path := some (paths.apriori name) }
        (fun overrides => { t with overrides := some overrides }) hwork
        fun fs => overrides.saves fs _

theorem settles_recode (paths : JobPaths) (name : String) (lengthOf : String → Nat)
    (r : String × Recode) :
    Settles (Job.setUpRecode paths name lengthOf) r (placeRecode paths name r)
      (pendingRecode paths name r) := by
  obtain ⟨column, recode⟩ := r
  cases recode with
  | file path => exact .nothing fun fs => Step.done_done ..
  | level level => exact .nothing fun fs => Step.done_done ..
  | tree tree =>
    rw [placeRecode, pendingRecode]
    by_cases hp : tree.path.isSome = true
    · rw [if_pos hp, Path.pending_of_isSome _ hp]
      exact .nothing fun fs => by
        simp only [Job.setUpRecode, if_pos hp]
        exact Step.done_done ..
    · rw [if_neg hp, Path.pending_of_isNone _ hp]
      have hwork : ∀ fs, Job.setUpRecode paths name lengthOf (column, .tree tree) fs =
          (Step.ofSaving tree fs
            (fun tree => .wroteRecode (paths.recode name column) tree.codes.length)
            (tree.save fs (paths.recode name column) (lengthOf column))).map
              fun tree => (column, Recode.tree tree) := fun fs => by
        simp only [Job.setUpRecode, if_neg hp]
      exact .saving { tree with path := some (paths.recode name column) }
        (fun tree => (column, Recode.tree tree)) hwork fun fs => tree.saves fs _ _

theorem settles_recodes (paths : JobPaths) (name : String) (lengthOf : String → Nat) (t : Table) :
    Settles (Job.setUpRecodes paths name lengthOf) t (t.placeRecodes paths name)
      (t.recodes.flatMap (pendingRecode paths name)) :=
  (Settles.each fun r _ => settles_recode paths name lengthOf r).part
    (f := fun recodes => { t with recodes }) (fun _ => rfl) rfl

theorem placeOverrides_recodes (paths : JobPaths) (name : String) (t : Table) :
    (t.placeOverrides paths name).recodes = t.recodes := by
  rw [placeOverrides]
  split
  · rfl
  · split <;> rfl

theorem placeOverrides_outputPath (paths : JobPaths) (name : String) (t : Table) :
    (t.placeOverrides paths name).outputPath = t.outputPath := by
  rw [placeOverrides]
  split
  · rfl
  · split <;> rfl

theorem settles (paths : JobPaths) (lengthOf : String → Nat) (t : String × Table) :
    Settles (Job.setUpTable paths lengthOf) t (placed paths t) (pending paths t) := by
  obtain ⟨name, t⟩ := t
  have houtput := settles_output paths name t
  have hoverrides := settles_overrides paths name (t.placeOutput paths name)
  have hrecodes :=
    settles_recodes paths name lengthOf ((t.placeOutput paths name).placeOverrides paths name)
  -- what is pending is read off the table as it was, so the first two pieces may not matter to it
  rw [placeOverrides_recodes] at hrecodes
  have hrow := Settles.inOrder_cons houtput
    (.inOrder_cons hoverrides (.inOrder_cons hrecodes .inOrder_nil))
  refine (hrow.part (f := fun table => (name, table)) (fun _ => rfl) rfl).congr rfl ?_
  rw [List.append_nil, ← List.append_assoc]
  rfl

theorem pendingOverrides_placeOverrides (paths : JobPaths) (name : String) (t : Table) :
    (t.placeOverrides paths name).pendingOverrides paths name = [] := by
  rw [placeOverrides]
  split
  · rename_i hnone
    rw [pendingOverrides, hnone]
  · rename_i overrides hoverrides
    split
    · rename_i hpath
      rw [pendingOverrides, hoverrides]
      exact Path.pending_of_isSome _ hpath
    · rfl

theorem pendingRecode_placeRecode (paths : JobPaths) (name : String) (r : String × Recode) :
    pendingRecode paths name (placeRecode paths name r) = [] := by
  obtain ⟨column, recode⟩ := r
  cases recode with
  | file path => rfl
  | level level => rfl
  | tree tree =>
    rw [placeRecode]
    split
    · rename_i hpath
      exact Path.pending_of_isSome _ hpath
    · rfl

/-- Nothing is pending once every place is filled in. -/
theorem placed_pending (paths : JobPaths) (t : String × Table) :
    pending paths (placed paths t) = [] := by
  obtain ⟨name, t⟩ := t
  have houtput : ((t.placeOutput paths name).placeOverrides paths name).outputPath.isSome = true := by
    rw [placeOverrides_outputPath, placeOutput]
    cases t.outputPath <;> rfl
  have hoverrides := pendingOverrides_placeOverrides paths name (t.placeOutput paths name)
  have hrecodes : (((t.placeOutput paths name).placeOverrides paths name).placeRecodes paths
      name).recodes.flatMap (pendingRecode paths name) = [] := by
    refine List.flatMap_eq_nil_iff.mpr fun r hr => ?_
    obtain ⟨before, _, rfl⟩ := List.mem_map.mp hr
    exact pendingRecode_placeRecode paths name before
  rw [placed, pending, hrecodes, List.append_nil]
  exact List.append_eq_nil_iff.mpr ⟨Path.pending_of_isSome _ houtput, hoverrides⟩

end Table

end Disclosure
