import Disclosure.FileSystem
import Disclosure.Proofs.Text.Bytes

/-!
# What writing leaves alone

A path leads to a location by the names in it alone, once every name on the way is a directory. That
location is the path's **target**, and it does not depend on what else the file system holds. So two
paths with different targets can never lead to one file, whatever was written in between.

`Keeps` states what a piece of work may do to the files of others: directories stay, and a file is
changed, or comes to be, only at the target of a path that the work was allowed to write.
-/

namespace Disclosure.FileSystem

/-! ## Entries -/

theorem lookup_replace_self (place : Location) (entry : Entry) :
    ∀ entries : List (Location × Entry), (put.replace place entry entries).lookup place = some entry
  | [] => by simp [put.replace]
  | (other, old) :: rest => by
    by_cases h : other = place
    · simp [put.replace, h]
    · have hne : (place == other) = false := by simpa using fun e : place = other => h e.symm
      rw [put.replace, if_neg h, List.lookup_cons, hne]
      exact lookup_replace_self place entry rest

theorem lookup_replace_of_ne {place other : Location} (entry : Entry) (h : other ≠ place) :
    ∀ entries : List (Location × Entry),
      (put.replace place entry entries).lookup other = entries.lookup other
  | [] => by simp [put.replace, h]
  | (place', old) :: rest => by
    by_cases hp : place' = place
    · have hne : (other == place) = false := by simpa using h
      simp [put.replace, hp, List.lookup_cons, hne]
    · rw [put.replace, if_neg hp, List.lookup_cons, List.lookup_cons,
        lookup_replace_of_ne entry h rest]

theorem find?_put_self {fs : FileSystem} {place : Location} {entry : Entry} (h : place ≠ []) :
    (fs.put place entry).find? place = some entry := by
  rw [find?, if_neg h]
  exact lookup_replace_self place entry fs.entries

theorem find?_put_of_ne {fs : FileSystem} {place other : Location} {entry : Entry}
    (h : other ≠ place) : (fs.put place entry).find? other = fs.find? other := by
  rw [find?, find?]
  split
  · rfl
  · exact lookup_replace_of_ne entry h fs.entries

theorem find?_root (fs : FileSystem) : fs.find? [] = some .directory := if_pos rfl

theorem here_put {fs : FileSystem} {place : Location} {entry : Entry} :
    (fs.put place entry).here = fs.here := rfl

/-! ## Where a path leads -/

/-- The location that a row of names leads to, if every name on the way is a directory. -/
def resolve : Location → List String → Location
  | place, [] => place
  | place, name :: rest =>
    if name = "." then resolve place rest
    else if name = ".." then resolve place.dropLast rest
    else resolve (place ++ [name]) rest

/-- The location that a path leads to, if it leads anywhere. -/
def target (fs : FileSystem) (p : Path) : Location :=
  resolve (fs.start p) p.names

theorem start_congr {fs fs' : FileSystem} (h : fs'.here = fs.here) (p : Path) :
    fs'.start p = fs.start p := by
  simp only [start, h]

theorem target_congr {fs fs' : FileSystem} (h : fs'.here = fs.here) (p : Path) :
    fs'.target p = fs.target p := by
  rw [target, target, start_congr h]

/-- Where a name leads from a directory. -/
def enter (place : Location) (name : String) : Location :=
  if name = "." then place else if name = ".." then place.dropLast else place ++ [name]

theorem resolve_cons (place : Location) (name : String) (rest : List String) :
    resolve place (name :: rest) = resolve (enter place name) rest := by
  rw [resolve, enter]
  split
  · rfl
  · split <;> rfl

/-- A walk starts at a directory and goes on from where the first name leads. -/
theorem walk_cons_iff {fs : FileSystem} {place place' : Location} {name : String}
    {rest : List String} :
    fs.walk place (name :: rest) = .ok place' ↔
      fs.find? place = some .directory ∧ fs.walk (enter place name) rest = .ok place' := by
  rw [walk, enter]
  cases fs.find? place with
  | none => simp
  | some entry =>
    cases entry with
    | file content => simp
    | directory =>
      rw [and_iff_right rfl]
      dsimp only
      split
      · rfl
      · split <;> rfl

theorem walk_ok {fs : FileSystem} : ∀ {names : List String} {place place' : Location},
    fs.walk place names = .ok place' → place' = resolve place names
  | [], place, place', h => by
    rw [walk] at h
    injection h with h
    exact h.symm
  | name :: rest, place, place', h => by
    rw [resolve_cons]
    exact walk_ok (walk_cons_iff.mp h).2

/-- A walk depends on the directories along the way and on nothing else. -/
theorem walk_mono {fs fs' : FileSystem}
    (hdir : ∀ place, fs.find? place = some .directory → fs'.find? place = some .directory) :
    ∀ {names : List String} {place place' : Location},
      fs.walk place names = .ok place' → fs'.walk place names = .ok place'
  | [], place, place', h => by rw [walk] at h ⊢; exact h
  | name :: rest, place, place', h => by
    obtain ⟨hd, hrest⟩ := walk_cons_iff.mp h
    exact walk_cons_iff.mpr ⟨hdir place hd, walk_mono hdir hrest⟩

/-- What it takes for a path to lead somewhere. -/
structure Leads (fs : FileSystem) (p : Path) (place : Location) : Prop where
  /-- No name in it is forbidden. -/
  noNul : p.text.toList.contains '\x00' = false
  /-- There is something to follow. -/
  nonempty : p.text.isEmpty = false
  /-- Every name but the last is a directory that is there. -/
  walk : fs.walk (fs.start p) p.names = .ok place
  /-- A slash at the end asks for something other than a file. -/
  slash : p.endsInSlash = true → ∀ content, fs.find? place ≠ some (.file content)

/-- `locate`, with its ways out one below the other. -/
theorem locate_eq (fs : FileSystem) (p : Path) :
    fs.locate p =
      if p.text.toList.contains '\x00' then .error .badName
      else if p.text.isEmpty then .error .notFound
      else
        match fs.walk (fs.start p) p.names with
        | .error fault => .error fault
        | .ok place =>
          match fs.find? place with
          | some (.file _) => if p.endsInSlash then .error .notDirectory else .ok place
          | _ => .ok place := by
  unfold locate
  cases p.text.toList.contains '\x00' with
  | true => rfl
  | false =>
    cases p.text.isEmpty with
    | true => rfl
    | false =>
      cases fs.walk (fs.start p) p.names with
      | error fault => rfl
      | ok place => rfl

theorem locate_ok_iff {fs : FileSystem} {p : Path} {place : Location} :
    fs.locate p = .ok place ↔ fs.Leads p place := by
  rw [locate_eq]
  constructor
  · -- each way out that was not taken is one of the four conditions
    intro h
    split at h
    · exact absurd h (by simp)
    · rename_i hnul
      split at h
      · exact absurd h (by simp)
      · rename_i hempty
        split at h
        · exact absurd h (by simp)
        · rename_i found hwalk
          split at h
          · rename_i content hfile
            split at h
            · exact absurd h (by simp)
            · rename_i hslash
              injection h with h
              subst h
              exact ⟨by simpa using hnul, by simpa using hempty, hwalk,
                fun hs => absurd hs hslash⟩
          · rename_i hfile
            injection h with h
            subst h
            exact ⟨by simpa using hnul, by simpa using hempty, hwalk, fun _ => hfile⟩
  · intro h
    rw [if_neg (by rw [h.noNul]; simp), if_neg (by rw [h.nonempty]; simp), h.walk]
    dsimp only
    split
    · rename_i content hfile
      rw [if_neg fun hs => h.slash hs content hfile]
    · rfl

theorem Leads.eq_target {fs : FileSystem} {p : Path} {place : Location} (h : fs.Leads p place) :
    place = fs.target p :=
  walk_ok h.walk

/-! ## Reading and writing -/

theorem read_ok_iff {fs : FileSystem} {p : Path} {content : ByteArray} :
    fs.read p = .ok content ↔
      ∃ place, fs.Leads p place ∧ fs.find? place = some (.file content) := by
  unfold read
  cases hloc : fs.locate p with
  | error fault =>
    refine iff_of_false (fun h => absurd h (by simp [bind, Except.bind])) ?_
    rintro ⟨place, hleads, _⟩
    exact absurd (hloc.symm.trans (locate_ok_iff.mpr hleads)) (by simp)
  | ok place =>
    have hleads := locate_ok_iff.mp hloc
    constructor
    · intro h
      simp only [bind, Except.bind] at h
      split at h
      · exact absurd h (by simp)
      · exact absurd h (by simp)
      · rename_i found hfound
        exact ⟨place, hleads, Except.ok.inj h ▸ hfound⟩
    · rintro ⟨other, hleads', hfound⟩
      rw [hleads'.eq_target, ← hleads.eq_target] at hfound
      simp only [bind, Except.bind, hfound]

/-- Whether a file can be written: the path leads to a file, or to where one can be made. -/
def isWritable (fs : FileSystem) (p : Path) : Bool :=
  match fs.locate p with
  | .error _ => false
  | .ok place =>
    match fs.find? place with
    | some .directory => false
    | some (.file _) => true
    | none => !p.endsInSlash

/-- What writing takes, and what it does: one entry changes, and it is no directory. -/
theorem write_ok_iff {fs fs' : FileSystem} {p : Path} {content : ByteArray} :
    fs.write p content = .ok fs' ↔
      fs.isWritable p = true ∧ fs' = fs.put (fs.target p) (.file content) := by
  unfold write isWritable
  cases hloc : fs.locate p with
  | error fault => simp
  | ok place =>
    have htarget := (locate_ok_iff.mp hloc).eq_target
    rw [← htarget]
    cases hfind : fs.find? place with
    | none => cases p.endsInSlash <;> simp [hfind, eq_comm]
    | some entry => cases entry <;> simp [hfind, eq_comm]

theorem isWritable_target {fs : FileSystem} {p : Path} (h : fs.isWritable p = true) :
    fs.Leads p (fs.target p) ∧ fs.find? (fs.target p) ≠ some .directory ∧ p.endsInSlash = false := by
  unfold isWritable at h
  cases hloc : fs.locate p with
  | error fault => rw [hloc] at h; exact absurd h (by simp)
  | ok place =>
    have hleads := locate_ok_iff.mp hloc
    rw [hloc] at h
    rw [← hleads.eq_target]
    dsimp only at h
    split at h
    · exact absurd h (by simp)
    · rename_i content hfile
      refine ⟨hleads, by rw [hfile]; simp, ?_⟩
      -- a path that ends in a slash would not have led to a file
      cases hs : p.endsInSlash with
      | false => rfl
      | true => exact absurd hfile (hleads.slash hs content)
    · rename_i hnone
      exact ⟨hleads, by rw [hnone]; simp, by simpa using h⟩

/-- A file that holds the bytes of a text is read as the text. -/
theorem readText_of_read {fs : FileSystem} {p : Path} {text : String}
    (h : fs.read p = .ok text.toUTF8) : fs.readText p = .ok text := by
  rw [readText, h]
  simp only [bind, Except.bind, Text.fromUTF8?_toUTF8]

/-- A file that was just written is read back. -/
theorem read_of_write {fs fs' : FileSystem} {p : Path} {content : ByteArray}
    (h : fs.write p content = .ok fs') : fs'.read p = .ok content := by
  obtain ⟨hw, rfl⟩ := write_ok_iff.mp h
  obtain ⟨hleads, hnodir, hslash⟩ := isWritable_target hw
  -- the root is a directory, so what was written has an entry of its own
  have hroot : fs.target p ≠ [] := fun he => hnodir (he ▸ find?_root fs)
  refine read_ok_iff.mpr ⟨fs.target p, ⟨hleads.noNul, hleads.nonempty, ?_, ?_⟩,
    find?_put_self hroot⟩
  · -- the way there only passes directories, and none of them was replaced
    refine walk_mono (fun place hdir => ?_) hleads.walk
    rw [find?_put_of_ne fun he : place = fs.target p => hnodir (he ▸ hdir)]
    exact hdir
  · intro hs
    rw [hslash] at hs
    exact absurd hs (by simp)

/-! ## What stays -/

/-- `fs'` came from `fs` by work that wrote no files but those at `paths`. -/
structure Keeps (paths : List Path) (fs fs' : FileSystem) : Prop where
  /-- Relative paths still start from the same directory. -/
  here : fs'.here = fs.here
  /-- Directories stay. -/
  directory : ∀ place, fs.find? place = some .directory → fs'.find? place = some .directory
  /-- Files stay as they are, unless one of the paths leads to them. -/
  file : ∀ place content, fs.find? place = some (.file content) →
    (∀ p ∈ paths, fs.target p ≠ place) → fs'.find? place = some (.file content)
  /-- Where there was nothing, only directories are made, unless one of the paths leads there. -/
  fresh : ∀ place, fs.find? place = none → (∀ p ∈ paths, fs.target p ≠ place) →
    fs'.find? place = none ∨ fs'.find? place = some .directory

theorem Keeps.refl (paths : List Path) (fs : FileSystem) : Keeps paths fs fs :=
  ⟨rfl, fun _ h => h, fun _ _ h _ => h, fun _ h _ => .inl h⟩

theorem Keeps.trans {paths : List Path} {fs₁ fs₂ fs₃ : FileSystem} (h : Keeps paths fs₁ fs₂)
    (h' : Keeps paths fs₂ fs₃) : Keeps paths fs₁ fs₃ where
  here := h'.here.trans h.here
  directory place hd := h'.directory place (h.directory place hd)
  file place content hf hp :=
    h'.file place content (h.file place content hf hp)
      fun p hm => by rw [target_congr h.here]; exact hp p hm
  fresh place hn hp := by
    rcases h.fresh place hn hp with hnone | hdir
    · exact h'.fresh place hnone fun p hm => by rw [target_congr h.here]; exact hp p hm
    · exact .inr (h'.directory place hdir)

theorem Keeps.mono {paths more : List Path} {fs fs' : FileSystem} (h : Keeps paths fs fs')
    (hsub : ∀ p ∈ paths, p ∈ more) : Keeps more fs fs' :=
  ⟨h.here, h.directory,
    fun place content hf hp => h.file place content hf fun p hm => hp p (hsub p hm),
    fun place hn hp => h.fresh place hn fun p hm => hp p (hsub p hm)⟩

/-- **Where no written path leads, there is a file afterwards exactly if there was one before**, and
it has the content it had. -/
theorem Keeps.file_iff {paths : List Path} {fs fs' : FileSystem} {place : Location}
    (h : Keeps paths fs fs') (hp : ∀ p ∈ paths, fs.target p ≠ place) (content : ByteArray) :
    fs'.find? place = some (.file content) ↔ fs.find? place = some (.file content) := by
  refine ⟨fun hafter => ?_, fun hbefore => h.file place content hbefore hp⟩
  cases hbefore : fs.find? place with
  | none =>
    rcases h.fresh place hbefore hp with hnone | hdir
    · rw [hafter] at hnone
      exact absurd hnone (by simp)
    · rw [hafter] at hdir
      exact absurd hdir (by simp)
  | some entry =>
    cases entry with
    | directory =>
      rw [h.directory place hbefore] at hafter
      exact absurd hafter (by simp)
    | file old => rw [← hafter, h.file place old hbefore hp]

/-- A file that work was not allowed to write reads the same afterwards. -/
theorem Keeps.read {paths : List Path} {fs fs' : FileSystem} {p : Path} {content : ByteArray}
    (h : Keeps paths fs fs') (hp : ∀ q ∈ paths, fs.target q ≠ fs.target p)
    (hread : fs.read p = .ok content) : fs'.read p = .ok content := by
  obtain ⟨place, hleads, hfile⟩ := read_ok_iff.mp hread
  have htarget := hleads.eq_target
  -- the directories on the way have stayed, so the path still leads there
  refine read_ok_iff.mpr ⟨place, ⟨hleads.noNul, hleads.nonempty, ?_, fun hs => ?_⟩,
    h.file place content hfile fun q hq => htarget ▸ hp q hq⟩
  · rw [start_congr h.here]
    exact walk_mono h.directory hleads.walk
  · exact absurd hfile (hleads.slash hs content)

theorem keeps_write {fs fs' : FileSystem} {p : Path} {content : ByteArray}
    (h : fs.write p content = .ok fs') : Keeps [p] fs fs' := by
  obtain ⟨hw, rfl⟩ := write_ok_iff.mp h
  obtain ⟨_, hnodir, _⟩ := isWritable_target hw
  refine ⟨here_put, fun place hd => ?_, fun place found hf hp => ?_, fun place hn hp => .inl ?_⟩
  · rw [find?_put_of_ne fun he : place = fs.target p => hnodir (he ▸ hd)]
    exact hd
  · rw [find?_put_of_ne fun he => hp p List.mem_cons_self he.symm]
    exact hf
  · rw [find?_put_of_ne fun he => hp p List.mem_cons_self he.symm]
    exact hn

/-! ## Making directories -/

theorem keeps_put_directory {fs : FileSystem} {place : Location}
    (h : fs.find? place = none) : Keeps [] fs (fs.put place .directory) := by
  refine ⟨here_put, fun other hd => ?_, fun other content hf _ => ?_, fun other hn _ => ?_⟩
  · rw [find?_put_of_ne fun he => by rw [he, h] at hd; exact absurd hd (by simp)]
    exact hd
  · rw [find?_put_of_ne fun he => by rw [he, h] at hf; exact absurd hf (by simp)]
    exact hf
  · by_cases hsame : other = place
    · subst hsame
      by_cases hroot : other = []
      · rw [hroot, find?_root] at h
        exact absurd h (by simp)
      · exact .inr (find?_put_self hroot)
    · rw [find?_put_of_ne hsame]
      exact .inl hn

theorem keeps_makeDirectories : ∀ {names : List String} {fs fs' : FileSystem} {place : Location},
    fs.makeDirectories place names = .ok fs' → Keeps [] fs fs'
  | [], fs, fs', place, h => by
    rw [makeDirectories] at h
    injection h with h
    subst h
    exact .refl [] fs
  | name :: rest, fs, fs', place, h => by
    rw [makeDirectories] at h
    split at h
    · exact keeps_makeDirectories h
    · split at h
      · exact keeps_makeDirectories h
      · split at h
        · exact keeps_makeDirectories h
        · exact absurd h (by simp)
        · -- a directory is only made where there was nothing
          rename_i hnone
          exact (keeps_put_directory hnone).trans (keeps_makeDirectories h)

/-- Making directories changes no file. -/
theorem keeps_createDirectory {fs fs' : FileSystem} {p : Path}
    (h : fs.createDirectory p = .ok fs') : Keeps [] fs fs' := by
  unfold createDirectory at h
  split at h
  · exact absurd h (by simp)
  · exact keeps_makeDirectories h

/-- Whether a path leads to a directory. -/
def isDirectory (fs : FileSystem) (p : Path) : Bool :=
  match fs.locate p with
  | .error _ => false
  | .ok place => fs.find? place = some .directory

theorem makeDirectories_of_walk {fs : FileSystem} : ∀ {names : List String} {place last : Location},
    fs.walk place names = .ok last → fs.find? last = some .directory →
    fs.makeDirectories place names = .ok fs
  | [], _, _, _, _ => by rw [makeDirectories]
  | name :: rest, place, last, h, hlast => by
    have hwalk := (walk_cons_iff.mp h).2
    have hrest := makeDirectories_of_walk hwalk hlast
    -- the next place is a directory, as the walk goes on from it or ends there
    have hnext : fs.find? (enter place name) = some .directory := by
      cases rest with
      | nil =>
        rw [walk] at hwalk
        injection hwalk with hwalk
        rw [hwalk]
        exact hlast
      | cons other more => exact (walk_cons_iff.mp hwalk).1
    rw [makeDirectories]
    split
    · rename_i hdot
      rwa [enter, if_pos hdot] at hrest
    · rename_i hdot
      rw [enter, if_neg hdot] at hrest hnext
      split
      · rename_i hup
        rwa [if_pos hup] at hrest
      · rename_i hup
        rw [if_neg hup] at hrest hnext
        rw [hnext]
        exact hrest

/-- A directory that is there is not made again. -/
theorem createDirectory_of_isDirectory {fs : FileSystem} {p : Path} (h : fs.isDirectory p = true) :
    fs.createDirectory p = .ok fs := by
  unfold isDirectory at h
  cases hloc : fs.locate p with
  | error fault => rw [hloc] at h; exact absurd h (by simp)
  | ok place =>
    rw [hloc] at h
    have hleads := locate_ok_iff.mp hloc
    rw [createDirectory, if_neg (by rw [hleads.noNul]; simp)]
    exact makeDirectories_of_walk hleads.walk (by simpa using h)

end Disclosure.FileSystem
