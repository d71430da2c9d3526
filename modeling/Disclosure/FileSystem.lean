import Disclosure.Path

/-!
# The file system as a value

Everything the program reads and writes lies in a map from locations to directories and file
contents. Reading looks a location up and writing gives a new map, so what a run leaves alone can be
stated as an equation between two maps.

A location is the row of names from the root directory. A path leads to one by walking its names:
every name but the last has to be a directory that is there.
-/

namespace Disclosure

/-- Why a file cannot be used. -/
inductive FileFault where
  | notFound
  | isDirectory
  | notDirectory
  | alreadyExists
  | badName
  | notText
  deriving DecidableEq, Repr

/-- What the system says about a fault. -/
def FileFault.message : FileFault → String
  | .notFound => "No such file or directory (os error 2)"
  | .isDirectory => "Is a directory (os error 21)"
  | .notDirectory => "Not a directory (os error 20)"
  | .alreadyExists => "File exists (os error 17)"
  | .badName => "file name contained an unexpected NUL byte"
  | .notText => "stream did not contain valid UTF-8"

/-- What stands at a location. -/
inductive Entry where
  | directory
  | file (content : ByteArray)

instance : DecidableEq Entry
  | .directory, .directory => isTrue rfl
  | .directory, .file _ => isFalse nofun
  | .file _, .directory => isFalse nofun
  | .file ⟨bytes⟩, .file ⟨others⟩ =>
    if same : bytes = others then isTrue (by rw [same])
    else isFalse fun h => same (by injection h with h; injection h)

/-- The names from the root directory down. -/
abbrev Location := List String

/-- Directories and files, and the directory that relative paths start from. -/
structure FileSystem where
  entries : List (Location × Entry)
  here : Location

namespace FileSystem

/-- What stands at a location; the root directory is always there. -/
def find? (fs : FileSystem) (place : Location) : Option Entry :=
  if place = [] then some .directory else fs.entries.lookup place

/-- Puts an entry at a location, in place of the one that stands there. -/
def put (fs : FileSystem) (place : Location) (entry : Entry) : FileSystem :=
  { fs with entries := replace fs.entries }
where
  /-- Changes the first entry at the location, or adds one at the end. -/
  replace : List (Location × Entry) → List (Location × Entry)
    | [] => [(place, entry)]
    | (other, old) :: rest =>
      if other = place then (place, entry) :: rest else (other, old) :: replace rest

/-- Goes from a location through a row of names. -/
def walk (fs : FileSystem) : Location → List String → Except FileFault Location
  | place, [] => .ok place
  | place, name :: rest =>
    match fs.find? place with
    | none => .error .notFound
    | some (.file _) => .error .notDirectory
    | some .directory =>
      if name = "." then fs.walk place rest
      else if name = ".." then fs.walk place.dropLast rest
      else fs.walk (place ++ [name]) rest

/-- The path of the working directory. -/
def herePath (fs : FileSystem) : Path :=
  ⟨"/" ++ "/".intercalate fs.here⟩

/-- Where a path starts from. -/
def start (fs : FileSystem) (p : Path) : Location :=
  if p.isAbsolute then [] else fs.here

/-- The location a path leads to; only its last name may be missing. A slash at the end of the path
asks for something other than a file. -/
def locate (fs : FileSystem) (p : Path) : Except FileFault Location := do
  if p.text.toList.contains '\x00' then throw .badName
  if p.text.isEmpty then throw .notFound
  let place ← fs.walk (fs.start p) p.names
  match fs.find? place with
  | some (.file _) => if p.endsInSlash then throw .notDirectory else pure place
  | _ => pure place

/-- Whether something stands at the end of a path. -/
def has (fs : FileSystem) (p : Path) : Bool :=
  match fs.locate p with
  | .ok place => (fs.find? place).isSome
  | .error _ => false

/-- The content of a file. -/
def read (fs : FileSystem) (p : Path) : Except FileFault ByteArray := do
  match fs.find? (← fs.locate p) with
  | none => .error .notFound
  | some .directory => .error .isDirectory
  | some (.file content) => .ok content

/-- The content of a text file. -/
def readText (fs : FileSystem) (p : Path) : Except FileFault String := do
  match String.fromUTF8? (← fs.read p) with
  | none => .error .notText
  | some text => .ok text

/-- Writes a file, in place of the one that was there. -/
def write (fs : FileSystem) (p : Path) (content : ByteArray) : Except FileFault FileSystem :=
  match fs.locate p with
  | .error fault => .error fault
  | .ok place =>
    match fs.find? place with
    | some .directory => .error .isDirectory
    | some (.file _) => .ok (fs.put place (.file content))
    | none => if p.endsInSlash then .error .isDirectory else .ok (fs.put place (.file content))

/-- Writes a text file. -/
def writeText (fs : FileSystem) (p : Path) (text : String) : Except FileFault FileSystem :=
  fs.write p text.toUTF8

/-- Adds text at the end of a file, which need not be there yet. -/
def appendText (fs : FileSystem) (p : Path) (text : String) : Except FileFault FileSystem :=
  match fs.read p with
  | .ok content => fs.write p (content ++ text.toUTF8)
  | .error .notFound => fs.write p text.toUTF8
  | .error fault => .error fault

/-- Makes the directories that are missing along a row of names. -/
def makeDirectories (fs : FileSystem) : Location → List String → Except FileFault FileSystem
  | _, [] => .ok fs
  | place, name :: rest =>
    if name = "." then fs.makeDirectories place rest
    else if name = ".." then fs.makeDirectories place.dropLast rest
    else
      match fs.find? (place ++ [name]) with
      | some .directory => fs.makeDirectories (place ++ [name]) rest
      | some (.file _) => .error (if rest = [] then .alreadyExists else .notDirectory)
      | none => (fs.put (place ++ [name]) .directory).makeDirectories (place ++ [name]) rest

/-- Makes a directory and the directories above it. -/
def createDirectory (fs : FileSystem) (p : Path) : Except FileFault FileSystem :=
  if p.text.toList.contains '\x00' then .error .badName
  else fs.makeDirectories (fs.start p) p.names

/-! ## Whole file systems -/

/-- A file system that has nothing but its working directory and the directories above it. -/
def empty (here : Location) : FileSystem :=
  ⟨(List.range here.length).map fun n => (here.take (n + 1), .directory), here⟩

/-- Writes a file and makes the directories above it that are missing. What cannot be made is left
out. -/
def provide (fs : FileSystem) (p : Path) (content : ByteArray) : FileSystem :=
  let made := match p.parent? with
    | none => fs
    | some above => (fs.createDirectory above).toOption.getD fs
  (made.write p content).toOption.getD made

/-- The entries that differ from those of an earlier file system. -/
def changesSince (fs before : FileSystem) : List (Location × Entry) :=
  fs.entries.filter fun (place, entry) => before.find? place != some entry

/-- Everything below the working directory with its path from there, a slash behind directories, in
the order of the paths. -/
def listing (fs : FileSystem) : List (String × Entry) :=
  (fs.entries.filterMap named).mergeSort fun a b => decide (a.1 ≤ b.1)
where
  /-- The path of an entry, if it is below the working directory. -/
  named : Location × Entry → Option (String × Entry)
    | (place, entry) =>
      let below := place.drop fs.here.length
      if fs.here.isPrefixOf place && !below.isEmpty then
        let path := "/".intercalate below
        match entry with
        | .directory => some (path ++ "/", entry)
        | .file _ => some (path, entry)
      else none

end FileSystem

end Disclosure
