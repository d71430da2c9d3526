import Disclosure.CommandLine.Run

/-!
# The program

The files that a run needs are read from the disk, the run itself works on values, and what it has
changed is written back.
-/

namespace Disclosure.Disk

/-- Adds what stands at a path on the disk, and the directory above it. -/
def observe (fs : FileSystem) (path : Path) : IO FileSystem := do
  let place := (← IO.currentDir) / path.text
  let mut fs := fs
  if let some above := place.parent then
    if ← above.isDir then fs := (fs.createDirectory ⟨above.toString⟩).toOption.getD fs
  if ← place.isDir then return (fs.createDirectory path).toOption.getD fs
  if ← place.pathExists then return fs.provide path (← IO.FS.readBinFile place)
  return fs

/-- Adds what stands at several paths. -/
def observeAll (fs : FileSystem) (paths : List Path) : IO FileSystem :=
  paths.foldlM observe fs

/-- The file system as far as a request needs it. -/
def filesFor (i : CommandLine.Invocation) : IO FileSystem := do
  let here : Path := ⟨(← IO.currentDir).toString⟩
  let fs ← observeAll (.empty here.names) (i.action.operand :: i.log.file.toList)
  observeAll fs (i.action.sources fs)

/-- Writes an entry to the disk. -/
def store : Location × Entry → IO Unit
  | (place, .directory) => IO.FS.createDirAll ("/" ++ "/".intercalate place)
  | (place, .file content) => IO.FS.writeBinFile ("/" ++ "/".intercalate place) content

end Disclosure.Disk

open Disclosure in
/-- Runs the program. -/
def main (args : List String) : IO UInt32 := do
  let before ← match CommandLine.Invocation.ofArguments args with
    | .ok invocation => Disk.filesFor invocation
    | .error _ => pure (.empty [])
  let outcome := CommandLine.run (← IO.getEnv "RUST_LOG") args before
  (outcome.files.changesSince before).forM Disk.store
  IO.print outcome.out
  IO.eprint outcome.err
  return outcome.exit.toUInt32
