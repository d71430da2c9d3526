import Disclosure.Job.Basic

/-!
# The files of a job

A job that is set up has a place for everything it needs: the files the engine reads, those it
writes, the batch file and the logbook. They are listed in a fixed order, each with what it is for.
-/

namespace Disclosure

/-- What a file of a job is. -/
inductive ArtifactKind where
  | data
  | metadata
  | hierarchy
  | codeList
  | apriori
  | recode
  | output
  | batch
  | logbook
  deriving DecidableEq, Repr

/-- The name of a kind of file. -/
def ArtifactKind.name : ArtifactKind → String
  | data => "data"
  | metadata => "metadata"
  | hierarchy => "hierarchy"
  | codeList => "codelist"
  | apriori => "apriori"
  | recode => "recode"
  | output => "output"
  | batch => "batch"
  | logbook => "logbook"

/-- A file of a job: what it is, what it belongs to, and where it is. -/
structure JobArtifact where
  kind : ArtifactKind
  subject : String
  path : Path
  deriving DecidableEq, Repr

namespace JobArtifact

/-- A file that is listed if it has a place. -/
def ofPlace (kind : ArtifactKind) (subject : String) (path : Option Path) : List JobArtifact :=
  path.toList.map (JobArtifact.mk kind subject)

/-- The files of a column. -/
def ofColumn (column : Column) : List JobArtifact :=
  ofPlace .hierarchy column.name (column.hierarchy.tree?.bind (·.path)) ++
    ofPlace .codeList column.name (column.codeList.bind (·.path))

/-- The file that a recode reads, if it reads one. -/
def recodePath? : Recode → Option Path
  | .file path => some path
  | .tree recode => recode.path
  | .level _ => none

/-- The files of a table. -/
def ofTable (name : String) (table : Table) : List JobArtifact :=
  ofPlace .apriori name (table.overrides.bind (·.path)) ++
    (table.recodes.flatMap fun (column, recode) =>
      ofPlace .recode (name ++ "." ++ column) (recodePath? recode)) ++
    ofPlace .output name table.outputPath

end JobArtifact

/-- The files of a job. -/
def Job.artifacts (j : Job) : List JobArtifact :=
  JobArtifact.ofPlace .data j.input.kind.name j.input.dataPath ++
    JobArtifact.ofPlace .metadata j.input.kind.name j.input.metadataPath ++
    j.input.columns.flatMap JobArtifact.ofColumn ++
    (j.tables.flatMap fun (name, table) => JobArtifact.ofTable name table) ++
    [⟨.batch, j.name, j.paths.batch⟩] ++
    JobArtifact.ofPlace .logbook j.name j.logbookPath?

end Disclosure
