import Disclosure.Fault

/-!
# Where a job keeps its files

Everything a job writes lies under its directory and begins with the name of the job, so that jobs
with different names can share a directory. Names that people give become **slugs** first: small
letters, digits and underscores, with single dashes in place of everything else.
-/

namespace Disclosure

/-- A character of a slug; everything but letters, digits and underscores becomes a dash. -/
def slugChar (c : Char) : Char :=
  if c.isAlphanum || c = '_' then c.toLower else '-'

/-- The slug of a name: its words with single dashes between them. -/
def slug (name : String) : String :=
  "-".intercalate ((Text.splitAt '-' (String.ofList (name.toList.map slugChar))).filter (· != ""))

/-- The directory of a job and the name its files begin with. -/
structure JobPaths where
  directory : Path
  job : String
  deriving DecidableEq, Repr

namespace JobPaths

/-- The directory of files that the engine reads. -/
def input (p : JobPaths) : Path :=
  p.directory.join "input"

/-- The directory of files that the engine writes. -/
def output (p : JobPaths) : Path :=
  p.directory.join "output"

/-- The directory that the engine may work in. -/
def work (p : JobPaths) : Path :=
  (p.directory.join "work").join p.job

/-- The batch file. -/
def batch (p : JobPaths) : Path :=
  p.directory.join (p.job ++ ".arb")

/-- The logbook, unless another is chosen. -/
def logbook (p : JobPaths) : Path :=
  p.directory.join (p.job ++ "_logbook.txt")

/-- A file that the engine reads. -/
def inputFile (p : JobPaths) (ending : String) : Path :=
  p.input.join (p.job ++ "_" ++ ending)

/-- The data file of an input of the named kind. -/
def data (p : JobPaths) (kind : String) : Path :=
  p.inputFile (kind ++ ".csv")

/-- The metadata file of an input of the named kind. -/
def metadata (p : JobPaths) (kind : String) : Path :=
  p.inputFile (kind ++ ".rda")

/-- The hierarchy file of a column. -/
def hierarchy (p : JobPaths) (column : String) : Path :=
  p.inputFile (column ++ "_hierarchy.hrc")

/-- The file of a column's code list. -/
def codeList (p : JobPaths) (column : String) : Path :=
  p.inputFile (column ++ "_codelist.cdl")

/-- The a priori file of a table. -/
def apriori (p : JobPaths) (table : String) : Path :=
  p.inputFile (slug table ++ "_apriori.hst")

/-- The recode file of a column in a table. -/
def recode (p : JobPaths) (table column : String) : Path :=
  p.inputFile (slug table ++ "_" ++ column ++ ".grc")

/-- The file that a table is written to. -/
def tableOutput (p : JobPaths) (table : String) : Path :=
  p.output.join (p.job ++ "_" ++ slug table ++ ".csv")

end JobPaths

end Disclosure
