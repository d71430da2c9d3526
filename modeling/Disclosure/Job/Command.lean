import Disclosure.Table
import Disclosure.Text.Line

/-!
# Batch commands

The engine is told what to do by a batch file with one command a line: a keyword in angle brackets
and, behind a tab, the argument if the command takes one. Arguments go by position, so a part that
is left out leaves its separator behind.
-/

namespace Disclosure

/-- What a variable is recoded by: a recode file, or the number of levels to keep. -/
inductive RecodeTarget where
  | file (path : Path)
  | level (level : Nat)
  deriving DecidableEq, Repr

/-- A command to the engine. Tables go by their number, counted from 1. -/
inductive BatchCommand where
  | logbook (path : Path)
  | versionInfo (path : Path)
  | openMicrodata (path : Path)
  | openTableData (path : Path)
  | openMetadata (path : Path)
  | specifyTable (explanatory : List String) (response : Response) (shadow : Option String)
      (cost : Option Cost) (lambda : Option Float)
  | safetyRule (rules : List String)
  | readMicrodata
  | readTable (computeTotals : Option Bool)
  | apriori (path : Path) (table : Nat) (separator : String) (ignoreError expandTrivial : Bool)
  | recode (table : Nat) (column : String) (target : RecodeTarget)
  | suppress (table : Nat) (suppression : Suppression)
  | writeTable (table kind : Nat) (options : List (String × Bool)) (path : Path)
  | goInteractive
  | clear

/-- A text between quotes. -/
def quoteArgument (text : String) : String :=
  "\"" ++ text ++ "\""

/-- A yes or no, written as a digit. -/
def flagDigit (flag : Bool) : String :=
  if flag then "1" else "0"

/-- The response as the engine is told it. -/
def Response.argument : Response → String
  | frequency => quoteArgument frequencyName
  | column name => quoteArgument name

/-- The costs as the engine is told them: a column, or the number of one of the usual measures. -/
def Cost.argument : Cost → String
  | column name => quoteArgument name
  | other => (other.code?.map toString).getD ""

/-- The target of a recode as the engine is told it. -/
def RecodeTarget.argument : RecodeTarget → String
  | file path => quoteArgument path.text
  | level n => toString n

namespace BatchCommand

/-- The number of the file format with commas. -/
def commaFormat : Nat := 2

/-- The keyword of a command. -/
def keyword : BatchCommand → String
  | logbook _ => "LOGBOOK"
  | versionInfo _ => "VERSIONINFO"
  | openMicrodata _ => "OPENMICRODATA"
  | openTableData _ => "OPENTABLEDATA"
  | openMetadata _ => "OPENMETADATA"
  | specifyTable .. => "SPECIFYTABLE"
  | safetyRule _ => "SAFETYRULE"
  | readMicrodata => "READMICRODATA"
  | readTable _ => "READTABLE"
  | apriori .. => "APRIORI"
  | recode .. => "RECODE"
  | suppress .. => "SUPPRESS"
  | writeTable .. => "WRITETABLE"
  | goInteractive => "GOINTERACTIVE"
  | clear => "CLEAR"

/-- An option of the written table, with its sign. -/
def optionText (option : String × Bool) : String :=
  option.1 ++ (if option.2 then "+" else "-")

/-- The argument of a command, if it takes one. -/
def argument? : BatchCommand → Option String
  | logbook path | versionInfo path | openMicrodata path | openTableData path
  | openMetadata path => some (quoteArgument path.text)
  | specifyTable explanatory response shadow cost lambda =>
    let parts :=
      [String.join (explanatory.map quoteArgument), response.argument,
        (shadow.map quoteArgument).getD "", (cost.map Cost.argument).getD ""]
    some ("|".intercalate (parts ++ (lambda.map numberText).toList))
  | safetyRule rules => some ("|".intercalate rules)
  | readTable computeTotals => computeTotals.map flagDigit
  | apriori path table separator ignoreError expandTrivial =>
    some (", ".intercalate
      [quoteArgument path.text, toString table, quoteArgument separator, flagDigit ignoreError,
        flagDigit expandTrivial])
  | recode table column target =>
    some (", ".intercalate [toString table, quoteArgument column, target.argument])
  | suppress table suppression => some (suppression.render table)
  | writeTable table kind options path =>
    some ("(" ++ ", ".intercalate
      [toString table, toString kind, String.join (options.map optionText),
        quoteArgument path.text] ++ ")")
  | readMicrodata | goInteractive | clear => none

/-- The line of a command. -/
def render (c : BatchCommand) : String :=
  let keyword := "<" ++ c.keyword ++ ">"
  match c.argument? with
  | some argument => keyword ++ "\t" ++ argument
  | none => keyword

end BatchCommand

/-- The text of a batch file. -/
def renderBatch (commands : List BatchCommand) : String :=
  Text.unlines (commands.map BatchCommand.render)

end Disclosure
