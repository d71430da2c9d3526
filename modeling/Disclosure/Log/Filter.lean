import Disclosure.Decimal.Reading
import Disclosure.Log.Event
import Disclosure.Text.Blank
import Disclosure.Text.Case
import Disclosure.Text.Split

/-!
# Which events are shown

A filter is a row of directives. Each names the beginning of a source and the level up to which
events from there are shown; a directive without a source is for all others. Of all directives that
fit a source, the one that names most of it decides, and among equals the one that was given last.
What no directive fits is not shown.
-/

namespace Disclosure

/-- The level up to which events of some sources are shown; `none` stands for every source. -/
structure LogDirective where
  source : Option String
  limit : LogLevel
  deriving DecidableEq, Repr

namespace LogDirective

/-- A directive as text. -/
def render (d : LogDirective) : String :=
  match d.source with
  | none => d.limit.name
  | some source => source ++ "=" ++ d.limit.name

/-- Whether a directive is about a source. -/
def fits (d : LogDirective) (source : String) : Bool :=
  match d.source with
  | none => true
  | some lead => (Text.dropLead? lead.toList source.toList).isSome

/-- How much of a source the directive names; naming nothing is less than the empty name. -/
def weight (d : LogDirective) : Nat :=
  match d.source with
  | none => 0
  | some lead => lead.utf8ByteSize + 1

end LogDirective

/-- The level with a name, in any case of letters, or with a number; the empty name stands for
errors. -/
def LogLevel.ofText? (text : String) : Option LogLevel :=
  let digits := match text.toList with
    | '+' :: rest => rest
    | cs => cs
  match readNat? digits with
  | some n => LogLevel.all[n]?
  | none =>
    if text = "" then some .error
    else LogLevel.all.find? fun level => Text.sameLetters level.name text

/-- Directives that together decide what is shown. -/
abbrev LogFilter := List LogDirective

namespace LogFilter

/-- The parts of the program whose events follow the chosen level. -/
def ownSources : List String :=
  ["sdc_cli", "sdc_batch", "sdc_hierarchy", "sdc_model", "sdc_result"]

/-- The filter for a chosen level: everything that is not the program's own stays at warnings. -/
def upTo (limit : LogLevel) : LogFilter :=
  ⟨none, .warn⟩ :: ownSources.map fun source => ⟨some source, limit⟩

/-- A filter as text. -/
def render (filter : LogFilter) : String :=
  ",".intercalate (filter.map LogDirective.render)

/-- Takes the heavier of two directives, the second if they weigh the same. -/
def heavier (d e : LogDirective) : LogDirective :=
  if e.weight < d.weight then d else e

/-- The directive that decides about a source. -/
def deciding? (filter : LogFilter) (source : String) : Option LogDirective :=
  match filter.filter (·.fits source) with
  | [] => none
  | d :: rest => some (rest.foldl heavier d)

/-- Whether something of a level from a source is shown. -/
def shows (filter : LogFilter) (source : String) (level : LogLevel) : Bool :=
  match filter.deciding? source with
  | none => false
  | some d => d.limit.admits level

/-- Whether a directive may start with a character. -/
def startsDirective (c : Char) : Bool :=
  c.isAlphanum || c = '_' || c = ':' || c = '-'

/-- Whether a text can be a directive at all: behind blanks there is something that may start one.
Brackets would speak of scopes, which filters do not. -/
def isDirective (cs : List Char) : Bool :=
  (Text.trimStart cs).head?.any startsDirective && !cs.contains '['

/-- Reads one directive: a level, a source, or both with an equals sign between them. A source
without a level shows everything, and blanks belong to the source. -/
def readDirective? (text : String) : Option LogDirective :=
  let cs := text.toList
  if !isDirective cs then none
  else
    match Text.cutAt? '=' cs with
    | none =>
      match LogLevel.ofText? text with
      | some level => some ⟨none, level⟩
      | none => some ⟨text, .trace⟩
    | some (source, level) =>
      if source.head?.any Text.isBlank then none
      else if level = [] then some ⟨String.ofList source, .trace⟩
      else (LogLevel.ofText? (String.ofList level)).map fun limit => ⟨String.ofList source, limit⟩

/-- Reads a filter. Empty directives are skipped, and without any directive errors are shown. One
directive that cannot be read spoils the filter. -/
def ofText? (text : String) : Option LogFilter := do
  let directives ← ((Text.splitAt ',' text).filter (· != "")).mapM readDirective?
  pure (if directives.isEmpty then [⟨none, .error⟩] else directives)

/-- The entries that are shown, each with those of its scopes that are shown. -/
def apply (filter : LogFilter) (entries : List LogEntry) : List LogEntry :=
  (entries.filter fun entry => filter.shows entry.event.source entry.event.level).map fun entry =>
    { entry with scopes := entry.scopes.filter fun scope => filter.shows scope.source .info }

end LogFilter

end Disclosure
