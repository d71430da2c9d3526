import Disclosure.Fault
import Disclosure.Log.Event

/-!
# Steps of work

A longer piece of work changes a value and the file system as it goes, tells about it in events, and
may come to a fault. What was changed before the fault stays changed. A **step** is the state after
such a piece of work; the next one is only taken if there was no fault.
-/

namespace Disclosure

/-- Where a piece of work has led to. -/
structure Step (α : Type) where
  value : α
  files : FileSystem
  events : List LogEntry
  fault : Option Fault

/-- A piece of work on a value. -/
abbrev Work (α : Type) := α → FileSystem → Step α

namespace Step

variable {α β : Type}

/-- A step without a fault. -/
def done (value : α) (files : FileSystem) (events : List Event) : Step α :=
  ⟨value, files, events.map .plain, none⟩

/-- A step that has come to a fault. -/
def failed (value : α) (files : FileSystem) (fault : Fault) : Step α :=
  ⟨value, files, [], some fault⟩

/-- The same step with its value seen as part of another. -/
def map (f : α → β) (s : Step α) : Step β :=
  ⟨f s.value, s.files, s.events, s.fault⟩

/-- Goes on with the next piece of work, unless there was a fault. -/
def andThen (s : Step α) (next : Work α) : Step α :=
  match s.fault with
  | some _ => s
  | none =>
    let t := next s.value s.files
    { t with events := s.events ++ t.events }

/-- The same step with its events inside a scope. -/
def inside (scope : LogScope) (s : Step α) : Step α :=
  { s with events := s.events.map (.inside scope) }

/-- Works on the values of a list one after another; a fault leaves the rest as they were. -/
def each (work : Work α) : Work (List α)
  | [], fs => done [] fs []
  | x :: rest, fs =>
    let s := work x fs
    match s.fault with
    | some _ => s.map (· :: rest)
    | none =>
      let t := each work rest s.files
      { t with value := s.value :: t.value, events := s.events ++ t.events }

/-- Does several pieces of work in a row. -/
def inOrder : List (Work α) → Work α
  | [], value, fs => done value fs []
  | work :: rest, value, fs => (work value fs).andThen (inOrder rest)

/-- The step that writing a file comes to: the value that notes the file, or the one there was. -/
def ofSaving (before : α) (files : FileSystem) (event : α → Event) :
    Except Fault (α × FileSystem) → Step α
  | .ok (after, written) => done after written [event after]
  | .error fault => failed before files fault

end Step

end Disclosure
