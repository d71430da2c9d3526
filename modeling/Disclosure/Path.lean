import Disclosure.Text.Lossy
import Disclosure.Text.Split

/-!
# Paths

A path is kept as the text it was given as: nothing is resolved and no slash is dropped until a path
is made absolute. Joining puts exactly one slash between its parts, unless the first part is empty
or ends in one already, and an absolute second part stands for itself.

Descriptions only note where a file is, and show it. For them a path may be any row of bytes, as it
may be for the operating system (`RawPath`); a path that is no text is shown with loss.
-/

namespace Disclosure

/-- A file path, as written. -/
structure Path where
  text : String
  deriving DecidableEq, Repr, Inhabited

namespace Path

/-- Whether the path starts at the root directory. -/
def isAbsolute (p : Path) : Bool :=
  p.text.toList.head? == some '/'

/-- Whether a slash ends the path. -/
def endsInSlash (p : Path) : Bool :=
  p.text.toList.getLast? == some '/'

/-- The path below `base` that `name` stands for. -/
def join (base : Path) (name : String) : Path :=
  if (Path.mk name).isAbsolute then ⟨name⟩
  else if base.text.isEmpty || base.endsInSlash then ⟨base.text ++ name⟩
  else ⟨base.text ++ "/" ++ name⟩

/-- Relative paths are taken from `base`; absolute ones stand for themselves. -/
def resolveFrom (base p : Path) : Path :=
  base.join p.text

/-- The names between the slashes, without empty ones. -/
def names (p : Path) : List String :=
  (Text.splitAt '/' p.text).filter (!·.isEmpty)

/-- The names that count: a single dot counts only at the very start of a relative path. -/
def parts (p : Path) : List String :=
  match p.isAbsolute, p.names with
  | false, first :: rest => first :: rest.filter (· != ".")
  | _, all => all.filter (· != ".")

/-- Makes an absolute path from a directory and names below it. -/
def under (base : Path) (names : List String) : Path :=
  names.foldl join base

/-- Makes a path absolute against the directory `here`. Single dots and repeated slashes go, double
dots and a slash at the end stay, and so do exactly two slashes at the start. The empty path has no
absolute form. -/
def absolute? (here p : Path) : Option Path :=
  if p.text.isEmpty then none
  else
    let counted := p.parts.filter (· != ".")
    let start : Path :=
      if !p.isAbsolute then here
      else
        match p.text.toList with
        | '/' :: '/' :: '/' :: _ => ⟨"/"⟩
        | '/' :: '/' :: _ => ⟨"//"⟩
        | _ => ⟨"/"⟩
    let whole := start.under counted
    some (if p.endsInSlash then whole.join "" else whole)

/-- Drops slashes and single dots at the end of a reversed path, but not the root or a leading
dot. -/
def dropTail : Nat → List Char → List Char
  | 0, cs => cs
  | fuel + 1, cs =>
    match cs with
    | ['/'] => cs
    | '/' :: rest => dropTail fuel rest
    | '.' :: '/' :: rest => dropTail fuel ('/' :: rest)
    | _ => cs

/-- The path without its last name; `none` if it has none. -/
def parent? (p : Path) : Option Path :=
  let tail := dropTail p.text.length p.text.toList.reverse
  match tail.span (· != '/') with
  | ([], _) => none
  | (_, rest) => some ⟨String.ofList (dropTail rest.length rest).reverse⟩

/-- The last name of the path; `none` if it is missing or two dots. -/
def fileName? (p : Path) : Option String :=
  match p.parts.getLast? with
  | none => none
  | some name => if name == ".." || name == "." then none else some name

/-- The last name without its last extension; a dot at its start begins no extension. -/
def stem? (p : Path) : Option String :=
  p.fileName?.map fun name =>
    match name.toList.reverse.span (· != '.') with
    | (_, []) => name
    | (_, [_]) => name
    | (_, _ :: before) => String.ofList before.reverse

end Path

/-- A file path as the operating system has it. Its bytes need not be those of a text. -/
structure RawPath where
  bytes : List UInt8
  deriving DecidableEq, Repr

/-- The path that a text stands for. -/
def RawPath.ofText (text : String) : RawPath :=
  ⟨text.toUTF8.toList⟩

/-- What descriptions can note a file by: it can be shown. -/
class FileReference (π : Type) where
  /-- The text by which the file is shown. -/
  shown : π → String
  /-- Whether nothing is lost when the file is shown. -/
  isText : π → Bool

instance : FileReference Path where
  shown := Path.text
  isText _ := true

instance : FileReference RawPath where
  shown path := Text.lossy path.bytes
  isText path := (Text.decode? path.bytes).isSome

end Disclosure
