import Disclosure.CodeTree.Rows
import Disclosure.Input.Metadata
import Disclosure.Proofs.Decimal
import Disclosure.Proofs.Fault
import Disclosure.Proofs.Text.Blank
import Disclosure.Proofs.Text.Bytes
import Disclosure.Proofs.Text.Joined
import Mathlib.Data.List.Basic
import Mathlib.Data.Option.Basic

/-!
# Metadata loses nothing

The metadata of microdata describes the separator and, column by column, a `Description`. It is
written as a block of lines. The first line of a block begins with the name of the column and the
others with a tab, so the blocks are told from the lines; behind the tab stands a keyword, so the
arguments are told from a block; and from the arguments the description is told.

The one thing that is lost is what is no text in the path of a file: paths that differ in bytes that
are not UTF-8 are shown alike. So files are told apart only if their paths are texts.
-/

namespace Disclosure

/-! ## Files that are shown -/

/-- Files whose references are texts are told apart by what is shown. -/
class LawfulFileReference (π : Type) [FileReference π] : Prop where
  shown_inj : ∀ {p q : π}, FileReference.isText p = true → FileReference.isText q = true →
    FileReference.shown p = FileReference.shown q → p = q

instance : LawfulFileReference Path where
  shown_inj _ _ h := congrArg Path.mk h

instance : LawfulFileReference RawPath where
  shown_inj {p q} hp hq h := by
    obtain ⟨text, htext⟩ := Option.isSome_iff_exists.mp hp
    obtain ⟨other, hother⟩ := Option.isSome_iff_exists.mp hq
    obtain rfl : text = other := by
      rw [← Text.lossy_of_decode? htext, ← Text.lossy_of_decode? hother]
      exact h
    have hbytes : p.bytes = q.bytes :=
      (Text.bytes_of_decode? htext).symm.trans (Text.bytes_of_decode? hother)
    exact congrArg RawPath.mk hbytes

/-- The path that a text stands for is a text, and shown as that one. -/
theorem RawPath.shown_ofText (text : String) :
    FileReference.isText (RawPath.ofText text) = true ∧
      FileReference.shown (RawPath.ofText text) = text := by
  have htext := Text.decode?_toUTF8 text
  exact ⟨Option.isSome_iff_exists.mpr ⟨text, htext⟩, Text.lossy_of_decode? htext⟩

/-- References that are texts are the same if they are shown alike. -/
theorem map_shown_inj {π : Type} [FileReference π] [LawfulFileReference π] {path other : Option π}
    (hpath : ∀ p ∈ path, FileReference.isText p = true)
    (hother : ∀ p ∈ other, FileReference.isText p = true)
    (h : path.map FileReference.shown = other.map FileReference.shown) : path = other := by
  cases path with
  | none => exact (Option.map_eq_none_iff.mp h.symm).symm
  | some p =>
    obtain ⟨q, rfl, hq⟩ := Option.map_eq_some_iff.mp h.symm
    rw [LawfulFileReference.shown_inj (hpath p rfl) (hother q rfl) hq.symm]

/-! ## What is told about a column -/

/-- How codes are grouped, as the engine is told it: a tree goes by its file and its indent. -/
inductive Grouping (π : Type := Path) where
  | flat
  | levels (widths : List Nat)
  | tree (path : Option π) (indent : String)
  deriving DecidableEq

variable {π : Type}

/-- How the codes of a hierarchy are grouped. -/
def Hierarchy.grouping : Hierarchy π → Grouping π
  | flat _ => .flat
  | levels h => .levels h.widths
  | tree h => .tree h.path h.indent

/-- What the engine is told about a column of microdata. -/
@[ext] structure Description (π : Type := Path) where
  name : String
  length : Nat
  missing : List String
  numeric : Bool
  decimals : Option Nat
  recodable : Bool
  /-- The total code, which counts only if the column can be recoded. -/
  total : Option String
  grouping : Grouping π
  codeListPath : Option π
  weight : Bool
  /-- The values of the request, if the column has this role. -/
  request : Option (List String)
  holding : Bool
  deriving DecidableEq

/-- The description of a column, given the roles that columns have. -/
def Column.describe (roles : MicrodataRoles) (c : Column π) : Description π where
  name := c.name
  length := c.length
  missing := c.missing
  numeric := c.isNumeric
  decimals := c.decimals?
  recodable := c.isRecodable
  total := if c.isRecodable then some c.totalCode else none
  grouping := c.hierarchy.grouping
  codeListPath := c.codeList.bind CodeList.path
  weight := roles.weight = c.name
  request := if roles.request = c.name then some roles.requestValues else none
  holding := roles.holding = c.name

/-- Only columns of the input have roles. -/
def MicrodataRoles.Among (roles : MicrodataRoles) (columns : List (Column π)) : Prop :=
  ∀ name, roles.weight = some name ∨ roles.request = some name ∨ roles.holding = some name →
    ∃ c ∈ columns, c.name = name

/-- A column with a role has it in the other input. -/
theorem MicrodataRoles.of_describe {roles others : MicrodataRoles} {columns more : List (Column π)}
    (hamong : roles.Among columns)
    (h : columns.map (Column.describe roles) = more.map (Column.describe others)) (name : String) :
    (roles.weight = some name → others.weight = some name) ∧
    (roles.request = some name →
      others.request = some name ∧ others.requestValues = roles.requestValues) ∧
    (roles.holding = some name → others.holding = some name) := by
  have hfind : ∀ c ∈ columns, ∃ k : Column π, k.describe others = c.describe roles := by
    intro c hc
    have hmem : c.describe roles ∈ more.map (Column.describe others) := h ▸ List.mem_map_of_mem hc
    obtain ⟨k, _, hk⟩ := List.mem_map.mp hmem
    exact ⟨k, hk⟩
  refine ⟨fun hrole => ?_, fun hrole => ?_, fun hrole => ?_⟩
  · obtain ⟨c, hc, rfl⟩ := hamong name (.inl hrole)
    obtain ⟨k, hk⟩ := hfind c hc
    have hname : k.name = c.name := congrArg Description.name hk
    have hweight := congrArg Description.weight hk
    simpa [Column.describe, hrole, hname] using hweight
  · obtain ⟨c, hc, rfl⟩ := hamong name (.inr (.inl hrole))
    obtain ⟨k, hk⟩ := hfind c hc
    have hname : k.name = c.name := congrArg Description.name hk
    have hrequest := congrArg Description.request hk
    simpa [Column.describe, hrole, hname] using hrequest
  · obtain ⟨c, hc, rfl⟩ := hamong name (.inr (.inr hrole))
    obtain ⟨k, hk⟩ := hfind c hc
    have hname : k.name = c.name := congrArg Description.name hk
    have hholding := congrArg Description.holding hk
    simpa [Column.describe, hrole, hname] using hholding

/-- A separator is told from the character that is written for it. -/
theorem Input.separator_inj {i j : Input π} (h : i.separatorChar = j.separatorChar) :
    i.separator = j.separator := by
  have hvalid : ∀ b : UInt8, (Char.ofNat b.toNat).toNat = b.toNat := by
    intro b
    have hsmall : b.toNat.isValidChar := .inl (by have := b.toNat_lt; omega)
    rw [Char.ofNat, dif_pos hsmall]
    rfl
  have hcodes := congrArg Char.toNat h
  rw [separatorChar, separatorChar, hvalid, hvalid] at hcodes
  exact UInt8.toNat_inj.mp hcodes

/-! ## Descriptions as lines -/

/-- The argument of a keyword that stands alone. -/
def flagArgument (flag : Bool) : Option String :=
  if flag then some "" else none

namespace Description

/-- The keywords about numbers. -/
def numberKeywords : List String :=
  ["\t<NUMERIC>", "\t<DECIMALS> "]

/-- The keywords about recoding. -/
def recodeKeywords : List String :=
  ["\t<RECODABLE>", "\t<TOTCODE> ", "\t<HIERARCHICAL>", "\t<HIERLEVELS> ", "\t<HIERCODELIST> ",
    "\t<HIERLEADSTRING> "]

/-- The keyword about the code list. -/
def codeListKeywords : List String :=
  ["\t<CODELIST> "]

/-- The keywords about roles. -/
def roleKeywords : List String :=
  ["\t<WEIGHT>", "\t<REQUEST> ", "\t<HOLDING>"]

def numberArguments (d : Description π) : List (Option String) :=
  [flagArgument d.numeric, d.decimals.map toString]

def roleArguments (d : Description π) : List (Option String) :=
  [flagArgument d.weight, d.request.map Text.quotedRow, flagArgument d.holding]

def keywords : List String :=
  numberKeywords ++ recodeKeywords ++ codeListKeywords ++ roleKeywords

/-- The first line of a block. -/
def header (d : Description π) : String :=
  " ".intercalate (d.name :: toString d.length :: d.missing)

variable {d e : Description π}

theorem flagArgument_inj {flag other : Bool} (h : flagArgument flag = flagArgument other) :
    flag = other := by
  cases flag <;> cases other <;> simp [flagArgument] at h ⊢

theorem numberArguments_inj (h : d.numberArguments = e.numberArguments) :
    d.numeric = e.numeric ∧ d.decimals = e.decimals := by
  obtain ⟨hnumeric, hdecimals⟩ : flagArgument d.numeric = flagArgument e.numeric ∧
      d.decimals.map toString = e.decimals.map toString := by
    simpa [numberArguments] using h
  exact ⟨flagArgument_inj hnumeric, Option.map_injective (fun _ _ => toString_nat_inj) hdecimals⟩

end Description

namespace Column

theorem headerLine_eq (c : Column π) (roles : MicrodataRoles) :
    c.headerLine true = (c.describe roles).header := by
  rw [headerLine, Description.header]
  cases hmissing : c.missing with
  | nil => simp [describe, hmissing]
  | cons marker rest => simp [describe, hmissing, String.intercalate_cons_cons]

theorem numericLines_eq (c : Column π) (roles : MicrodataRoles) : c.numericLines =
    Text.keywordLines Description.numberKeywords (c.describe roles).numberArguments := by
  rw [numericLines, Description.numberArguments, Description.numberKeywords, describe]
  by_cases hnumeric : c.isNumeric = true
  · cases hd : c.decimals? with
    | none => simp [hnumeric, flagArgument]
    | some n => simp [hnumeric, flagArgument, toString]
  · -- what has decimal places is a number
    have hd : c.decimals? = none := by
      refine if_neg fun hfractional => hnumeric ?_
      rw [isNumeric, hfractional]
      rfl
    simp [hnumeric, hd, flagArgument]

theorem roleLines_eq (c : Column π) (roles : MicrodataRoles) :
    Input.roleLines (.microdata roles) c.name =
      Text.keywordLines Description.roleKeywords (c.describe roles).roleArguments := by
  rw [Description.roleArguments, Description.roleKeywords, describe, Input.roleLines,
    Input.microdataRoleLines]
  by_cases hweight : roles.weight = some c.name <;>
    by_cases hrequest : roles.request = some c.name <;>
    by_cases hholding : roles.holding = some c.name <;>
    simp [hweight, hrequest, hholding, flagArgument, Text.quotedRow]

end Column

/-! ### Lines that name files -/

variable [FileReference π]

/-- What the lines about a hierarchy have behind their keywords. -/
def Grouping.arguments : Grouping π → List (Option String)
  | flat => [none, none, none, none]
  | levels widths => [some "", some (" ".intercalate (widths.map toString)), none, none]
  | tree path indent => [some "", none, path.map FileReference.shown, some indent]

namespace Description

def recodeArguments (d : Description π) : List (Option String) :=
  flagArgument d.recodable :: d.total :: d.grouping.arguments

def codeListArguments (d : Description π) : List (Option String) :=
  [d.codeListPath.map FileReference.shown]

def arguments (d : Description π) : List (Option String) :=
  d.numberArguments ++ d.recodeArguments ++ d.codeListArguments ++ d.roleArguments

/-- The block of a description. -/
def block (d : Description π) : List String :=
  d.header :: Text.keywordLines keywords d.arguments

end Description

namespace Column

variable {c : Column π} {roles : MicrodataRoles} {lines : List String}

theorem recodeLines_eq (h : c.recodeLines = .ok lines) (roles : MicrodataRoles) : lines =
    Text.keywordLines Description.recodeKeywords (c.describe roles).recodeArguments := by
  rw [Description.recodeArguments, Description.recodeKeywords, describe]
  rw [recodeLines] at h
  by_cases hrecodable : c.isRecodable = true
  · rw [if_pos hrecodable] at h
    obtain ⟨own, hown, rfl⟩ := Fault.map_eq_ok_iff.mp h
    rw [hierarchyLines] at hown
    cases hh : c.hierarchy with
    | flat total =>
      obtain rfl : [] = own := by simpa [hh] using hown
      simp [hrecodable, Hierarchy.grouping, Grouping.arguments, flagArgument]
    | levels levels =>
      rw [hh] at hown
      rw [← Except.ok.inj hown]
      simp [hrecodable, Hierarchy.grouping, Grouping.arguments, flagArgument]
    | tree tree =>
      rw [hh] at hown
      dsimp only at hown
      cases hpath : tree.path with
      | none => simp [hpath] at hown
      | some path =>
        rw [hpath] at hown
        rw [← Except.ok.inj hown]
        simp [hrecodable, Hierarchy.grouping, Grouping.arguments, hpath, flagArgument]
  · rw [if_neg hrecodable] at h
    obtain ⟨total, hflat⟩ : ∃ total, c.hierarchy = .flat total := by
      cases hh : c.hierarchy with
      | flat total => exact ⟨total, rfl⟩
      | levels levels => simp [isRecodable, hh, Hierarchy.isHierarchical] at hrecodable
      | tree tree => simp [isRecodable, hh, Hierarchy.isHierarchical] at hrecodable
    rw [← Except.ok.inj h]
    simp [hrecodable, hflat, Hierarchy.grouping, Grouping.arguments, flagArgument]

theorem codeListLines_eq (h : c.codeListLines = .ok lines) (roles : MicrodataRoles) : lines =
    Text.keywordLines Description.codeListKeywords (c.describe roles).codeListArguments := by
  rw [Description.codeListArguments, Description.codeListKeywords, describe]
  rw [codeListLines] at h
  cases hlist : c.codeList with
  | none =>
    rw [hlist] at h
    rw [← Except.ok.inj h]
    simp
  | some codeList =>
    rw [hlist] at h
    dsimp only at h
    cases hpath : codeList.path with
    | none => simp [hpath] at h
    | some path =>
      rw [hpath] at h
      rw [← Except.ok.inj h]
      simp [hpath]

/-- The lines about a column are the block of its description. -/
theorem metadataLines_eq (h : c.metadataLines true = .ok lines) (roles : MicrodataRoles) :
    lines ++ Input.roleLines (.microdata roles) c.name = (c.describe roles).block := by
  obtain ⟨recode, hrecode, h₁⟩ := Fault.ok_of_bind h
  obtain ⟨codes, hcodes, h₂⟩ := Fault.ok_of_bind h₁
  obtain rfl : c.headerLine true :: (c.numericLines ++ recode ++ codes) = lines :=
    Except.ok.inj h₂
  have hrecodeArguments : Description.recodeKeywords.length =
      (c.describe roles).recodeArguments.length := by
    rw [Description.recodeArguments]
    cases (c.describe roles).grouping <;> rfl
  rw [Description.block, Description.keywords, Description.arguments,
    Text.keywordLines_append (by simp [hrecodeArguments]; rfl),
    Text.keywordLines_append (by simp [hrecodeArguments]; rfl),
    Text.keywordLines_append rfl, ← numericLines_eq, ← recodeLines_eq hrecode,
    ← codeListLines_eq hcodes, ← roleLines_eq, headerLine_eq c roles, List.cons_append]

end Column

namespace Input

variable {roles : MicrodataRoles}

theorem columnLines_eq : ∀ {columns : List (Column π)} {lines : List String},
    columnLines (.microdata roles) columns = .ok lines →
    lines = (columns.map (Column.describe roles)).flatMap Description.block
  | [], lines, h => (Except.ok.inj h).symm
  | c :: rest, lines, h => by
    rw [columnLines] at h
    obtain ⟨own, hown, h₁⟩ := Fault.ok_of_bind h
    obtain ⟨others, hothers, h₂⟩ := Fault.ok_of_bind h₁
    rw [← Except.ok.inj h₂, Column.metadataLines_eq hown roles, columnLines_eq hothers,
      List.map_cons, List.flatMap_cons]

/-- The metadata of microdata is made of the separator and the descriptions of the columns. -/
theorem metadataText_eq {i : Input π} {text : String} (hroles : i.roles = .microdata roles)
    (h : i.metadataText = .ok text) :
    text = Text.unlines (("\t<SEPARATOR> " ++ String.singleton i.separatorChar) ::
      (i.columns.map (Column.describe roles)).flatMap Description.block) := by
  obtain ⟨lines, hlines, h₁⟩ := Fault.ok_of_bind h
  rw [hroles] at hlines h₁
  rw [← Except.ok.inj h₁, columnLines_eq hlines]
  rfl

end Input

/-! ## Descriptions from lines -/

/-- The file of a tree. -/
def Grouping.path? : Grouping π → Option π
  | tree path _ => path
  | _ => none

/-- The texts that stand in a line of their own. -/
def Grouping.texts : Grouping π → List String
  | tree path indent => indent :: (path.map FileReference.shown).toList
  | _ => []

namespace Description

/-- What stands behind keywords has no line feed in it, the name and the markers have no blanks, and
no value of the request has a quote. -/
structure IsPlain (d : Description π) : Prop where
  name : Text.IsWord d.name
  missing : ∀ marker ∈ d.missing, Text.IsWord marker
  total : ∀ total ∈ d.total.toList, '\n' ∉ total.toList
  grouping : ∀ text ∈ d.grouping.texts, '\n' ∉ text.toList
  codeListPath : ∀ path ∈ d.codeListPath.toList, '\n' ∉ (FileReference.shown path).toList
  request : ∀ value ∈ d.request.getD [], '\n' ∉ value.toList ∧ '"' ∉ value.toList

instance (d : Description π) : Decidable d.IsPlain :=
  decidable_of_iff (Text.IsWord d.name ∧
      (∀ marker ∈ d.missing, Text.IsWord marker) ∧
      (∀ total ∈ d.total.toList, '\n' ∉ total.toList) ∧
      (∀ text ∈ d.grouping.texts, '\n' ∉ text.toList) ∧
      (∀ path ∈ d.codeListPath.toList, '\n' ∉ (FileReference.shown path).toList) ∧
      ∀ value ∈ d.request.getD [], '\n' ∉ value.toList ∧ '"' ∉ value.toList)
    ⟨fun ⟨hname, hmissing, htotal, hgrouping, hcodes, hrequest⟩ =>
        ⟨hname, hmissing, htotal, hgrouping, hcodes, hrequest⟩,
      fun h => ⟨h.name, h.missing, h.total, h.grouping, h.codeListPath, h.request⟩⟩

/-- The files that the description tells of. -/
def files (d : Description π) : List π :=
  d.grouping.path?.toList ++ d.codeListPath.toList

/-- The paths of all files that the description tells of are texts. -/
def HasTextPaths (d : Description π) : Prop :=
  ∀ path ∈ d.files, FileReference.isText path = true

instance (d : Description π) : Decidable d.HasTextPaths :=
  inferInstanceAs (Decidable (∀ path ∈ d.files, FileReference.isText path = true))

variable {d e : Description π}

theorem IsPlain.not_mem_headerFields (h : d.IsPlain) {ch : Char} (hch : Text.isBlank ch = true) :
    ∀ field ∈ d.name :: toString d.length :: d.missing, ch ∉ field.toList := by
  intro field hfield
  simp only [List.mem_cons] at hfield
  rcases hfield with rfl | rfl | hmarker
  · exact h.name.not_mem hch
  · exact Text.IsWord.not_mem (fun c hc => isBlank_of_isNumeralChar (isNumeralChar_nat hc)) hch
  · exact (h.missing field hmarker).not_mem hch

theorem header_inj (hd : d.IsPlain) (he : e.IsPlain) (h : d.header = e.header) :
    d.name = e.name ∧ d.length = e.length ∧ d.missing = e.missing := by
  have hsplit : ∀ {f : Description π}, f.IsPlain →
      Text.splitOnText (String.singleton ' ') f.header =
        f.name :: toString f.length :: f.missing := fun hf =>
    Text.splitOnText_intercalate (hf.not_mem_headerFields (by decide)) (by simp)
  have hfields := (hsplit hd).symm.trans ((congrArg _ h).trans (hsplit he))
  obtain ⟨hname, hlength, hmissing⟩ : d.name = e.name ∧ toString d.length = toString e.length ∧
      d.missing = e.missing := by simpa using hfields
  exact ⟨hname, toString_nat_inj hlength, hmissing⟩

theorem widths_inj {widths others : List Nat} (h : " ".intercalate (widths.map toString) =
    " ".intercalate (others.map toString)) : widths = others := by
  have hfields : ∀ ns : List Nat, ∀ field ∈ ns.map toString, ' ' ∉ field.toList ∧ field ≠ "" := by
    intro ns field hfield
    obtain ⟨n, _, rfl⟩ := List.mem_map.mp hfield
    refine ⟨not_mem_nat (by decide) n, fun hempty => ?_⟩
    have hdigits : Decimal.digitsOf n = [] := by
      rw [← toList_toString_nat, hempty]
      rfl
    exact Nat.toDigits_ne_nil hdigits
  have hnumerals := Text.intercalate_inj (hfields widths) (hfields others) h
  exact List.map_injective_iff.mpr (fun _ _ => toString_nat_inj) hnumerals

theorem HasTextPaths.grouping (h : d.HasTextPaths) :
    ∀ path ∈ d.grouping.path?, FileReference.isText path = true := fun path hpath =>
  h path (List.mem_append_left _ (Option.mem_toList.mpr hpath))

theorem HasTextPaths.codeListPath (h : d.HasTextPaths) :
    ∀ path ∈ d.codeListPath, FileReference.isText path = true := fun path hpath =>
  h path (List.mem_append_right _ (Option.mem_toList.mpr hpath))

theorem grouping_inj [LawfulFileReference π] : ∀ {g k : Grouping π},
    (∀ path ∈ g.path?, FileReference.isText path = true) →
    (∀ path ∈ k.path?, FileReference.isText path = true) → g.arguments = k.arguments → g = k
  | .flat, .flat, _, _, _ => rfl
  | .levels widths, .levels others, _, _, h => by
    have hwidths : " ".intercalate (widths.map toString) =
        " ".intercalate (others.map toString) := by simpa [Grouping.arguments] using h
    rw [widths_inj hwidths]
  | .tree path indent, .tree other lead, hg, hk, h => by
    obtain ⟨hpath, rfl⟩ : path.map FileReference.shown = other.map FileReference.shown ∧
        indent = lead := by simpa [Grouping.arguments] using h
    obtain rfl : path = other := map_shown_inj hg hk hpath
    rfl
  | .flat, .levels _, _, _, h | .flat, .tree _ _, _, _, h | .levels _, .flat, _, _, h
  | .levels _, .tree _ _, _, _, h | .tree _ _, .flat, _, _, h | .tree _ _, .levels _, _, _, h => by
    simp [Grouping.arguments] at h

theorem recodeArguments_inj [LawfulFileReference π] (hd : d.HasTextPaths) (he : e.HasTextPaths)
    (h : d.recodeArguments = e.recodeArguments) :
    d.recodable = e.recodable ∧ d.total = e.total ∧ d.grouping = e.grouping := by
  obtain ⟨hrecodable, htotal, hgrouping⟩ : flagArgument d.recodable = flagArgument e.recodable ∧
      d.total = e.total ∧ d.grouping.arguments = e.grouping.arguments := by
    simpa [recodeArguments] using h
  exact ⟨flagArgument_inj hrecodable, htotal, grouping_inj hd.grouping he.grouping hgrouping⟩

theorem codeListArguments_inj [LawfulFileReference π] (hd : d.HasTextPaths) (he : e.HasTextPaths)
    (h : d.codeListArguments = e.codeListArguments) : d.codeListPath = e.codeListPath :=
  map_shown_inj hd.codeListPath he.codeListPath (by simpa [codeListArguments] using h)

theorem roleArguments_inj (hd : d.IsPlain) (he : e.IsPlain)
    (h : d.roleArguments = e.roleArguments) :
    d.weight = e.weight ∧ d.request = e.request ∧ d.holding = e.holding := by
  obtain ⟨hweight, hrequest, hholding⟩ : flagArgument d.weight = flagArgument e.weight ∧
      d.request.map Text.quotedRow = e.request.map Text.quotedRow ∧
      flagArgument d.holding = flagArgument e.holding := by
    simpa [roleArguments] using h
  refine ⟨flagArgument_inj hweight, ?_, flagArgument_inj hholding⟩
  have hquotes := hd.request
  have hquotes' := he.request
  cases hr : d.request with
  | none =>
    cases hs : e.request with
    | none => rfl
    | some others => simp [hr, hs] at hrequest
  | some values =>
    cases hs : e.request with
    | none => simp [hr, hs] at hrequest
    | some others =>
      rw [hr, hs] at hrequest
      rw [hr] at hquotes
      rw [hs] at hquotes'
      exact congrArg some (Text.quotedRow_inj (fun v hv => (hquotes v hv).2)
        (fun v hv => (hquotes' v hv).2) (Option.some.inj hrequest))

/-- A description is told from its first line and its arguments. -/
theorem eq_of_arguments [LawfulFileReference π] (hd : d.IsPlain) (he : e.IsPlain)
    (hpaths : d.HasTextPaths) (hothers : e.HasTextPaths) (hheader : d.header = e.header)
    (h : d.arguments = e.arguments) : d = e := by
  obtain ⟨hname, hlength, hmissing⟩ := header_inj hd he hheader
  have hrecodes : d.recodeArguments.length = e.recodeArguments.length := by
    rw [recodeArguments, recodeArguments]
    cases d.grouping <;> cases e.grouping <;> rfl
  obtain ⟨hrest, hroles⟩ := List.append_inj' h rfl
  obtain ⟨hrest, hcodes⟩ := List.append_inj' hrest rfl
  obtain ⟨hnumbers, hrecode⟩ := List.append_inj hrest rfl
  obtain ⟨hnumeric, hdecimals⟩ := numberArguments_inj hnumbers
  obtain ⟨hrecodable, htotal, hgrouping⟩ := recodeArguments_inj hpaths hothers hrecode
  have hpath := codeListArguments_inj hpaths hothers hcodes
  obtain ⟨hweight, hrequest, hholding⟩ := roleArguments_inj hd he hroles
  exact Description.ext hname hlength hmissing hnumeric hdecimals hrecodable htotal hgrouping hpath
    hweight hrequest hholding

/-! ## Blocks -/

theorem length_arguments (d : Description π) : d.arguments.length = keywords.length := by
  rw [arguments, recodeArguments]
  cases d.grouping <;> rfl

theorem block_inj [LawfulFileReference π] (hd : d.IsPlain) (he : e.IsPlain)
    (hpaths : d.HasTextPaths) (hothers : e.HasTextPaths) (h : d.block = e.block) : d = e := by
  obtain ⟨hheader, hlines⟩ := List.cons.inj h
  exact eq_of_arguments hd he hpaths hothers hheader
    (Text.keywordLines_inj (by decide) d.length_arguments e.length_arguments hlines)

/-- A line behind the first one of a block. -/
def isInner (line : String) : Bool :=
  line.toList.head? = some '\t'

theorem isInner_of_mem {arguments : List (Option String)} {line : String}
    (h : line ∈ Text.keywordLines keywords arguments) : isInner line = true := by
  have htabs : ∀ keyword ∈ keywords, isInner keyword = true := by decide
  obtain ⟨keyword, hkeyword, argument, _, rfl⟩ := Text.exists_of_mem_keywordLines h
  have htab : keyword.toList.head? = some '\t' := by simpa [isInner] using htabs keyword hkeyword
  simp [isInner, List.head?_append, htab]

theorem IsPlain.isInner_header (h : d.IsPlain) : isInner d.header = false := by
  have hname : '\t' ∉ d.name.toList := h.name.not_mem (by decide)
  rw [header, String.intercalate_cons_cons]
  cases hchars : d.name.toList with
  | nil => simp [isInner, hchars]
  | cons ch rest =>
    rw [hchars, List.mem_cons, not_or] at hname
    simp [isInner, hchars, Ne.symm hname.1]

theorem isInner_head {ds : List (Description π)} (h : ∀ d ∈ ds, d.IsPlain) :
    ∀ line ∈ (ds.flatMap block).head?, isInner line = false := by
  cases ds with
  | nil => simp
  | cons d rest =>
    intro line hline
    obtain rfl : d.header = line := by simpa [block] using hline
    exact (h d List.mem_cons_self).isInner_header

/-- Descriptions are told from the blocks that they make. -/
theorem blocks_inj [LawfulFileReference π] : ∀ {ds es : List (Description π)},
    (∀ d ∈ ds, d.IsPlain) → (∀ e ∈ es, e.IsPlain) → (∀ d ∈ ds, d.HasTextPaths) →
    (∀ e ∈ es, e.HasTextPaths) → ds.flatMap block = es.flatMap block → ds = es
  | [], [], _, _, _, _, _ => rfl
  | [], e :: es, _, _, _, _, h => by simp [block] at h
  | d :: ds, [], _, _, _, _, h => by simp [block] at h
  | d :: ds, e :: es, hds, hes, hpaths, hothers, h => by
    obtain ⟨hd, hds⟩ := List.forall_mem_cons.mp hds
    obtain ⟨he, hes⟩ := List.forall_mem_cons.mp hes
    obtain ⟨hpath, hpaths⟩ := List.forall_mem_cons.mp hpaths
    obtain ⟨hother, hothers⟩ := List.forall_mem_cons.mp hothers
    rw [List.flatMap_cons, List.flatMap_cons, block, block, List.cons_append, List.cons_append,
      List.cons.injEq] at h
    obtain ⟨hlines, hrest⟩ := Text.append_inj_of_begin (fun _ => isInner_of_mem)
      (fun _ => isInner_of_mem) (isInner_head hds) (isInner_head hes) h.2
    have hblock : d.block = e.block := by rw [block, block, h.1, hlines]
    rw [block_inj hd he hpath hother hblock, blocks_inj hds hes hpaths hothers hrest]

theorem feed_not_mem_flagArgument {flag : Bool} {argument : String}
    (h : flagArgument flag = some argument) : '\n' ∉ argument.toList := by
  cases flag with
  | false => simp [flagArgument] at h
  | true =>
    obtain rfl : "" = argument := by simpa [flagArgument] using h
    simp

theorem IsPlain.feed_not_mem_grouping (h : d.IsPlain) {argument : String}
    (hargument : some argument ∈ d.grouping.arguments) : '\n' ∉ argument.toList := by
  have htexts := h.grouping
  cases hg : d.grouping with
  | flat => simp [hg, Grouping.arguments] at hargument
  | levels widths =>
    obtain rfl | rfl : argument = "" ∨ argument = " ".intercalate (widths.map toString) := by
      simpa [hg, Grouping.arguments] using hargument
    · simp
    · refine Text.not_mem_intercalate (by decide) fun field hfield => ?_
      obtain ⟨n, _, rfl⟩ := List.mem_map.mp hfield
      exact not_mem_nat (by decide) n
  | tree path indent =>
    rw [hg] at htexts
    simp only [hg, Grouping.arguments, List.mem_cons, Option.some.injEq, List.not_mem_nil,
      or_false, reduceCtorEq, false_or] at hargument
    rcases hargument with rfl | hpath | rfl
    · simp
    · exact htexts argument (List.mem_cons_of_mem _ (by rw [← hpath]; simp))
    · exact htexts argument List.mem_cons_self

theorem IsPlain.feed_not_mem_argument (h : d.IsPlain) {argument : String}
    (hargument : some argument ∈ d.arguments) : '\n' ∉ argument.toList := by
  simp only [arguments, numberArguments, recodeArguments, codeListArguments, roleArguments,
    List.mem_append, List.mem_cons, List.not_mem_nil, or_false] at hargument
  rcases hargument with (((hflag | hdecimals) | hflag | htotal | hgrouping) | hpath) |
    hflag | hrequest | hflag
  · exact feed_not_mem_flagArgument hflag.symm
  · obtain ⟨n, _, rfl⟩ := Option.map_eq_some_iff.mp hdecimals.symm
    exact not_mem_nat (by decide) n
  · exact feed_not_mem_flagArgument hflag.symm
  · exact h.total argument (by simp [← htotal])
  · exact h.feed_not_mem_grouping hgrouping
  · obtain ⟨path, hcodes, rfl⟩ := Option.map_eq_some_iff.mp hpath.symm
    exact h.codeListPath path (by simp [hcodes])
  · exact feed_not_mem_flagArgument hflag.symm
  · obtain ⟨values, hvalues, rfl⟩ := Option.map_eq_some_iff.mp hrequest.symm
    have hplain := h.request
    rw [hvalues] at hplain
    exact Text.not_mem_quotedRow (by decide) fun v hv => (hplain v hv).1
  · exact feed_not_mem_flagArgument hflag.symm

theorem IsPlain.feed_not_mem_block (h : d.IsPlain) : ∀ line ∈ d.block, '\n' ∉ line.toList := by
  intro line hline
  rcases List.mem_cons.mp hline with rfl | hline
  · exact Text.not_mem_intercalate (by decide) (h.not_mem_headerFields (by decide))
  · have hkeywords : ∀ keyword ∈ keywords, '\n' ∉ keyword.toList := by decide
    obtain ⟨keyword, hkeyword, argument, hargument, rfl⟩ := Text.exists_of_mem_keywordLines hline
    rw [String.toList_append, List.mem_append, not_or]
    exact ⟨hkeywords keyword hkeyword, h.feed_not_mem_argument hargument⟩

end Description

/-! ## What two inputs with the same metadata have in common -/

namespace Input

/-- Microdata with a separator that ends no line and with plain descriptions. -/
structure IsPlain (i : Input π) (roles : MicrodataRoles) : Prop where
  /-- The input is microdata. -/
  kind : i.roles = .microdata roles
  /-- The separator ends no line. -/
  separator : i.separatorChar ≠ '\n'
  /-- What is told about the columns stays in its place. -/
  columns : ∀ c ∈ i.columns, (c.describe roles).IsPlain

/-- The paths of all files that the metadata tells of are texts. -/
def HasTextPaths (i : Input π) (roles : MicrodataRoles) : Prop :=
  ∀ c ∈ i.columns, (c.describe roles).HasTextPaths

variable {i j : Input π} {roles others : MicrodataRoles} {text : String}

theorem IsPlain.feed_not_mem (h : i.IsPlain roles) :
    ∀ line ∈ ("\t<SEPARATOR> " ++ String.singleton i.separatorChar) ::
      (i.columns.map (Column.describe roles)).flatMap Description.block, '\n' ∉ line.toList := by
  intro line hline
  rcases List.mem_cons.mp hline with rfl | hline
  · simpa using Ne.symm h.separator
  · obtain ⟨d, hd, hmem⟩ := List.mem_flatMap.mp hline
    obtain ⟨c, hc, rfl⟩ := List.mem_map.mp hd
    exact (h.columns c hc).feed_not_mem_block line hmem

/-- **The metadata of microdata loses nothing but what is no text in a path.** If two inputs whose
files have texts for paths have the same metadata, they have the same separator and, column by
column, the same description: name, length, missing markers, whether it holds numbers and with how
many decimals, whether it can be recoded and under which total, how its codes are grouped, where its
code list is, and its roles. So the columns that have the roles are the same, and so are the values
of the request. -/
theorem eq_of_metadataText_eq [LawfulFileReference π] (hi : i.IsPlain roles) (hj : j.IsPlain others)
    (hpaths : i.HasTextPaths roles) (hothers : j.HasTextPaths others)
    (htext : i.metadataText = .ok text) (hsame : j.metadataText = .ok text) :
    i.separator = j.separator ∧
    i.columns.map (Column.describe roles) = j.columns.map (Column.describe others) ∧
    (roles.Among i.columns → others.Among j.columns →
      roles.weight = others.weight ∧ roles.request = others.request ∧
      (roles.request.isSome → roles.requestValues = others.requestValues) ∧
      roles.holding = others.holding) := by
  have hlines := Text.unlines_inj hi.feed_not_mem hj.feed_not_mem
    ((metadataText_eq hi.kind htext).symm.trans (metadataText_eq hj.kind hsame))
  obtain ⟨hfirst, hblocks⟩ := List.cons.inj hlines
  have hseparator : i.separatorChar = j.separatorChar := by
    simpa using congrArg String.toList hfirst
  have hcolumns :
      i.columns.map (Column.describe roles) = j.columns.map (Column.describe others) := by
    refine Description.blocks_inj ?_ ?_ ?_ ?_ hblocks
    · exact List.forall_mem_map.mpr hi.columns
    · exact List.forall_mem_map.mpr hj.columns
    · exact List.forall_mem_map.mpr hpaths
    · exact List.forall_mem_map.mpr hothers
  refine ⟨separator_inj hseparator, hcolumns, fun hamong hamong' => ?_⟩
  have hforth := MicrodataRoles.of_describe hamong hcolumns
  have hback := MicrodataRoles.of_describe hamong' hcolumns.symm
  refine ⟨Option.ext fun name => ⟨(hforth name).1, (hback name).1⟩,
    Option.ext fun name => ⟨fun h => ((hforth name).2.1 h).1, fun h => ((hback name).2.1 h).1⟩, ?_,
    Option.ext fun name => ⟨(hforth name).2.2, (hback name).2.2⟩⟩
  intro hsome
  obtain ⟨name, hname⟩ := Option.isSome_iff_exists.mp hsome
  exact ((hforth name).2.1 hname).2.symm

/-- The roles that the columns of residents have. -/
def residentRoles : MicrodataRoles :=
  { MicrodataRoles.none with weight := "weight" }

/-- Residents with the region they live in, what they earn and how much they count for. The regions
form a tree, which is kept in a file of its own. -/
def residents (regions : List (List String)) (file data : RawPath) : Input RawPath :=
  let region := { (Column.new "region" .text : Column RawPath) with
    hierarchy := .tree ⟨.ofRows regions "All", "@", some file⟩
    missing := ["9", "99"] }
  let postcode := { (Column.new "postcode" .text : Column RawPath) with
    hierarchy := .levels ⟨[2, 2], "Total"⟩
    codeList := some ⟨[("1011", "Old town")], some (.ofText "postcodes.cdl")⟩ }
  let income := { (Column.new "income" .fractional : Column RawPath) with decimals := 2 }
  { frame := ⟨[]⟩
    columns := [region, postcode, income, .new "weight" .integer]
    roles := .microdata residentRoles
    separator := 59
    dataPath := data
    metadataPath := none }

theorem residents_isPlain {regions : List (List String)} {file data : RawPath}
    (h : ∀ c ∈ (residents regions file data).columns, (c.describe residentRoles).IsPlain) :
    (residents regions file data).IsPlain residentRoles where
  kind := rfl
  separator := by
    show Char.ofNat (59 : UInt8).toNat ≠ '\n'
    decide
  columns := h

/-- The engine is told the same about both, though their regions and their data differ. -/
theorem residents_eq_of_metadataText :
    let i := residents [["North", "A"], ["South", "B"]] (.ofText "regions.hrc") (.ofText "old.csv")
    let j := residents [["Coast", "A"], ["Hills", "C"]] (.ofText "regions.hrc") (.ofText "new.csv")
    i.separator = j.separator ∧
    i.columns.map (Column.describe residentRoles) =
      j.columns.map (Column.describe residentRoles) := by
  intro i j
  have hplain : ∀ k ∈ [i, j], ∀ c ∈ k.columns, (c.describe residentRoles).IsPlain := by
    decide +kernel
  have hpaths : ∀ k ∈ [i, j], ∀ c ∈ k.columns, (c.describe residentRoles).HasTextPaths := by
    decide +kernel
  have htold : i.metadataText.toOption.isSome = true ∧
      i.metadataText.toOption = j.metadataText.toOption := by decide +kernel
  obtain ⟨text, htext⟩ := Option.isSome_iff_exists.mp htold.1
  have hsame := eq_of_metadataText_eq
    (residents_isPlain (hplain i (by simp))) (residents_isPlain (hplain j (by simp)))
    (hpaths i (by simp)) (hpaths j (by simp))
    (ok_of_toOption htext) (ok_of_toOption (htold.2 ▸ htext))
  exact ⟨hsame.1, hsame.2.1⟩

/-- **The metadata mistakes paths for each other that are no texts.** The tree of regions is in the
file `a`, byte 255, `.hrc` of the one input and in the file `a`, byte 254, `.hrc` of the other. Both
are shown with U+FFFD in place of the byte, and nothing else in the metadata tells them apart. -/
theorem metadata_mistakes_paths :
    let i := residents [["North", "A"]] ⟨[97, 255, 46, 104, 114, 99]⟩ (.ofText "old.csv")
    let j := residents [["North", "A"]] ⟨[97, 254, 46, 104, 114, 99]⟩ (.ofText "old.csv")
    i.IsPlain residentRoles ∧ j.IsPlain residentRoles ∧
      (∃ text, i.metadataText = .ok text ∧ j.metadataText = .ok text) ∧
      i.columns.map (Column.describe residentRoles) ≠
        j.columns.map (Column.describe residentRoles) := by
  intro i j
  have hplain : ∀ k ∈ [i, j], ∀ c ∈ k.columns, (c.describe residentRoles).IsPlain := by
    decide +kernel
  have htold : i.metadataText.toOption.isSome = true ∧
      i.metadataText.toOption = j.metadataText.toOption := by decide +kernel
  have hfiles : i.columns.map (fun c => (c.describe residentRoles).files) ≠
      j.columns.map (fun c => (c.describe residentRoles).files) := by decide +kernel
  obtain ⟨text, htext⟩ := Option.isSome_iff_exists.mp htold.1
  refine ⟨residents_isPlain (hplain i (by simp)), residents_isPlain (hplain j (by simp)),
    ⟨text, ok_of_toOption htext, ok_of_toOption (htold.2 ▸ htext)⟩, fun hsame => hfiles ?_⟩
  simpa [List.map_map, Function.comp_def] using congrArg (List.map Description.files) hsame

end Input

end Disclosure
