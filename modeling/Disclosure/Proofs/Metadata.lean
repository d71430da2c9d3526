import Disclosure.Input.Metadata
import Disclosure.Proofs.Fault
import Disclosure.Proofs.Text.Split

/-!
# What a metadata file says about files

A column is described by lines that stand together. The first one begins with the name of the column;
each of the others begins with a keyword, and what stands behind the keyword is its argument. Three
keywords are about files: where the tree of a column is, how its lines are indented, and where the
code list is. No other keyword begins like one of these, so their arguments are exactly what the
column has.
-/

namespace Disclosure

/-- What stands behind a keyword in the lines that begin with it. -/
def Text.argumentsOf (keyword : String) (lines : List String) : List String :=
  lines.filterMap fun line => (Text.dropLead? keyword.toList line.toList).map String.ofList

namespace Text

theorem argumentsOf_append (keyword : String) (lines more : List String) :
    argumentsOf keyword (lines ++ more) = argumentsOf keyword lines ++ argumentsOf keyword more :=
  List.filterMap_append

theorem argumentsOf_cons_self (keyword argument : String) (lines : List String) :
    argumentsOf keyword ((keyword ++ argument) :: lines) = argument :: argumentsOf keyword lines := by
  have hlead : dropLead? keyword.toList (keyword ++ argument).toList = some argument.toList :=
    dropLead?_eq_some_iff.mpr String.toList_append
  rw [argumentsOf, List.filterMap_cons, hlead, Option.map_some, String.ofList_toList]
  rfl

/-- Keywords that begin differently do not get in each other's way. -/
theorem argumentsOf_cons_of_not_lead {keyword other : String}
    (h : ¬ keyword.toList <+: other.toList ∧ ¬ other.toList <+: keyword.toList) (argument : String)
    (lines : List String) :
    argumentsOf keyword ((other ++ argument) :: lines) = argumentsOf keyword lines := by
  have hlead : dropLead? keyword.toList (other ++ argument).toList = none := by
    refine dropLead?_eq_none_iff.mpr fun hkeyword => ?_
    have hother : other.toList <+: (other ++ argument).toList := by
      rw [String.toList_append]
      exact List.prefix_append _ _
    exact (List.prefix_or_prefix_of_prefix hkeyword hother).elim h.1 h.2
  rw [argumentsOf, List.filterMap_cons, hlead]
  rfl

/-- The same for a line that is a keyword and nothing else. -/
theorem argumentsOf_bare_of_not_lead {keyword other : String}
    (h : ¬ keyword.toList <+: other.toList ∧ ¬ other.toList <+: keyword.toList)
    (lines : List String) : argumentsOf keyword (other :: lines) = argumentsOf keyword lines := by
  have hline := argumentsOf_cons_of_not_lead h "" lines
  rwa [String.append_empty] at hline

end Text

open Text

/-- The keywords about files. -/
def fileKeywords : List String :=
  ["\t<HIERCODELIST> ", "\t<HIERLEADSTRING> ", "\t<CODELIST> "]

/-- The keyword begins differently from those about files. -/
def OtherKeyword (other : String) : Prop :=
  ∀ keyword ∈ fileKeywords,
    ¬ keyword.toList <+: other.toList ∧ ¬ other.toList <+: keyword.toList

instance (other : String) : Decidable (OtherKeyword other) :=
  inferInstanceAs (Decidable (∀ keyword ∈ fileKeywords, _))

/-- Lines with other keywords have nothing to say about files. -/
theorem argumentsOf_cons_other {keyword other : String} (hk : keyword ∈ fileKeywords)
    (h : OtherKeyword other) (argument : String) (lines : List String) :
    argumentsOf keyword ((other ++ argument) :: lines) = argumentsOf keyword lines :=
  argumentsOf_cons_of_not_lead (h keyword hk) argument lines

theorem argumentsOf_cons_bare {keyword other : String} (hk : keyword ∈ fileKeywords)
    (h : OtherKeyword other) (lines : List String) :
    argumentsOf keyword (other :: lines) = argumentsOf keyword lines :=
  argumentsOf_bare_of_not_lead (h keyword hk) lines

namespace Column

variable {c : Column} {keyword : String} {withLength : Bool} {lines : List String}

/-- The lines about numbers have two keywords. -/
theorem argumentsOf_numericLines (c : Column)
    (hnumeric : ¬ keyword.toList <+: "\t<NUMERIC>".toList ∧
      ¬ "\t<NUMERIC>".toList <+: keyword.toList)
    (hdecimals : ¬ keyword.toList <+: "\t<DECIMALS> ".toList ∧
      ¬ "\t<DECIMALS> ".toList <+: keyword.toList) : argumentsOf keyword c.numericLines = [] := by
  rw [numericLines]
  split
  · rw [argumentsOf_bare_of_not_lead hnumeric]
    cases c.decimals? with
    | none => rfl
    | some decimals => exact argumentsOf_cons_of_not_lead hdecimals (toString decimals) []
  · rfl

/-- The lines of a column: the first one, and then what is said about files and nothing else of the
kind. -/
theorem metadataLines_inversion (h : c.metadataLines withLength = .ok lines) :
    lines.head? = some (c.headerLine withLength) ∧
      ∃ own codes, c.hierarchyLines = .ok own ∧ c.codeListLines = .ok codes ∧
        ∀ keyword ∈ fileKeywords,
          argumentsOf keyword lines.tail = argumentsOf keyword own ++ argumentsOf keyword codes := by
  obtain ⟨recode, hrecode, h₁⟩ := Fault.ok_of_bind h
  obtain ⟨codes, hcodes, h₂⟩ := Fault.ok_of_bind h₁
  obtain rfl : c.headerLine withLength :: (c.numericLines ++ recode ++ codes) = lines :=
    Except.ok.inj h₂
  obtain ⟨own, hown, hall⟩ : ∃ own, c.hierarchyLines = .ok own ∧
      ∀ keyword ∈ fileKeywords, argumentsOf keyword recode = argumentsOf keyword own := by
    rw [recodeLines] at hrecode
    split at hrecode
    · obtain ⟨own, hown, rfl⟩ := Fault.map_eq_ok_iff.mp hrecode
      refine ⟨own, hown, fun keyword hk => ?_⟩
      rw [List.cons_append, argumentsOf_cons_bare hk (by decide), List.cons_append,
        argumentsOf_cons_other hk (by decide), List.nil_append]
    · -- a column that cannot be recoded has nothing between its codes and the total
      rename_i hnot
      refine ⟨[], ?_, fun keyword _ => by rw [← Except.ok.inj hrecode]⟩
      rw [hierarchyLines]
      cases hh : c.hierarchy with
      | flat total => rfl
      | levels levels => exact absurd (by simp [isRecodable, hh, Hierarchy.isHierarchical]) hnot
      | tree tree => exact absurd (by simp [isRecodable, hh, Hierarchy.isHierarchical]) hnot
  refine ⟨rfl, own, codes, hown, hcodes, fun keyword hk => ?_⟩
  have hnumeric : OtherKeyword "\t<NUMERIC>" := by decide
  have hdecimals : OtherKeyword "\t<DECIMALS> " := by decide
  rw [List.tail_cons, argumentsOf_append, argumentsOf_append,
    c.argumentsOf_numericLines (hnumeric keyword hk) (hdecimals keyword hk), List.nil_append,
    hall keyword hk]

/-- The lines about a hierarchy name the file and the indent of a tree, and no code list. -/
theorem arguments_hierarchyLines (h : c.hierarchyLines = .ok lines) :
    argumentsOf "\t<HIERCODELIST> " lines =
        (c.hierarchy.tree?.bind (·.path)).toList.map (·.text) ∧
      argumentsOf "\t<HIERLEADSTRING> " lines = c.hierarchy.tree?.toList.map (·.indent) ∧
      argumentsOf "\t<CODELIST> " lines = [] := by
  rw [hierarchyLines] at h
  cases hh : c.hierarchy with
  | flat total =>
    rw [hh] at h
    rw [← Except.ok.inj h]
    exact ⟨rfl, rfl, rfl⟩
  | levels levels =>
    rw [hh] at h
    have hnone : ∀ keyword ∈ fileKeywords, argumentsOf keyword lines = [] := by
      intro keyword hk
      rw [← Except.ok.inj h, argumentsOf_cons_bare hk (by decide),
        argumentsOf_cons_other hk (by decide)]
      rfl
    exact ⟨hnone _ (by decide), hnone _ (by decide), hnone _ (by decide)⟩
  | tree tree =>
    rw [hh] at h
    dsimp only at h
    cases hpath : tree.path with
    | none =>
      rw [hpath] at h
      exact nomatch h
    | some path =>
      rw [hpath] at h
      obtain rfl := Except.ok.inj h
      have hbare : OtherKeyword "\t<HIERARCHICAL>" := by decide
      simp only [Hierarchy.tree?, Option.bind_some, hpath, Option.toList_some, List.map_cons,
        List.map_nil]
      refine ⟨?_, ?_, ?_⟩
      · rw [argumentsOf_cons_bare (by decide) hbare, argumentsOf_cons_self,
          argumentsOf_cons_of_not_lead (by decide)]
        rfl
      · rw [argumentsOf_cons_bare (by decide) hbare, argumentsOf_cons_of_not_lead (by decide),
          argumentsOf_cons_self]
        rfl
      · rw [argumentsOf_cons_bare (by decide) hbare, argumentsOf_cons_of_not_lead (by decide),
          argumentsOf_cons_of_not_lead (by decide)]
        rfl

/-- The line about a code list names its file, and no tree. -/
theorem arguments_codeListLines (h : c.codeListLines = .ok lines) :
    argumentsOf "\t<HIERCODELIST> " lines = [] ∧ argumentsOf "\t<HIERLEADSTRING> " lines = [] ∧
      argumentsOf "\t<CODELIST> " lines =
        (c.codeList.bind (·.path)).toList.map (·.text) := by
  rw [codeListLines] at h
  cases hlist : c.codeList with
  | none =>
    rw [hlist] at h
    rw [← Except.ok.inj h]
    exact ⟨rfl, rfl, rfl⟩
  | some codeList =>
    rw [hlist] at h
    dsimp only at h
    cases hpath : codeList.path with
    | none =>
      rw [hpath] at h
      exact nomatch h
    | some path =>
      rw [hpath] at h
      rw [← Except.ok.inj h, Option.bind_some, hpath]
      exact ⟨argumentsOf_cons_of_not_lead (by decide) _ [],
        argumentsOf_cons_of_not_lead (by decide) _ [], argumentsOf_cons_self _ _ []⟩

/-- What the lines of a column say about files: where the tree is and how it is indented, and where
the code list is. -/
theorem arguments_files (h : c.metadataLines withLength = .ok lines) :
    argumentsOf "\t<HIERCODELIST> " lines.tail =
        (c.hierarchy.tree?.bind (·.path)).toList.map (·.text) ∧
      argumentsOf "\t<HIERLEADSTRING> " lines.tail = c.hierarchy.tree?.toList.map (·.indent) ∧
      argumentsOf "\t<CODELIST> " lines.tail =
        (c.codeList.bind (·.path)).toList.map (·.text) := by
  obtain ⟨-, own, codes, hown, hcodes, hall⟩ := metadataLines_inversion h
  obtain ⟨htree, hindent, hnone⟩ := arguments_hierarchyLines hown
  obtain ⟨hnoTree, hnoIndent, hlist⟩ := arguments_codeListLines hcodes
  refine ⟨?_, ?_, ?_⟩
  · rw [hall _ (by decide), htree, hnoTree, List.append_nil]
  · rw [hall _ (by decide), hindent, hnoIndent, List.append_nil]
  · rw [hall _ (by decide), hnone, hlist, List.nil_append]

/-- The lines about a tree name its file and its indent. -/
theorem arguments_tree (h : c.metadataLines withLength = .ok lines) {tree : TreeHierarchy}
    (htree : c.hierarchy = .tree tree) {path : Path} (hpath : tree.path = some path) :
    argumentsOf "\t<HIERCODELIST> " lines.tail = [path.text] ∧
      argumentsOf "\t<HIERLEADSTRING> " lines.tail = [tree.indent] := by
  obtain ⟨hplace, hindent, -⟩ := arguments_files h
  rw [htree] at hplace hindent
  rw [Hierarchy.tree?, Option.bind_some, hpath] at hplace
  exact ⟨hplace, hindent⟩

/-- The line about the total tells the total code. -/
theorem arguments_total (h : c.metadataLines withLength = .ok lines)
    (hrecodable : c.isRecodable = true) :
    argumentsOf "\t<TOTCODE> " lines.tail = [c.totalCode] := by
  obtain ⟨recode, hrecode, h₁⟩ := Fault.ok_of_bind h
  obtain ⟨codes, hcodes, h₂⟩ := Fault.ok_of_bind h₁
  obtain rfl : c.headerLine withLength :: (c.numericLines ++ recode ++ codes) = lines :=
    Except.ok.inj h₂
  rw [recodeLines, if_pos hrecodable] at hrecode
  obtain ⟨own, hown, rfl⟩ := Fault.map_eq_ok_iff.mp hrecode
  have hhierarchy : argumentsOf "\t<TOTCODE> " own = [] := by
    rw [hierarchyLines] at hown
    split at hown
    · rw [← Except.ok.inj hown]
      rfl
    · rw [← Except.ok.inj hown, argumentsOf_bare_of_not_lead (by decide)]
      exact argumentsOf_cons_of_not_lead (by decide) _ []
    · split at hown
      · exact nomatch hown
      · rw [← Except.ok.inj hown, argumentsOf_bare_of_not_lead (by decide),
          argumentsOf_cons_of_not_lead (by decide)]
        exact argumentsOf_cons_of_not_lead (by decide) _ []
  have hlist : argumentsOf "\t<TOTCODE> " codes = [] := by
    rw [codeListLines] at hcodes
    split at hcodes
    · rw [← Except.ok.inj hcodes]
      rfl
    · split at hcodes
      · exact nomatch hcodes
      · rw [← Except.ok.inj hcodes]
        exact argumentsOf_cons_of_not_lead (by decide) _ []
  rw [List.tail_cons, argumentsOf_append, argumentsOf_append, argumentsOf_append,
    c.argumentsOf_numericLines (by decide) (by decide), argumentsOf_bare_of_not_lead (by decide),
    argumentsOf_cons_self, hhierarchy, hlist]
  rfl

/-- The line about a code list names its file. -/
theorem arguments_codeList (h : c.metadataLines withLength = .ok lines) {codeList : CodeList}
    (hlist : c.codeList = some codeList) {path : Path} (hpath : codeList.path = some path) :
    argumentsOf "\t<CODELIST> " lines.tail = [path.text] := by
  obtain ⟨-, -, hplace⟩ := arguments_files h
  rw [hlist, Option.bind_some, hpath] at hplace
  exact hplace

end Column

namespace Input

/-- The lines of every column stand together in the lines of all columns. -/
theorem columnLines_infix {roles : Roles} : ∀ {columns : List Column} {lines : List String},
    columnLines roles columns = .ok lines → ∀ c ∈ columns,
      ∃ own, c.metadataLines (roles.kind = .microdata) = .ok own ∧ own <:+: lines
  | [], _, _, c, hc => absurd hc (by simp)
  | c :: rest, lines, h, d, hd => by
    rw [columnLines] at h
    obtain ⟨own, hown, h₁⟩ := Fault.ok_of_bind h
    obtain ⟨others, hothers, h₂⟩ := Fault.ok_of_bind h₁
    obtain rfl : own ++ roleLines roles c.name ++ others = lines := Except.ok.inj h₂
    rcases List.mem_cons.mp hd with rfl | hd
    · refine ⟨own, hown, (List.prefix_append own (roleLines roles d.name)).isInfix.trans ?_⟩
      exact (List.prefix_append (own ++ roleLines roles d.name) others).isInfix
    · obtain ⟨theirs, htheirs, hinfix⟩ := columnLines_infix hothers d hd
      exact ⟨theirs, htheirs, hinfix.trans (List.suffix_append _ others).isInfix⟩

/-- The metadata file is made of lines, and those of every column stand together in it. -/
theorem metadataText_inversion {i : Input} {text : String} (h : i.metadataText = .ok text) :
    ∃ lines, text = Text.unlines lines ∧ ∀ c ∈ i.columns,
      ∃ own, c.metadataLines (i.kind = .microdata) = .ok own ∧ own <:+: lines := by
  obtain ⟨lines, hlines, h₁⟩ := Fault.ok_of_bind h
  refine ⟨_, (Except.ok.inj h₁).symm, fun c hc => ?_⟩
  obtain ⟨own, hown, hinfix⟩ := columnLines_infix hlines c hc
  refine ⟨own, hown, hinfix.trans ?_⟩
  exact ((List.suffix_append (statusLines i.roles) lines).trans (List.suffix_cons _ _)).isInfix

end Input

end Disclosure
