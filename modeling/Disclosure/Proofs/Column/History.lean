import Disclosure.Proofs.Column
import Mathlib.Algebra.GroupWithZero.Nat

/-!
# A column is what was given last

There are two memories in a column, one inside the other: the column remembers its length, and the
tree that groups its codes remembers the length of the longest one. A question fills them, and
questions may come between any two changes.

The history of a column is told without either memory. `Given` keeps what was given last, attribute
by attribute, and `Follows` says that the column is just that: its length is the first of the
lengths there are, counted anew (`HasLength`), and its total code is the last one given by hand,
whatever hierarchies came before or after it.

An attribute follows from its own setters alone. So two setters for different attributes can change
places, and two rows of setters come to the same column when they have the same setters for each
attribute in the same order.
-/

namespace Disclosure

/-- The last of two total codes is the one that counts. -/
theorem CodeTree.setTotalCode_setTotalCode (t : CodeTree) (total other : String) :
    (t.setTotalCode total).setTotalCode other = t.setTotalCode other := by
  have hnodes : ((t.setTotalCode total).setTotalCode other).nodes =
      (t.setTotalCode other).nodes := by
    refine Array.ext_getElem? fun i => ?_
    simp only [setTotalCode, Array.getElem?_modify]
    split <;> simp [Function.comp_def]
  exact congrArg (CodeTree.mk · t.measured) hnodes

/-! ## Hierarchies -/

namespace Hierarchy

variable {h : Hierarchy}

/-- The tree of a hierarchy, if it has one, is one that calls can make. -/
def Reachable (h : Hierarchy) : Prop :=
  ∀ tree, h = .tree tree → tree.tree.Reachable

/-- The hierarchy after it was asked for the length of codes: a tree remembers it. -/
def measure : Hierarchy → Hierarchy
  | tree h => tree { h with tree := h.tree.measure }
  | other => other

/-- The length of codes that a hierarchy asks for, counted anew: all levels together, or as many
characters as the longest code in the tree has. A flat hierarchy asks for none. -/
inductive AsksFor : Hierarchy → Nat → Prop where
  | levels (h : LevelHierarchy) : AsksFor (.levels h) h.widths.sum
  | tree {h : TreeHierarchy} {n : Nat} :
      IsGreatest (insert 0 {k | ∃ x, CodeTree.root ∈ h.tree.ancestors x ∧
        (h.tree.code x).length = k}) n → AsksFor (.tree h) n

/-- The hierarchy apart from its total code and from what its tree remembers. -/
def plain : Hierarchy → Hierarchy
  | flat _ => flat ""
  | levels h => levels { h with totalCode := "" }
  | tree h => tree { h with tree := ⟨(h.tree.setTotalCode "").nodes, none⟩ }

theorem Reachable.sound (hr : h.Reachable) : h.Sound :=
  fun tree htree => (hr tree htree).sound

theorem reachable_flat (total : String) : (flat total).Reachable :=
  fun _ htree => nomatch htree

theorem Reachable.measure (hr : h.Reachable) : h.measure.Reachable := by
  cases h with
  | flat _ => exact hr
  | levels _ => exact hr
  | tree given =>
    intro tree htree
    rw [← Hierarchy.tree.inj htree]
    exact (hr given rfl).call .measure (by simp [CodeTree.Call.node?])
      (by simp [CodeTree.Call.part?])

theorem Reachable.withTotalCode (hr : h.Reachable) (total : String) :
    (h.withTotalCode total).Reachable := by
  cases h with
  | flat _ => exact reachable_flat total
  | levels _ => exact fun _ htree => nomatch htree
  | tree given =>
    intro tree htree
    rw [← Hierarchy.tree.inj htree]
    exact (hr given rfl).call (.setTotalCode total) (by simp [CodeTree.Call.node?])
      (by simp [CodeTree.Call.part?])

/-- What a sound hierarchy tells is what there is to count. -/
theorem Sound.asksFor (hs : h.Sound) {n : Nat} (hn : h.codeLength? = some n) : h.AsksFor n := by
  cases h with
  | flat _ => exact absurd hn (by simp [codeLength?])
  | levels given =>
    rw [← Option.some.inj hn]
    exact .levels given
  | tree given =>
    rw [← Option.some.inj hn]
    exact .tree (hs given rfl).codeLength_isGreatest

theorem eq_flat_of_codeLength? (hn : h.codeLength? = none) : ∃ total, h = .flat total := by
  cases h with
  | flat total => exact ⟨total, rfl⟩
  | levels _ => exact absurd hn (by simp [codeLength?])
  | tree _ => exact absurd hn (by simp [codeLength?])

theorem Sound.totalCode_withTotalCode (hs : h.Sound) (total : String) :
    (h.withTotalCode total).totalCode = total := by
  cases h with
  | flat _ => rfl
  | levels _ => rfl
  | tree given =>
    exact (CodeTree.code_setCode (hs given rfl).hasRoot total CodeTree.root).trans (if_pos rfl)

theorem withTotalCode_withTotalCode (h : Hierarchy) (total other : String) :
    (h.withTotalCode total).withTotalCode other = h.withTotalCode other := by
  cases h with
  | flat _ => rfl
  | levels _ => rfl
  | tree given => simp only [withTotalCode, CodeTree.setTotalCode_setTotalCode]

/-- A tree that remembers tells what it told before. -/
theorem codeLength?_measure (h : Hierarchy) : h.measure.codeLength? = h.codeLength? := by
  cases h <;> rfl

theorem totalCode_measure (h : Hierarchy) : h.measure.totalCode = h.totalCode := by
  cases h <;> rfl

theorem plain_measure (h : Hierarchy) : h.measure.plain = h.plain := by
  cases h <;> rfl

theorem plain_withTotalCode (h : Hierarchy) (total : String) :
    (h.withTotalCode total).plain = h.plain := by
  cases h with
  | flat _ => rfl
  | levels _ => rfl
  | tree given => simp only [withTotalCode, plain, CodeTree.setTotalCode_setTotalCode]

end Hierarchy

namespace Column

variable {c d : Column}

/-! ## New columns -/

/-- What a column is made from: its name and the kind of its values, or all its values. -/
inductive Start where
  | kind (name : String) (kind : ValueKind)
  | series (series : Series)

namespace Start

/-- The new column. -/
def column : Start → Column
  | kind name k => new name k
  | series s => ofSeries s

/-- The texts among the values. -/
def texts : Start → List String
  | series ⟨_, .text values⟩ => values.reduceOption
  | _ => []

/-- Whether the values are booleans. -/
def IsBoolean : Start → Prop
  | kind _ k => k = .boolean
  | series s => ∃ values, s.values = .boolean values

theorem isBoolean_iff (start : Start) : start.column.kind = .boolean ↔ start.IsBoolean := by
  cases start with
  | kind name k => exact Iff.rfl
  | series s =>
    show ValueKind.ofValues s.values = .boolean ↔ ∃ values, s.values = .boolean values
    cases s.values <;> simp [ValueKind.ofValues]

theorem valueLength_eq (start : Start) :
    start.column.valueLength = (start.texts.map (·.length)).max? := by
  rcases start with ⟨name, k⟩ | ⟨name, values⟩
  · rfl
  · cases values <;> rfl

/-- What a new column knows about its values is the length of the longest text. -/
theorem isGreatest_of_valueLength {start : Start} {n : Nat}
    (hn : start.column.valueLength = some n) :
    IsGreatest {k | ∃ text ∈ start.texts, text.length = k} n := by
  rw [valueLength_eq, List.max?_eq_some_iff] at hn
  obtain ⟨hmem, hmax⟩ := hn
  refine ⟨List.mem_map.mp hmem, ?_⟩
  rintro k ⟨text, htext, rfl⟩
  exact hmax _ (List.mem_map_of_mem htext)

theorem texts_eq_nil_of_valueLength {start : Start} (hn : start.column.valueLength = none) :
    start.texts = [] := by
  rw [valueLength_eq, List.max?_eq_none_iff] at hn
  exact List.map_eq_nil_iff.mp hn

end Start

/-! ## Uses -/

/-- What setters are about. -/
inductive Attribute where
  | hierarchy
  | totalCode
  | codeList
  | length
  | missing
  deriving DecidableEq

/-- A setter with what it is given. -/
inductive Setter where
  | hierarchy (hierarchy : Hierarchy)
  | totalCode (total : String)
  | codeList (codeList : Option CodeList)
  | length (length : Option Nat)
  | missing (markers : List String)
  | addMissing (marker : String)

namespace Setter

/-- What a setter is about. -/
def about : Setter → Attribute
  | hierarchy _ => .hierarchy
  | totalCode _ => .totalCode
  | codeList _ => .codeList
  | length _ => .length
  | missing _ | addMissing _ => .missing

/-- What a setter does to a column. -/
def run (c : Column) : Setter → Column
  | hierarchy h => c.setHierarchy h
  | totalCode total => c.setTotalCode total
  | codeList l => c.setCodeList l
  | length n => c.setLength n
  | missing markers => c.setMissing markers
  | addMissing marker => c.addMissing marker

/-- The hierarchy that a setter is given is one that can be made. -/
def GivesReachable : Setter → Prop
  | hierarchy h => h.Reachable
  | _ => True

end Setter

/-- Runs setters one after another. -/
def setAll (c : Column) (setters : List Setter) : Column :=
  setters.foldl Setter.run c

/-- The column after it was asked for its length. A length that is remembered is told at once. If
there is none the column remembers what it tells, and the hierarchy was asked for it unless a length
was given by hand. -/
def ask (c : Column) : Column :=
  match c.resolvedLength, c.explicitLength with
  | some _, _ => c
  | none, some _ => c.measure
  | none, none => { c.measure with hierarchy := c.hierarchy.measure }

/-- One use of a column. An edit in place goes by what the hierarchy or the code list is after it,
and so stands for whatever was done to get there. -/
inductive Use where
  | set (setter : Setter)
  | editHierarchy (edited : Hierarchy)
  | editCodeList (edited : CodeList)
  | askLength
  | askLines (withLength : Bool)

namespace Use

/-- The column after a use. The lines of the metadata file ask for the length if they tell it. -/
def run (c : Column) : Use → Column
  | set setter => setter.run c
  | editHierarchy edited => c.editHierarchy fun _ => edited
  | editCodeList edited => c.editCodeList fun _ => edited
  | askLength => c.ask
  | askLines withLength => if withLength then c.ask else c

/-- What a use may be: hierarchies are ones that can be made, and an edit leaves the total code
alone. -/
def Allowed (c : Column) : Use → Prop
  | set setter => setter.GivesReachable
  | editHierarchy edited => edited.Reachable ∧ edited.totalCode = c.totalCode
  | _ => True

end Use

/-- The columns that uses lead to, with all uses since the column was new. -/
inductive Used (start : Start) : List Use → Column → Prop where
  | new : Used start [] start.column
  | more {c : Column} {history : List Use} (use : Use) : Used start history c →
      use.Allowed c → Used start (history ++ [use]) (use.run c)

variable {start : Start}

/-! ## What the history says -/

/-- What was given last, attribute by attribute. -/
structure Given where
  hierarchy : Hierarchy
  total : Option String
  codeList : Option CodeList
  length : Option Nat

/-- A use gives one attribute at most. -/
def Given.after (g : Given) : Use → Given
  | .set (.hierarchy h) | .editHierarchy h => { g with hierarchy := h }
  | .set (.totalCode total) => { g with total }
  | .set (.codeList l) => { g with codeList := l }
  | .editCodeList l => { g with codeList := g.codeList.map fun _ => l }
  | .set (.length n) => { g with length := n }
  | _ => g

/-- What a history has given, from nothing on. -/
def given (history : List Use) : Given :=
  history.foldl Given.after ⟨.flat defaultTotal, none, none, none⟩

/-- The length that a column should have: the first of these that there is. -/
inductive HasLength (start : Start) (c : Column) : Nat → Prop where
  /-- The length given by hand. -/
  | byHand {n : Nat} : c.explicitLength = some n → HasLength start c n
  /-- The length that the hierarchy asks for. -/
  | ofHierarchy {n : Nat} : c.explicitLength = none → c.hierarchy.AsksFor n → HasLength start c n
  /-- The length of the longest code in the code list. -/
  | ofCodes {total : String} {l : CodeList} {n : Nat} : c.explicitLength = none →
      c.hierarchy = .flat total → c.codeList = some l →
      IsGreatest (insert 0 {k | ∃ entry ∈ l.entries, entry.1.length = k}) n → HasLength start c n
  /-- The length of the longest text among the values. -/
  | ofTexts {total : String} {n : Nat} : c.explicitLength = none →
      c.hierarchy = .flat total → c.codeList = none →
      IsGreatest {k | ∃ text ∈ start.texts, text.length = k} n → HasLength start c n
  /-- One character for booleans. -/
  | ofBooleans {total : String} : c.explicitLength = none → c.hierarchy = .flat total →
      c.codeList = none → start.texts = [] → start.IsBoolean → HasLength start c 1
  /-- Twenty characters for anything else. -/
  | otherwise {total : String} : c.explicitLength = none → c.hierarchy = .flat total →
      c.codeList = none → start.texts = [] → ¬ start.IsBoolean → HasLength start c 20

/-- The column is what was given, and its length follows from that. -/
structure Follows (start : Start) (g : Given) (c : Column) : Prop where
  /-- Codes are grouped as was said last. -/
  hierarchy_eq : c.hierarchy.plain = g.hierarchy.plain
  /-- The total code is the last one given by hand, or else that of the hierarchy. -/
  totalCode_eq : c.totalCode = g.total.getD g.hierarchy.totalCode
  codeList_eq : c.codeList = g.codeList
  explicitLength_eq : c.explicitLength = g.length
  /-- The length that is told is the one the column should have now. -/
  hasLength : HasLength start c c.length

/-- The length of codes that a code list tells is that of the longest code in it. -/
theorem isGreatest_codeLength (l : CodeList) :
    IsGreatest (insert 0 {k | ∃ entry ∈ l.entries, entry.1.length = k}) l.codeLength := by
  rw [CodeList.codeLength, List.foldl_max, Nat.zero_max]
  constructor
  · cases hmax : (l.entries.map fun entry => entry.1.length).max? with
    | none => exact .inl rfl
    | some longest => exact .inr (List.mem_map.mp (List.max?_mem hmax))
  · rintro n (rfl | ⟨entry, hentry, rfl⟩)
    · exact Nat.zero_le _
    · exact List.le_max?_getD_of_mem (List.mem_map_of_mem hentry)

/-- What every use keeps of a column. -/
structure Kept (start : Start) (g : Given) (c : Column) : Prop where
  /-- A tree that groups the codes is one that can be made. -/
  reachable : c.hierarchy.Reachable
  /-- A length that is remembered is right. -/
  measured : c.Measured
  /-- It is known whether a total code was given by hand. -/
  explicitTotal_eq : c.explicitTotal = g.total.isSome
  hierarchy_eq : c.hierarchy.plain = g.hierarchy.plain
  totalCode_eq : c.totalCode = g.total.getD g.hierarchy.totalCode
  codeList_eq : c.codeList = g.codeList
  explicitLength_eq : c.explicitLength = g.length
  valueLength_eq : c.valueLength = start.column.valueLength
  kind_eq : c.kind = start.column.kind

theorem kept_new (start : Start) : Kept start (given []) start.column := by
  have hflat : start.column.hierarchy = .flat defaultTotal := by cases start <;> rfl
  have hforgotten : start.column.resolvedLength = none := by cases start <;> rfl
  exact {
    reachable := hflat ▸ Hierarchy.reachable_flat _
    measured := fun n hn => absurd (hforgotten.symm.trans hn) (by simp)
    explicitTotal_eq := by cases start <;> rfl
    hierarchy_eq := congrArg Hierarchy.plain hflat
    totalCode_eq := congrArg Hierarchy.totalCode hflat
    codeList_eq := by cases start <;> rfl
    explicitLength_eq := by cases start <;> rfl
    valueLength_eq := rfl
    kind_eq := rfl }

namespace Kept

variable {g : Given}

theorem sound (h : Kept start g c) : c.Sound :=
  ⟨h.reachable.sound, h.measured⟩

/-- A new hierarchy takes over a total code that was given by hand. -/
theorem setHierarchy (h : Kept start g c) {hierarchy : Hierarchy} (hr : hierarchy.Reachable) :
    Kept start { g with hierarchy } (c.setHierarchy hierarchy) := by
  have hkept : (c.setHierarchy hierarchy).hierarchy =
      if g.total.isSome then hierarchy.withTotalCode (g.total.getD g.hierarchy.totalCode)
      else hierarchy := by
    rw [← h.explicitTotal_eq, ← h.totalCode_eq]
    rfl
  rcases Option.eq_none_or_eq_some g.total with hnone | ⟨total, hsome⟩
  · rw [hnone] at hkept
    exact { h with
      reachable := hkept ▸ hr
      measured := measured_forgetLength _
      hierarchy_eq := congrArg Hierarchy.plain hkept
      totalCode_eq := by
        rw [totalCode, hkept, hnone]
        rfl }
  · rw [hsome] at hkept
    exact { h with
      reachable := hkept ▸ hr.withTotalCode total
      measured := measured_forgetLength _
      hierarchy_eq := (congrArg Hierarchy.plain hkept).trans (hierarchy.plain_withTotalCode total)
      totalCode_eq := by
        rw [totalCode, hkept, hsome]
        exact hr.sound.totalCode_withTotalCode total }

theorem setTotalCode (h : Kept start g c) (total : String) :
    Kept start { g with total } (c.setTotalCode total) :=
  { h with
    reachable := h.reachable.withTotalCode total
    measured := (h.sound.setTotalCode total).measured
    explicitTotal_eq := rfl
    hierarchy_eq := (c.hierarchy.plain_withTotalCode total).trans h.hierarchy_eq
    totalCode_eq := h.sound.hierarchy.totalCode_withTotalCode total }

/-- An edit that leaves the total code alone leaves the one alone that was given by hand. -/
theorem editHierarchy (h : Kept start g c) {edited : Hierarchy} (hr : edited.Reachable)
    (htotal : edited.totalCode = c.totalCode) :
    Kept start { g with hierarchy := edited } (c.editHierarchy fun _ => edited) :=
  { h with
    reachable := hr
    measured := measured_forgetLength _
    hierarchy_eq := rfl
    totalCode_eq := by
      have hcode : (c.editHierarchy fun _ => edited).totalCode = edited.totalCode := rfl
      rw [hcode]
      cases hg : g.total with
      | none => rfl
      | some total =>
        rw [htotal, h.totalCode_eq, hg]
        rfl }

theorem setCodeList (h : Kept start g c) (codeList : Option CodeList) :
    Kept start { g with codeList } (c.setCodeList codeList) :=
  { h with measured := measured_forgetLength _, codeList_eq := rfl }

theorem editCodeList (h : Kept start g c) (edited : CodeList) :
    Kept start { g with codeList := g.codeList.map fun _ => edited }
      (c.editCodeList fun _ => edited) :=
  { h with
    measured := measured_forgetLength _
    codeList_eq := congrArg (Option.map fun _ => edited) h.codeList_eq }

theorem setLength (h : Kept start g c) (length : Option Nat) :
    Kept start { g with length } (c.setLength length) :=
  { h with measured := measured_forgetLength _, explicitLength_eq := rfl }

/-- Markers for missing values have nothing to do with codes. -/
theorem of_missing (h : Kept start g c) (missing : List String) :
    Kept start g { c with missing } :=
  { h with }

/-- A question fills the two memories with what it tells. -/
theorem ask (h : Kept start g c) : Kept start g c.ask := by
  unfold Column.ask
  split
  · exact h
  · exact { h with
      measured := fun n hn => by
        rw [← Option.some.inj hn]
        exact h.measured.length_eq }
  · have hsame : ({ c.measure with hierarchy := c.hierarchy.measure } : Column).resolveLength =
        c.resolveLength := by
      rw [resolveLength, c.hierarchy.codeLength?_measure]
      rfl
    exact { h with
      reachable := h.reachable.measure
      measured := fun n hn => by
        rw [hsame, ← Option.some.inj hn]
        exact h.measured.length_eq
      hierarchy_eq := c.hierarchy.plain_measure.trans h.hierarchy_eq
      totalCode_eq := c.hierarchy.totalCode_measure.trans h.totalCode_eq }

theorem run (h : Kept start g c) {use : Use} (hallowed : use.Allowed c) :
    Kept start (g.after use) (use.run c) := by
  cases use with
  | set setter =>
    cases setter with
    | hierarchy hierarchy => exact h.setHierarchy hallowed
    | totalCode total => exact h.setTotalCode total
    | codeList codeList => exact h.setCodeList codeList
    | length length => exact h.setLength length
    | missing markers =>
      obtain ⟨missing, hmissing⟩ := c.setMissing_eq markers
      show Kept start g (c.setMissing markers)
      rw [hmissing]
      exact h.of_missing missing
    | addMissing marker =>
      show Kept start g (c.addMissing marker)
      rw [Column.addMissing]
      split
      · exact h
      · exact h.of_missing _
  | editHierarchy edited => exact h.editHierarchy hallowed.1 hallowed.2
  | editCodeList edited => exact h.editCodeList edited
  | askLength => exact h.ask
  | askLines withLength =>
    cases withLength with
    | false => exact h
    | true => exact h.ask

/-- The length of a column is never out of date, and it is the first one there is. -/
theorem hasLength (h : Kept start g c) : HasLength start c c.length := by
  rw [h.measured.length_eq, resolveLength]
  cases hhand : c.explicitLength with
  | some n => exact .byHand hhand
  | none =>
    cases hcodes : c.hierarchy.codeLength? with
    | some n => exact .ofHierarchy hhand (h.sound.hierarchy.asksFor hcodes)
    | none =>
      obtain ⟨total, hflat⟩ := Hierarchy.eq_flat_of_codeLength? hcodes
      cases hlist : c.codeList with
      | some l => exact .ofCodes hhand hflat hlist (isGreatest_codeLength l)
      | none =>
        cases hvalues : c.valueLength with
        | some n =>
          exact .ofTexts hhand hflat hlist
            (Start.isGreatest_of_valueLength (h.valueLength_eq.symm.trans hvalues))
        | none =>
          have htexts := Start.texts_eq_nil_of_valueLength (h.valueLength_eq.symm.trans hvalues)
          have hkind : c.kind = .boolean ↔ start.IsBoolean := by
            rw [h.kind_eq, Start.isBoolean_iff]
          by_cases hboolean : c.kind = .boolean
          · rw [if_pos hboolean]
            exact .ofBooleans hhand hflat hlist htexts (hkind.mp hboolean)
          · rw [if_neg hboolean]
            exact .otherwise hhand hflat hlist htexts fun hb => hboolean (hkind.mpr hb)

/-- What is kept says what the column is. -/
theorem follows (h : Kept start g c) : Follows start g c :=
  { h with hasLength := h.hasLength }

end Kept

theorem Used.kept {history : List Use} (h : Used start history c) :
    Kept start (given history) c := by
  induction h with
  | new => exact kept_new start
  | @more c history use _ hallowed ih =>
    have hgiven : given (history ++ [use]) = (given history).after use := List.foldl_concat ..
    rw [hgiven]
    exact ih.run hallowed

/-! ## The order of setters -/

/-- Markers with one more, unless it is there already. -/
def withMarker (missing : List String) (marker : String) : List String :=
  if missing.contains marker then missing else missing ++ [marker]

theorem addMissing_eq (c : Column) (marker : String) :
    c.addMissing marker = { c with missing := withMarker c.missing marker } := by
  rw [addMissing, withMarker]
  split <;> rfl

/-- Setting the markers looks at nothing that was there before. -/
theorem setMissing_eq_foldl (c : Column) (markers : List String) :
    c.setMissing markers = { c with missing := markers.foldl withMarker [] } := by
  have hfold : ∀ (missing : List String), markers.foldl addMissing { c with missing } =
      { c with missing := markers.foldl withMarker missing } := by
    induction markers with
    | nil => exact fun _ => rfl
    | cons marker rest ih =>
      intro missing
      rw [List.foldl_cons, List.foldl_cons, addMissing_eq, ih]
  exact hfold []

/-- A total code given by hand counts whether the hierarchy comes before or after it. -/
theorem setHierarchy_setTotalCode (hc : c.hierarchy.Sound) (hierarchy : Hierarchy)
    (total : String) :
    (c.setTotalCode total).setHierarchy hierarchy =
      (c.setHierarchy hierarchy).setTotalCode total := by
  have hbefore : (c.setTotalCode total).setHierarchy hierarchy =
      { c with hierarchy := hierarchy.withTotalCode (c.hierarchy.withTotalCode total).totalCode,
               explicitTotal := true, resolvedLength := none } := rfl
  have hafter : (c.setHierarchy hierarchy).setTotalCode total =
      { c with hierarchy := (c.setHierarchy hierarchy).hierarchy.withTotalCode total,
               explicitTotal := true, resolvedLength := none } := rfl
  have hkept : (c.setHierarchy hierarchy).hierarchy =
      if c.explicitTotal then hierarchy.withTotalCode c.totalCode else hierarchy := rfl
  rw [hbefore, hafter, hkept, hc.totalCode_withTotalCode]
  split
  · rw [Hierarchy.withTotalCode_withTotalCode]
  · rfl

/-- Setters for different attributes can change places. -/
theorem run_comm (hc : c.hierarchy.Sound) {s s' : Setter} (hne : s.about ≠ s'.about) :
    s'.run (s.run c) = s.run (s'.run c) := by
  -- the hierarchy and the total code are the only two attributes that look at each other
  cases s <;> cases s' <;> simp only [Setter.run, addMissing_eq, setMissing_eq_foldl] <;>
    first
    | exact absurd rfl hne
    | rfl
    | exact setHierarchy_setTotalCode hc _ _
    | exact (setHierarchy_setTotalCode hc _ _).symm

theorem Setter.reachable_run {s : Setter} (hs : s.GivesReachable) (hc : c.hierarchy.Reachable) :
    (s.run c).hierarchy.Reachable := by
  cases s with
  | hierarchy h =>
    show (if c.explicitTotal then h.withTotalCode c.totalCode else h).Reachable
    split
    · exact Hierarchy.Reachable.withTotalCode hs c.totalCode
    · exact hs
  | totalCode total => exact hc.withTotalCode total
  | codeList _ => exact hc
  | length _ => exact hc
  | missing markers =>
    rw [Setter.run, setMissing_eq_foldl]
    exact hc
  | addMissing marker =>
    rw [Setter.run, addMissing_eq]
    exact hc

/-- A setter can go before others that are about something else. -/
theorem setAll_front {s : Setter} {before after : List Setter} (hc : c.hierarchy.Reachable)
    (hgives : ∀ s' ∈ before, s'.GivesReachable) (hne : ∀ s' ∈ before, s'.about ≠ s.about) :
    c.setAll (before ++ s :: after) = c.setAll (s :: (before ++ after)) := by
  induction before generalizing c with
  | nil => rfl
  | cons first rest ih =>
    obtain ⟨hfirst, hrest⟩ := List.forall_mem_cons.mp hgives
    obtain ⟨hother, hothers⟩ := List.forall_mem_cons.mp hne
    calc c.setAll (first :: rest ++ s :: after)
      _ = (first.run c).setAll (rest ++ s :: after) := rfl
      _ = (s.run (first.run c)).setAll (rest ++ after) :=
        ih (Setter.reachable_run hfirst hc) hrest hothers
      _ = (first.run (s.run c)).setAll (rest ++ after) := by rw [run_comm hc.sound hother]
      _ = c.setAll (s :: (first :: rest ++ after)) := rfl

/-- The setters for one attribute, in their order. -/
def settersOf (about : Attribute) (setters : List Setter) : List Setter :=
  setters.filter (·.about = about)

theorem mem_of_settersOf_eq {s : Setter} {setters others : List Setter}
    (hsame : ∀ about, settersOf about others = settersOf about setters) (hs : s ∈ others) :
    s ∈ setters := by
  have hmem : s ∈ settersOf s.about others := List.mem_filter.mpr ⟨hs, by simp⟩
  rw [hsame] at hmem
  exact (List.mem_filter.mp hmem).1

/-- Setters in whatever order come to the same column, as long as those for one attribute stay in
their order. -/
theorem setAll_congr {setters others : List Setter} (hc : c.hierarchy.Reachable)
    (hgives : ∀ s ∈ setters, s.GivesReachable)
    (hsame : ∀ about, settersOf about others = settersOf about setters) :
    c.setAll others = c.setAll setters := by
  induction setters generalizing c others with
  | nil =>
    have hnone : ∀ s, s ∉ others := fun s hs => List.not_mem_nil (mem_of_settersOf_eq hsame hs)
    rw [List.eq_nil_iff_forall_not_mem.mpr hnone]
  | cons s rest ih =>
    have hfirst : settersOf s.about others = s :: settersOf s.about rest := by
      rw [hsame, settersOf, List.filter_cons_of_pos (by simp)]
      rfl
    -- the first setter stands behind others that are about something else
    obtain ⟨before, after, rfl, hbefore, _, hafter⟩ := List.filter_eq_cons_iff.mp hfirst
    have hgiven : ∀ s' ∈ before, s'.GivesReachable := fun s' hs' =>
      hgives s' (mem_of_settersOf_eq hsame (List.mem_append_left _ hs'))
    have hothers : ∀ s' ∈ before, s'.about ≠ s.about := fun s' hs' => by simpa using hbefore s' hs'
    have hleft : ∀ about, settersOf about (before ++ after) = settersOf about rest := by
      intro about
      have habout := hsame about
      simp only [settersOf, List.filter_append, List.filter_cons] at habout ⊢
      by_cases hs : s.about = about
      · subst hs
        rw [List.filter_eq_nil_iff.mpr hbefore, List.nil_append]
        exact hafter
      · simpa only [hs, decide_false, Bool.false_eq_true, if_false] using habout
    obtain ⟨hs, hrest⟩ := List.forall_mem_cons.mp hgives
    rw [setAll_front hc hgiven hothers]
    exact ih (Setter.reachable_run hs hc) hrest hleft

/-- **A column is what was given last, and remembers nothing that is wrong.** Whatever uses have led
to it, its attributes are those given last and its length follows from them; and from there on only
the order of setters for the same attribute counts. -/
theorem Used.follows_history {history : List Use} (h : Used start history c) :
    Follows start (given history) c ∧
      ∀ setters others : List Setter, (∀ s ∈ setters, s.GivesReachable) →
        (∀ about, settersOf about others = settersOf about setters) →
        c.setAll others = c.setAll setters :=
  ⟨h.kept.follows, fun _ _ hgives hsame => setAll_congr h.kept.reachable hgives hsame⟩

/-- Uses of a region: its tree is measured, grows by a longer code, and is measured again. -/
def regionHistory : List Use :=
  let tree := CodeTree.ofRows [["North", "A"], ["South"]] "Total"
  [.askLength, .set (.hierarchy (.tree (.ofTree tree "@"))), .askLines true,
    .editHierarchy (.tree (.ofTree (tree.createUnder 1 ["Amsterdam"]).1 "@")),
    .set (.totalCode "All"), .askLength]

/-- The region at the end of its history. -/
def regionColumn : Column :=
  regionHistory.foldl Use.run (Start.kind "region" .text).column

/-- Towns by their names, the name of one of which is missing. -/
def towns : Start :=
  .series ⟨"town", .text [some "Ede", none, some "Utrecht"]⟩

/-- Labels for the codes of towns. -/
def townLabels : CodeList :=
  .ofPairs [("E", "Ede"), ("UT", "Utrecht")]

/-- More labels, one of them for a longer code. -/
def moreLabels : CodeList :=
  townLabels.insert "EDE-2" "Ede"

/-- Uses of towns: codes are given labels, and then a longer code is given one as well. The length
is asked for each time. -/
def townHistory : List Use :=
  [.askLength, .set (.codeList (some townLabels)), .askLength, .editCodeList moreLabels, .askLength]

/-- Towns whose codes have labels. -/
def townColumn : Column :=
  townHistory.foldl Use.run towns.column

theorem used_regionColumn : Used (.kind "region" .text) regionHistory regionColumn := by
  have hrows := CodeTree.Reachable.ofRows [["North", "A"], ["South"]] "Total"
  have hgrown := hrows.call (.createUnder 1 ["Amsterdam"]) (by decide)
    (by simp [CodeTree.Call.part?])
  have hreachable : ∀ {t : CodeTree}, t.Reachable →
      (Hierarchy.tree (.ofTree t "@")).Reachable := by
    intro t ht tree htree
    rw [← Hierarchy.tree.inj htree]
    exact ht
  have hnew : Used (.kind "region" .text) [] (new "region" .text) := .new
  have hasked := hnew.more .askLength trivial
  have hgrouped := hasked.more (.set (.hierarchy _)) (hreachable hrows)
  have htold := hgrouped.more (.askLines true) trivial
  -- the longer code is one more node below the root, so the total code stays
  have hedited := htold.more (.editHierarchy _) ⟨hreachable hgrown, by decide⟩
  have hnamed := hedited.more (.set (.totalCode "All")) trivial
  exact hnamed.more .askLength trivial

theorem used_townColumn : Used towns townHistory townColumn := by
  have hnew : Used towns [] towns.column := .new
  have hasked := hnew.more .askLength trivial
  have hlabelled := hasked.more (.set (.codeList (some townLabels))) trivial
  have htold := hlabelled.more .askLength trivial
  have hmore := htold.more (.editCodeList moreLabels) trivial
  exact hmore.more .askLength trivial

/-- A region has the length of the longest code in its tree. Towns have that of the longest name,
and that of the longest code with a label once there are labels. -/
theorem regionColumn_follows_history :
    (Used (.kind "region" .text) regionHistory regionColumn ∧
      Follows (.kind "region" .text) (given regionHistory) regionColumn ∧
      regionColumn.length = 9 ∧ regionColumn.totalCode = "All" ∧
      regionColumn.setAll [.totalCode "T", .length (some 4), .hierarchy (.flat "Total")] =
        regionColumn.setAll [.hierarchy (.flat "Total"), .length (some 4), .totalCode "T"]) ∧
    (Follows towns (given []) towns.column ∧ HasLength towns towns.column 7) ∧
    Used towns townHistory townColumn ∧ Follows towns (given townHistory) townColumn ∧
      HasLength towns townColumn 5 := by
  obtain ⟨hregion, hsetters⟩ := used_regionColumn.follows_history
  obtain ⟨hnames, -⟩ := Used.follows_history (Used.new : Used towns [] towns.column)
  obtain ⟨hlabels, -⟩ := used_townColumn.follows_history
  refine ⟨⟨used_regionColumn, hregion, by decide, by decide, ?_⟩, ⟨hnames, hnames.hasLength⟩,
    used_townColumn, hlabels, hlabels.hasLength⟩
  refine hsetters [.hierarchy (.flat "Total"), .length (some 4), .totalCode "T"] _ ?_ ?_
  · simp [Setter.GivesReachable, Hierarchy.reachable_flat]
  · intro about
    cases about <;> rfl

end Column

end Disclosure
