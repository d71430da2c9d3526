import Disclosure.JobFile.Building
import Disclosure.Proofs.CodeTree.Rows
import Disclosure.Proofs.Column
import Disclosure.Proofs.Toml

/-!
# What a job file makes of its columns

A column of a job file is described once: the columns are a table of the document, and no name comes
twice in a table. What is said about a column becomes calls on the column of that name, one for each
thing that is said, in a fixed order. So an input from a job file is one that can be made by calls,
and what a column ends as follows from its own section alone.
-/

namespace Disclosure.JobFile

/-! ## What is read -/

/-- Reading the values of a table one by one keeps the names. -/
theorem names_of_mapM {α : Type} {read : TomlValue → Option α} :
    ∀ {entries : TomlEntries} {out : List (String × α)},
      (entries.mapM fun (name, value) => (read value).map fun value => (name, value)) = some out →
      out.map Prod.fst = entries.map Prod.fst
  | [], _, h => by
    cases h
    rfl
  | (name, value) :: rest, out, h => by
    simp only [List.mapM_cons, Option.bind_eq_bind, Option.bind_eq_some_iff,
      Option.map_eq_some_iff] at h
    obtain ⟨_, ⟨a, _, rfl⟩, out', hrest, heq⟩ := h
    cases heq
    rw [List.map_cons, List.map_cons, names_of_mapM hrest]

theorem nodup_of_sorted? {α : Type} {read : TomlValue → Option α} {value : TomlValue}
    {out : List (String × α)} (hvalue : Toml.DistinctIn value) (h : sorted? read value = some out) :
    (out.map Prod.fst).Nodup := by
  unfold sorted? at h
  split at h
  · rename_i origin entries
    rw [names_of_mapM h, ((List.mergeSort_perm entries _).map Prod.fst).nodup_iff]
    exact (hvalue origin entries rfl).nodup
  · exact absurd h (by simp)

/-- The fields of a table are its entries. -/
theorem Fields.values_of_table {names : List String} {origin : TomlOrigin} {entries : TomlEntries}
    {f : Fields} (h : Fields.of? names (.table origin entries) = some f) :
    f.values = .inl entries := by
  rw [Fields.of?] at h
  split at h
  · cases h
    rfl
  · exact absurd h (by simp)

/-- A field of a table is one of the values there, or it has its usual value. -/
theorem Fields.of_withUsual {α : Type} {f : Fields} {entries : TomlEntries} {name : String}
    {usual a : α} {read : TomlValue → Option α} (hf : f.values = .inl entries)
    (h : f.withUsual name usual read = some a) :
    (∃ value, entries.lookup name = some value ∧ read value = some a) ∨ a = usual := by
  rw [Fields.withUsual, Fields.value?, hf] at h
  dsimp only at h
  split at h
  · rename_i value hvalue
    exact .inl ⟨value, hvalue, h⟩
  · exact .inr (Option.some.inj h).symm

/-- No column is described twice. -/
theorem nodup_columns_of_ofEntries? {entries : TomlEntries} {file : JobFile}
    (h : ofEntries? entries = some file) (hentries : Toml.Distinct entries) :
    (file.columns.map Prod.fst).Nodup := by
  simp only [ofEntries?, Option.bind_eq_bind, Option.bind_eq_some_iff] at h
  obtain ⟨f, hf, _, _, _, _, _, _, columns, hcolumns, _, _, _, _, _, _, _, _, heq⟩ := h
  cases heq
  rcases Fields.of_withUsual (Fields.values_of_table hf) hcolumns with ⟨value, hvalue, hread⟩ | rfl
  · exact nodup_of_sorted? (hentries.of_lookup hvalue) hread
  · exact .nil

theorem nodup_columns {fs : FileSystem} {path : Path} {file : JobFile}
    (h : loadFile fs path = .ok file) : (file.columns.map Prod.fst).Nodup := by
  rw [loadFile] at h
  split at h
  · exact absurd h (by simp)
  · split at h
    · exact absurd h (by simp)
    · rename_i text _ _ hread
      cases h
      obtain ⟨entries, hentries, hfile⟩ := Option.bind_eq_some_iff.mp hread
      exact nodup_columns_of_ofEntries? hfile (Toml.distinct_of_read? hentries)

/-! ## Errors that are passed on -/

variable {α β : Type} {a : α} {b : β}

theorem orFault_eq_ok_iff {r : Except Fault α} : orFault r = .ok a ↔ r = .ok a := by
  cases r <;> simp [orFault, Except.mapError]

theorem doing_eq_ok_iff {context : String} {r : Built α} : doing context r = .ok a ↔ r = .ok a := by
  cases r <;> simp [doing, Except.mapError]

/-! ## The calls that a section stands for -/

/-- The calls on a column that its section stands for, apart from its hierarchy and total code. -/
def otherCalls (s : ColumnSection) (codeList : Option CodeList) : List Column.Call :=
  codeList.toList.map (fun l => .setCodeList (some l)) ++
    s.length.toList.map (fun n => .setLength (some n)) ++ s.decimals.toList.map .setDecimals ++
    if s.missing.isEmpty then [] else [.setMissing s.missing]

/-- All calls on a column that its section stands for, once its hierarchy and code list are there. -/
def callsOf (s : ColumnSection) (hierarchy : Option Hierarchy) (codeList : Option CodeList) :
    List Column.Call :=
  hierarchy.toList.map .setHierarchy ++
    (s.totalCode.toList.map .setTotalCode ++ otherCalls s codeList)

theorem callAll_of_assign {name : String} {set : Input → α → Except Fault Input}
    (call : α → Column.Call)
    (hset : ∀ i a, set i a = i.updateColumn name fun c => (call a).run c) {value : Option α}
    {i i' : Input} (h : assign set value i = .ok i') :
    i.callAll name (value.toList.map call) = .ok i' := by
  cases value with
  | none => exact congrArg Except.ok (Except.ok.inj h)
  | some a =>
    rw [assign, orFault_eq_ok_iff, hset] at h
    rw [Option.toList_some, List.map_singleton, Input.callAll, List.foldlM_cons, h]
    rfl

/-- What is said about a column becomes calls on it. -/
theorem applyColumn_inversion {fs : FileSystem} {base : Path} {name : String} {s : ColumnSection}
    {i i' : Input} (h : applyColumn fs base name s i = .ok i') :
    ∃ hierarchy codeList, buildHierarchy fs base s = .ok hierarchy ∧
      i.callAll name (callsOf s hierarchy codeList) = .ok i' := by
  rw [applyColumn] at h
  obtain ⟨hierarchy, hhierarchy, h⟩ := Fault.ok_of_bind h
  obtain ⟨i₁, h₁, h⟩ := Fault.ok_of_bind h
  obtain ⟨i₂, h₂, h⟩ := Fault.ok_of_bind h
  obtain ⟨codeList, _, h⟩ := Fault.ok_of_bind h
  obtain ⟨i₃, h₃, h⟩ := Fault.ok_of_bind h
  obtain ⟨i₄, h₄, h⟩ := Fault.ok_of_bind h
  dsimp only at h
  -- without the column there would be an error by now
  have hcontains : i₄.contains name = true := by
    by_contra hnot
    rw [Bool.not_eq_true] at hnot
    rw [hnot] at h
    exact nomatch h
  rw [hcontains] at h
  obtain ⟨i₅, h₅, h⟩ := Fault.ok_of_bind h
  have hmissing : i₅.callAll name (if s.missing.isEmpty then [] else [.setMissing s.missing]) =
      .ok i' := by
    split at h
    · rename_i hempty
      rw [if_pos hempty, ← Except.ok.inj h]
      rfl
    · rename_i hempty
      rw [if_neg hempty]
      have hassign : assign (fun i markers => i.updateColumn name fun column =>
          .ok (column.setMissing markers)) (some s.missing) i₅ = .ok i' := h
      exact callAll_of_assign .setMissing (fun _ _ => rfl) hassign
  refine ⟨hierarchy, codeList, hhierarchy, ?_⟩
  have hcalls₁ := callAll_of_assign .setHierarchy (fun _ _ => rfl) h₁
  have hcalls₂ := callAll_of_assign .setTotalCode (fun _ _ => rfl) h₂
  have hcalls₃ := callAll_of_assign (fun l => .setCodeList (some l)) (fun _ _ => rfl) h₃
  have hcalls₄ := callAll_of_assign (fun n => .setLength (some n)) (fun _ _ => rfl) h₄
  have hcalls₅ := callAll_of_assign .setDecimals (fun _ _ => rfl) h₅
  simp only [callsOf, otherCalls, Input.callAll_append, hcalls₁, hcalls₂, hcalls₃, hcalls₄, hcalls₅,
    Fault.ok_bind, hmissing]

theorem sound_of_buildHierarchy {fs : FileSystem} {base : Path} {s : ColumnSection}
    {hierarchy : Hierarchy} (h : buildHierarchy fs base s = .ok (some hierarchy)) :
    hierarchy.Sound := by
  intro tree htree
  rw [buildHierarchy] at h
  split at h
  · exact nomatch h
  · obtain ⟨levels, _, hlevels⟩ := Fault.map_eq_ok_iff.mp (orFault_eq_ok_iff.mp h)
    exact absurd ((Option.some.inj hlevels).trans htree) (by simp)
  · obtain ⟨read, hread, hsame⟩ := Fault.map_eq_ok_iff.mp (orFault_eq_ok_iff.mp h)
    obtain rfl : read = tree := Hierarchy.tree.inj ((Option.some.inj hsame).trans htree)
    exact TreeHierarchy.sound_of_load hread
  · rename_i rows _ _ _
    have hrows := Hierarchy.tree.inj ((Option.some.inj (Except.ok.inj h)).trans htree)
    exact hrows ▸ CodeTree.sound_ofRows rows _
  · exact nomatch h

theorem putsSound_callsOf (s : ColumnSection) {hierarchy : Option Hierarchy}
    (h : ∀ given ∈ hierarchy, given.Sound) (codeList : Option CodeList) :
    ∀ call ∈ callsOf s hierarchy codeList, ∀ c, call.PutsSound c := by
  have hmissing : ∀ call ∈ if s.missing.isEmpty then [] else [Column.Call.setMissing s.missing],
      ∀ c, call.PutsSound c := by
    split
    · simp
    · simp [Column.Call.PutsSound]
  simp only [callsOf, otherCalls, List.forall_mem_append, List.forall_mem_map, Option.mem_toList]
  exact ⟨fun given hgiven _ => h given hgiven, fun _ _ _ => trivial,
    ⟨⟨fun _ _ _ => trivial, fun _ _ _ => trivial⟩, fun _ _ _ => trivial⟩, hmissing⟩

/-- What a section comes to: the hierarchy is built, and the calls are made. -/
theorem called_of_applyColumn {fs : FileSystem} {base : Path} {name : String} {s : ColumnSection}
    {i i' : Input} (h : i.Reachable) (happly : applyColumn fs base name s i = .ok i') :
    ∃ hierarchy codeList, buildHierarchy fs base s = .ok hierarchy ∧
      Input.Called name (callsOf s hierarchy codeList) i i' := by
  obtain ⟨hierarchy, codeList, hhierarchy, hcalls⟩ := applyColumn_inversion happly
  refine ⟨hierarchy, codeList, hhierarchy, h.callAll (putsSound_callsOf s ?_ codeList) hcalls⟩
  rintro given rfl
  exact sound_of_buildHierarchy hhierarchy

/-- What the sections of several columns come to. -/
structure Applied (fs : FileSystem) (base : Path) (columns : List (String × ColumnSection))
    (i i' : Input) : Prop where
  /-- The input is still one that can be made. -/
  reachable : i'.Reachable
  /-- No metadata file is given or taken away. -/
  metadataPath_eq : i'.metadataPath = i.metadataPath
  /-- Columns without a section are as they were. -/
  column?_of_not_mem : ∀ other, other ∉ columns.map Prod.fst → i'.column? other = i.column? other
  /-- A column with a section has had its calls and no others. -/
  column?_of_mem : ∀ name s, (name, s) ∈ columns → ∃ hierarchy codeList before after,
    buildHierarchy fs base s = .ok hierarchy ∧
    Input.Called name (callsOf s hierarchy codeList) before after ∧
    before.column? name = i.column? name ∧ i'.column? name = after.column? name

theorem applied_of_applyColumns {fs : FileSystem} {base : Path} :
    ∀ {columns : List (String × ColumnSection)} {i i' : Input}, (columns.map Prod.fst).Nodup →
      i.Reachable → applyColumns fs base columns i = .ok i' → Applied fs base columns i i'
  | [], i, i', _, h, happly => by
    cases happly
    exact ⟨h, rfl, fun _ _ => rfl, fun _ _ hmem => absurd hmem List.not_mem_nil⟩
  | (name, s) :: rest, i, i', hnames, h, happly => by
    obtain ⟨hname, hrest⟩ := List.nodup_cons.mp hnames
    rw [applyColumns, List.foldlM_cons] at happly
    obtain ⟨between, hfirst, hlater⟩ := Fault.ok_of_bind happly
    obtain ⟨hierarchy, codeList, hhierarchy, hcalled⟩ :=
      called_of_applyColumn h (doing_eq_ok_iff.mp hfirst)
    have hnext := applied_of_applyColumns hrest hcalled.reachable hlater
    refine ⟨hnext.reachable, hnext.metadataPath_eq.trans hcalled.metadataPath_eq,
      fun other hother => ?_, fun other s' hmem => ?_⟩
    · rw [List.map_cons, List.mem_cons, not_or] at hother
      exact (hnext.column?_of_not_mem other hother.2).trans (hcalled.column?_of_ne other hother.1)
    · rcases List.mem_cons.mp hmem with heq | hmem
      · cases heq
        exact ⟨hierarchy, codeList, i, between, hhierarchy, hcalled, rfl,
          hnext.column?_of_not_mem name hname⟩
      · -- the name is another one, so the first section has left the column alone
        have hin : other ∈ rest.map Prod.fst := List.mem_map_of_mem hmem
        have hne : other ≠ name := fun he => hname (he ▸ hin)
        obtain ⟨hierarchy', codeList', before, after, hbuilt, hcalled', hbefore, hafter⟩ :=
          hnext.column?_of_mem other s' hmem
        exact ⟨hierarchy', codeList', before, after, hbuilt, hcalled',
          hbefore.trans (hcalled.column?_of_ne other hne), hafter⟩

theorem data_of_applyColumns {fs : FileSystem} {base : Path}
    {columns : List (String × ColumnSection)} {i i' : Input}
    (h : applyColumns fs base columns i = .ok i') : i'.frame = i.frame ∧ i'.table? = i.table? := by
  refine Fault.foldlM_keeps (P := fun k => k.frame = i.frame ∧ k.table? = i.table?) ?_ ⟨rfl, rfl⟩ h
  intro _ _ k k' hk happly
  obtain ⟨_, _, _, hcalls⟩ := applyColumn_inversion (doing_eq_ok_iff.mp happly)
  obtain ⟨hframe, htable⟩ := Input.data_of_callAll hcalls
  exact ⟨hframe.trans hk.1, htable.trans hk.2⟩

/-! ## The hierarchy of a column -/

/-- The other calls leave alone what decides whether the column can be recoded. -/
theorem coding_of_otherCalls (s : ColumnSection) (codeList : Option CodeList) :
    ∀ call ∈ otherCalls s codeList, ∀ c d, call.run c = .ok d →
      d.hierarchy = c.hierarchy ∧ d.explicitTotal = c.explicitTotal := by
  have hmissing : ∀ call ∈ if s.missing.isEmpty then [] else [Column.Call.setMissing s.missing],
      ∀ c d, call.run c = .ok d →
        d.hierarchy = c.hierarchy ∧ d.explicitTotal = c.explicitTotal := by
    split
    · simp
    · intro call hcall c d hrun
      obtain rfl := List.mem_singleton.mp hcall
      obtain ⟨missing, hset⟩ := c.setMissing_eq s.missing
      rw [← Except.ok.inj hrun, hset]
      exact ⟨rfl, rfl⟩
  have hdecimals : ∀ (n : Nat) (c d : Column), c.setDecimals n = .ok d →
      d.hierarchy = c.hierarchy ∧ d.explicitTotal = c.explicitTotal := by
    intro n c d hrun
    rw [Column.setDecimals] at hrun
    split at hrun
    · rw [← Except.ok.inj hrun]
      exact ⟨rfl, rfl⟩
    · cases hrun
  simp only [otherCalls, List.forall_mem_append, List.forall_mem_map]
  refine ⟨⟨⟨fun l _ c d hrun => ?_, fun n _ c d hrun => ?_⟩, fun n _ => hdecimals n⟩, hmissing⟩
  · rw [← Except.ok.inj hrun]
    exact ⟨rfl, rfl⟩
  · rw [← Except.ok.inj hrun]
    exact ⟨rfl, rfl⟩

theorem coding_of_run_otherCalls {s : ColumnSection} {codeList : Option CodeList} {c d : Column}
    (hrun : (otherCalls s codeList).foldlM (fun c call => call.run c) c = .ok d) :
    d.hierarchy = c.hierarchy ∧ d.explicitTotal = c.explicitTotal := by
  refine Fault.foldlM_keeps
    (P := fun k => k.hierarchy = c.hierarchy ∧ k.explicitTotal = c.explicitTotal) ?_ ⟨rfl, rfl⟩ hrun
  intro call hcall k k' hk hstep
  obtain ⟨hhierarchy, htotal⟩ := coding_of_otherCalls s codeList call hcall k k' hstep
  exact ⟨hhierarchy.trans hk.1, htotal.trans hk.2⟩

/-- Where its section has no hierarchy and no total code, a column can be recoded if it could be
before. -/
theorem isRecodable_of_callsOf {s : ColumnSection} {codeList : Option CodeList} {c d : Column}
    (htotal : s.totalCode = none)
    (hrun : (callsOf s none codeList).foldlM (fun c call => call.run c) c = .ok d) :
    d.isRecodable = c.isRecodable := by
  rw [callsOf, htotal] at hrun
  obtain ⟨hhierarchy, hexplicit⟩ := coding_of_run_otherCalls hrun
  rw [Column.isRecodable, hhierarchy, hexplicit, Column.isRecodable]

/-- A column that was given no total code ends with the hierarchy of its section, and with the total
code if there is one. -/
theorem hierarchy_of_callsOf {s : ColumnSection} {hierarchy : Hierarchy}
    {codeList : Option CodeList} {c d : Column} (hfresh : c.explicitTotal = false)
    (hrun : (callsOf s (some hierarchy) codeList).foldlM (fun c call => call.run c) c = .ok d) :
    d.hierarchy = (s.totalCode.map hierarchy.withTotalCode).getD hierarchy := by
  have hset : (c.setHierarchy hierarchy).hierarchy = hierarchy := by
    rw [Column.setHierarchy, hfresh]
    rfl
  rw [callsOf, Option.toList_some, List.map_singleton, List.singleton_append,
    List.foldlM_cons] at hrun
  obtain ⟨c₁, h₁, hrun⟩ := Fault.ok_of_bind hrun
  obtain rfl : c.setHierarchy hierarchy = c₁ := Except.ok.inj h₁
  rw [List.foldlM_append] at hrun
  obtain ⟨c₂, h₂, hrun⟩ := Fault.ok_of_bind hrun
  rw [(coding_of_run_otherCalls hrun).1]
  cases htotal : s.totalCode with
  | none =>
    rw [htotal] at h₂
    rw [← Except.ok.inj h₂]
    exact hset
  | some total =>
    rw [htotal] at h₂
    obtain rfl : (c.setHierarchy hierarchy).setTotalCode total = c₂ := Except.ok.inj h₂
    exact congrArg (·.withTotalCode total) hset

/-! ## The input -/

/-- The inputs differ in their roles alone, and form the same table if they form one. -/
def OnlyRoles (i i' : Input) : Prop :=
  ∃ roles, i' = { i with roles } ∧ i'.table? = i.table?

theorem OnlyRoles.trans {i i' i'' : Input} (h : OnlyRoles i i') (h' : OnlyRoles i' i'') :
    OnlyRoles i i'' := by
  obtain ⟨_, rfl, htable⟩ := h
  obtain ⟨roles, rfl, htable'⟩ := h'
  exact ⟨roles, rfl, htable'.trans htable⟩

theorem onlyRoles_of_onMicrodata {i i' : Input} {columns : List String} {role : Role}
    {f : MicrodataRoles → MicrodataRoles}
    (h : (i.requireAll columns >>= fun _ => i.onMicrodata role f) = .ok i') : OnlyRoles i i' := by
  obtain ⟨_, _, h⟩ := Fault.ok_of_bind h
  rw [Input.onMicrodata] at h
  split at h
  · rename_i roles hroles
    rw [← Except.ok.inj h]
    exact ⟨_, rfl, by simp only [Input.table?, hroles]⟩
  · exact nomatch h

theorem onlyRoles_of_onTableData {i i' : Input} {columns : List String} {role : Role}
    {f : TableRoles → TableRoles} (hf : ∀ roles, (f roles).table = roles.table)
    (h : (i.requireAll columns >>= fun _ => i.onTableData role f) = .ok i') : OnlyRoles i i' := by
  obtain ⟨_, _, h⟩ := Fault.ok_of_bind h
  rw [Input.onTableData] at h
  split at h
  · rename_i roles hroles
    rw [← Except.ok.inj h]
    exact ⟨_, rfl, by simp only [Input.table?, hroles, hf]⟩
  · exact nomatch h

theorem onlyRoles_of_assign {set : Input → α → Except Fault Input} {column : Option α}
    {i i' : Input} (h : assign set column i = .ok i')
    (hset : ∀ {i a i'}, set i a = .ok i' → OnlyRoles i i') : OnlyRoles i i' := by
  cases column with
  | none =>
    obtain rfl := Except.ok.inj h
    exact ⟨i.roles, rfl, rfl⟩
  | some a => exact hset (orFault_eq_ok_iff.mp h)

theorem onlyRoles_of_assignRoles {s : InputSection} {i i' : Input}
    (h : assignRoles s i = .ok i') : OnlyRoles i i' := by
  obtain ⟨i₁, hweight, h⟩ := Fault.ok_of_bind h
  obtain ⟨i₂, hrequest, h⟩ := Fault.ok_of_bind h
  obtain ⟨i₃, hholding, h⟩ := Fault.ok_of_bind h
  obtain ⟨i₄, hfrequency, h⟩ := Fault.ok_of_bind h
  obtain ⟨i₅, htop, h⟩ := Fault.ok_of_bind h
  obtain ⟨i₆, hlower, h⟩ := Fault.ok_of_bind h
  obtain ⟨i₇, hupper, hstatus⟩ := Fault.ok_of_bind h
  exact (onlyRoles_of_assign hweight onlyRoles_of_onMicrodata).trans <|
    (onlyRoles_of_assign hrequest onlyRoles_of_onMicrodata).trans <|
    (onlyRoles_of_assign hholding onlyRoles_of_onMicrodata).trans <|
    (onlyRoles_of_assign hfrequency (onlyRoles_of_onTableData fun _ => rfl)).trans <|
    (onlyRoles_of_assign htop (onlyRoles_of_onTableData fun _ => rfl)).trans <|
    (onlyRoles_of_assign hlower (onlyRoles_of_onTableData fun _ => rfl)).trans <|
    (onlyRoles_of_assign hupper (onlyRoles_of_onTableData fun _ => rfl)).trans <|
    onlyRoles_of_assign hstatus (onlyRoles_of_onTableData fun _ => rfl)

/-- Data that is read: the header line tells which of the columns that hold codes there are, and
these are asked for as text. -/
theorem readData_inversion {file : JobFile} {fs : FileSystem} {base : Path} {frame : Frame}
    (h : file.readData fs base = .ok frame) :
    ∃ separator content names, file.separatorByte = .ok separator ∧
      fs.read (file.dataPath base) = .ok content ∧
      DataFile.headerNames? separator content = some names ∧
      Frame.ofDataFile? separator (names.filter file.categoricalColumns.contains) content =
        some frame := by
  rw [readData] at h
  obtain ⟨separator, hseparator, h⟩ := Fault.ok_of_bind h
  dsimp only at h
  split at h
  · exact nomatch h
  · rename_i content hcontent
    split at h
    · exact nomatch h
    · rename_i names hnames
      split at h
      · exact nomatch h
      · rename_i found hfound
        obtain rfl : found = frame := Except.ok.inj h
        exact ⟨separator, content, names, hseparator, hcontent, hnames, hfound⟩

/-- An input from a job file: it starts as its data is read, with its roles and with the table that
the file says it forms, and then its columns get what is said about them. -/
theorem buildInput_inversion {file : JobFile} {fs : FileSystem} {base : Path} {frame : Frame}
    {i' : Input} (h : file.buildInput fs base frame = .ok i') :
    ∃ roles separator, let start := { Input.ofFrame frame roles with separator }
      applyColumns fs base file.columns start = .ok i' ∧
      ∀ t, start.table? = some t →
        ∃ s, file.input.table = some s ∧ buildTable fs base s = .ok t := by
  obtain ⟨separator, _, h⟩ := Fault.ok_of_bind h
  obtain ⟨given, h, htable⟩ : ∃ given,
      (assignRoles file.input { Input.ofFrame frame given with separator } >>=
        applyColumns fs base file.columns) = .ok i' ∧
      ∀ t, (Input.ofFrame frame given).table? = some t →
        ∃ s, file.input.table = some s ∧ buildTable fs base s = .ok t := by
    dsimp only at h
    split at h
    · exact ⟨_, h, fun _ hnone => nomatch hnone⟩
    · split at h
      · exact nomatch h
      · rename_i s hs
        obtain ⟨start, hstart, h⟩ := Fault.ok_of_bind h
        obtain ⟨table, hbuilt, rfl⟩ := Fault.map_eq_ok_iff.mp hstart
        refine ⟨_, h, fun t ht => ⟨s, hs, ?_⟩⟩
        obtain rfl : table = t := Option.some.inj ht
        exact hbuilt
  obtain ⟨i, hroles, h⟩ := Fault.ok_of_bind h
  obtain ⟨roles, rfl, hsame⟩ := onlyRoles_of_assignRoles hroles
  exact ⟨roles, separator, h, fun t ht => htable t (hsame.symm.trans ht)⟩

/-! ## The job -/

theorem input_of_addTable {fs : FileSystem} {base : Path} {j j' : Job}
    {numbered : Nat × TableSection} (h : addTable fs base j numbered = .ok j') :
    j'.input = j.input := by
  obtain ⟨table, _, h⟩ := Fault.ok_of_bind h
  split at h
  · rw [orFault_eq_ok_iff, Job.insertTable] at h
    split at h
    · exact nomatch h
    · rw [← Except.ok.inj h]
  · rw [← Except.ok.inj h]
    rfl

theorem input_of_addTables {fs : FileSystem} {base : Path} {tables : List (Nat × TableSection)}
    {j j' : Job} (h : tables.foldlM (addTable fs base) j = .ok j') : j'.input = j.input :=
  Fault.foldlM_keeps (P := fun k => k.input = j.input)
    (fun _ _ _ _ hinput hadd => (input_of_addTable hadd).trans hinput) rfl h

theorem input_setLogbook (j : Job) (here : Path) (choice : LogbookChoice) :
    (j.setLogbook here choice).input = j.input := by
  cases choice <;> rfl

/-- A job from a job file has the input that the file describes. -/
theorem buildInput_of_build {file : JobFile} {fs : FileSystem} {base : Path} {name : String}
    {frame : Frame} {j : Job} (h : file.build fs base name frame = .ok j) :
    file.buildInput fs base frame = .ok j.input := by
  obtain ⟨input, hinput, h⟩ := Fault.ok_of_bind h
  obtain ⟨built, htables, h⟩ := Fault.ok_of_bind h
  obtain ⟨linked, _, h⟩ := Fault.ok_of_bind h
  rw [← Except.ok.inj h, hinput]
  exact congrArg _ ((input_of_addTables htables).trans (input_setLogbook _ _ _)).symm

theorem exists_load_of_mem {fs : FileSystem} {path : Path} {j : Job}
    (h : j ∈ (load fs path).2.toOption) : ∃ events, load fs path = (events, .ok j) :=
  ⟨_, Prod.ext rfl (ok_of_toOption h)⟩

/-- The input of a job from a job file: the data was read, roles were given, and the columns got
what is said about them. -/
theorem load_inversion {fs : FileSystem} {path : Path} {file : JobFile} {events : List Event}
    {j : Job} (hfile : loadFile fs path = .ok file) (hload : load fs path = (events, .ok j)) :
    ∃ frame roles separator, let start := { Input.ofFrame frame roles with separator }
      file.readData fs (baseOf path) = .ok frame ∧ start.Reachable ∧
      applyColumns fs (baseOf path) file.columns start = .ok j.input ∧
      ∀ t, start.table? = some t →
        ∃ s, file.input.table = some s ∧ buildTable fs (baseOf path) s = .ok t := by
  rw [load, hfile] at hload
  dsimp only at hload
  split at hload
  · exact nomatch hload
  · rename_i frame hread
    obtain ⟨_, _, _, _, _, _, hframe⟩ := readData_inversion hread
    obtain ⟨_, _, _, _, hseries⟩ := Frame.ofDataFile?_inversion hframe
    obtain ⟨roles, separator, happly, htable⟩ :=
      buildInput_inversion (buildInput_of_build (Prod.mk.inj hload).2)
    exact ⟨frame, roles, separator, hread,
      (Input.Reachable.ofFrame roles hseries).other roles separator none none, happly, htable⟩

/-- What a job from a job file starts with: the columns of its data, and what is said about them. -/
theorem applied_of_load {fs : FileSystem} {path : Path} {file : JobFile} {events : List Event}
    {j : Job} (hfile : loadFile fs path = .ok file) (hload : load fs path = (events, .ok j)) :
    ∃ (frame : Frame) (i : Input), i.columns = frame.columns.map Column.ofSeries ∧
      i.metadataPath = none ∧ Applied fs (baseOf path) file.columns i j.input := by
  obtain ⟨frame, _, _, _, hreach, happly, _⟩ := load_inversion hfile hload
  exact ⟨frame, _, rfl, rfl, applied_of_applyColumns (nodup_columns hfile) hreach happly⟩

/-- Rows are made into a tree, which has no file yet. -/
theorem buildHierarchy_rows {fs : FileSystem} {base : Path} {s : ColumnSection}
    {rows : List (List String)} (hrows : s.hierarchy = some rows) {hierarchy : Option Hierarchy}
    (h : buildHierarchy fs base s = .ok hierarchy) :
    hierarchy = some (.tree (.ofTree (.ofRows rows (s.totalCode.getD defaultTotal))
      (s.indent.getD CodeTree.defaultIndent))) := by
  rw [buildHierarchy] at h
  split at h
  · rename_i hnone
    exact absurd (hnone.symm.trans hrows) (by simp)
  · rename_i hnone
    exact absurd (hnone.symm.trans hrows) (by simp)
  · rename_i hnone
    exact absurd (hnone.symm.trans hrows) (by simp)
  · rename_i given _ _ hgiven
    obtain rfl : given = rows := Option.some.inj (hgiven.symm.trans hrows)
    exact (Except.ok.inj h).symm
  · exact nomatch h

/-- **A column that is described by rows has the tree of these rows**, with the total code and the
indent of its section or the usual ones. -/
theorem tree_of_load {fs : FileSystem} {path : Path} {file : JobFile} {events : List Event}
    {j : Job} (hfile : loadFile fs path = .ok file) (hload : load fs path = (events, .ok j))
    {name : String} {s : ColumnSection} (hmem : (name, s) ∈ file.columns)
    {rows : List (List String)} (hrows : s.hierarchy = some rows) :
    ∃ c, j.input.column? name = some c ∧
      c.hierarchy = .tree (.ofTree (.ofRows rows (s.totalCode.getD defaultTotal))
        (s.indent.getD CodeTree.defaultIndent)) := by
  obtain ⟨frame, i, hcolumns, _, happlied⟩ := applied_of_load hfile hload
  obtain ⟨hierarchy, codeList, before, after, hbuilt, hcalled, hbefore, hafter⟩ :=
    happlied.column?_of_mem name s hmem
  obtain rfl := buildHierarchy_rows hrows hbuilt
  obtain ⟨c, hc⟩ := hcalled.contains (by simp [callsOf])
  -- until its section comes, the column is as the data gives it
  have hfresh : c.explicitTotal = false := by
    have hmem := (Input.of_column?_eq_some (hbefore.symm.trans hc)).1
    rw [hcolumns] at hmem
    obtain ⟨series, _, rfl⟩ := List.mem_map.mp hmem
    rfl
  obtain ⟨d, hrun, hd⟩ := hcalled.column?_eq c hc
  refine ⟨d, hafter.trans hd, (hierarchy_of_callsOf hfresh hrun).trans ?_⟩
  cases htotal : s.totalCode with
  | none => rfl
  | some total =>
    -- the tree has this total code already
    have hsame := CodeTree.setTotalCode_totalCode (.ofRows rows total)
    rw [CodeTree.totalCode_ofRows] at hsame
    simp only [Option.map_some, Option.getD_some, Hierarchy.withTotalCode, TreeHierarchy.ofTree,
      hsame]

end Disclosure.JobFile
