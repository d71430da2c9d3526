import Disclosure.Input.Basic
import Disclosure.Proofs.CodeTree.Reachable
import Disclosure.Proofs.Fault
import Disclosure.Proofs.Frame

/-!
# Lengths that are remembered

A column may remember its length, and every change that could make it wrong forgets it. Only a new
total code and what has nothing to do with codes leave it remembered. For trees this is right because
codes are counted below the root: however long the total code is, it does not count.

`Sound` is what all changes keep: the length that is remembered, if one is, is the one that follows
from everything that is known now. An input adds that its columns have different names, as those of
a frame have, and that no change takes the name of a column away.
-/

namespace Disclosure

/-- The tree of a hierarchy, if it has one, is sound. -/
def Hierarchy.Sound (h : Hierarchy) : Prop :=
  ∀ tree, h = .tree tree → tree.tree.Sound

namespace Hierarchy

theorem Sound.withTotalCode {h : Hierarchy} (hs : h.Sound) (total : String) :
    (h.withTotalCode total).Sound := by
  intro tree htree
  cases h with
  | flat _ => exact absurd htree (by simp [Hierarchy.withTotalCode])
  | levels _ => exact absurd htree (by simp [Hierarchy.withTotalCode])
  | tree given =>
    injection htree with htree
    rw [← htree]
    exact (hs given rfl).setTotalCode total

/-- Another total code asks for codes of the same length. -/
theorem Sound.codeLength?_withTotalCode {h : Hierarchy} (hs : h.Sound) (total : String) :
    (h.withTotalCode total).codeLength? = h.codeLength? := by
  cases h with
  | flat _ => rfl
  | levels _ => rfl
  | tree given => exact congrArg some ((hs given rfl).codeLength_setTotalCode total)

end Hierarchy

/-- A tree that is read from a file is what the reader makes of the lines there. -/
theorem TreeHierarchy.load_eq_ok_iff {fs : FileSystem} {path : Path} {indent total : String}
    {h : TreeHierarchy} : load fs path indent total = .ok h ↔
      ∃ content tree, fs.read path = .ok content ∧
        CodeTree.ofIndentedLines (Text.byteLines content) indent total = .ok tree ∧
        h = ⟨tree, indent, some path⟩ := by
  rw [load]
  constructor
  · intro hload
    split at hload
    · exact nomatch hload
    · split at hload
      · exact nomatch hload
      · rename_i content hread
        split at hload
        · exact nomatch hload
        · exact nomatch hload
        · rename_i tree htree
          exact ⟨content, tree, hread, htree, (Except.ok.inj hload).symm⟩
  · rintro ⟨content, tree, hread, htree, rfl⟩
    have hindent : indent ≠ "" := by
      rintro rfl
      exact nomatch htree
    rw [if_neg (by simp [hindent]), hread]
    dsimp only
    rw [htree]

theorem TreeHierarchy.sound_of_load {fs : FileSystem} {path : Path} {indent total : String}
    {h : TreeHierarchy} (hload : load fs path indent total = .ok h) : h.tree.Sound := by
  obtain ⟨content, tree, _, htree, rfl⟩ := load_eq_ok_iff.mp hload
  exact CodeTree.sound_ofIndentedLines htree

namespace Column

/-- A remembered length is the one that follows from everything that is known now. -/
def Measured (c : Column) : Prop :=
  ∀ n, c.resolvedLength = some n → n = c.resolveLength

theorem Measured.length_eq {c : Column} (h : c.Measured) : c.length = c.resolveLength := by
  rw [length]
  cases hr : c.resolvedLength with
  | none => rfl
  | some n => exact h n hr

/-- The column after a change that forgets the length. -/
theorem measured_forgetLength (c : Column) : c.forgetLength.Measured :=
  fun n hn => absurd hn (by simp [forgetLength])

/-- What all changes keep of a column. -/
structure Sound (c : Column) : Prop where
  /-- A tree that groups the codes is sound. -/
  hierarchy : c.hierarchy.Sound
  /-- A length that is remembered is right. -/
  measured : c.Measured

/-- A change to a column, or a question that makes it remember its length. -/
inductive Call where
  | setDecimals (decimals : Nat)
  | setHierarchy (hierarchy : Hierarchy)
  | editHierarchy (edit : Hierarchy → Hierarchy)
  | setTotalCode (total : String)
  | setCodeList (codeList : Option CodeList)
  | editCodeList (edit : CodeList → CodeList)
  | setLength (length : Option Nat)
  | addMissing (marker : String)
  | setMissing (markers : List String)
  | measure

/-- What a call does to a column. -/
def Call.run (c : Column) : Call → Except Fault Column
  | setDecimals decimals => c.setDecimals decimals
  | setHierarchy hierarchy => .ok (c.setHierarchy hierarchy)
  | editHierarchy edit => .ok (c.editHierarchy edit)
  | setTotalCode total => .ok (c.setTotalCode total)
  | setCodeList codeList => .ok (c.setCodeList codeList)
  | editCodeList edit => .ok (c.editCodeList edit)
  | setLength length => .ok (c.setLength length)
  | addMissing marker => .ok (c.addMissing marker)
  | setMissing markers => .ok (c.setMissing markers)
  | measure => .ok c.measure

/-- The hierarchy that a call puts into a column is sound. -/
def Call.PutsSound (c : Column) : Call → Prop
  | setHierarchy hierarchy => hierarchy.Sound
  | editHierarchy edit => (edit c.hierarchy).Sound
  | _ => True

theorem setMissing_eq (c : Column) (markers : List String) :
    ∃ missing, c.setMissing markers = { c with missing } := by
  refine List.foldlRecOn markers addMissing (motive := fun d => ∃ missing, d = { c with missing })
    ⟨[], rfl⟩ ?_
  rintro d ⟨missing, rfl⟩ marker _
  rw [addMissing]
  split
  · exact ⟨missing, rfl⟩
  · exact ⟨missing ++ [marker], rfl⟩

/-- Decimal places and markers have nothing to do with codes. -/
theorem Sound.of_number {c : Column} (h : c.Sound) (decimals : Nat) (missing : List String) :
    Sound { c with decimals, missing } :=
  ⟨h.hierarchy, h.measured⟩

theorem Sound.setTotalCode {c : Column} (h : c.Sound) (total : String) :
    (c.setTotalCode total).Sound := by
  refine ⟨h.hierarchy.withTotalCode total, fun n hn => (h.measured n hn).trans ?_⟩
  rw [resolveLength, resolveLength]
  show _ = (c.explicitLength <|> (c.hierarchy.withTotalCode total).codeLength? <|>
    c.codeList.map CodeList.codeLength <|> c.valueLength).getD _
  rw [h.hierarchy.codeLength?_withTotalCode]
  rfl

theorem Sound.run {c d : Column} {call : Call} (h : c.Sound) (hputs : call.PutsSound c)
    (hrun : call.run c = .ok d) : d.Sound ∧ d.name = c.name := by
  cases call with
  | setDecimals decimals =>
    rw [Call.run, setDecimals] at hrun
    split at hrun
    · injection hrun with hrun
      subst hrun
      exact ⟨h.of_number decimals c.missing, rfl⟩
    · exact absurd hrun (by simp)
  | setHierarchy hierarchy =>
    rw [← Except.ok.inj hrun]
    refine ⟨⟨?_, measured_forgetLength _⟩, rfl⟩
    show (if c.explicitTotal then hierarchy.withTotalCode c.totalCode else hierarchy).Sound
    split
    · exact Hierarchy.Sound.withTotalCode hputs c.totalCode
    · exact hputs
  | editHierarchy edit =>
    rw [← Except.ok.inj hrun]
    exact ⟨⟨hputs, measured_forgetLength _⟩, rfl⟩
  | setTotalCode total =>
    rw [← Except.ok.inj hrun]
    exact ⟨h.setTotalCode total, rfl⟩
  | setCodeList codeList =>
    rw [← Except.ok.inj hrun]
    exact ⟨⟨h.hierarchy, measured_forgetLength _⟩, rfl⟩
  | editCodeList edit =>
    rw [← Except.ok.inj hrun]
    exact ⟨⟨h.hierarchy, measured_forgetLength _⟩, rfl⟩
  | setLength length =>
    rw [← Except.ok.inj hrun]
    exact ⟨⟨h.hierarchy, measured_forgetLength _⟩, rfl⟩
  | addMissing marker =>
    rw [← Except.ok.inj hrun, addMissing]
    split
    · exact ⟨h, rfl⟩
    · exact ⟨h.of_number c.decimals _, rfl⟩
  | setMissing markers =>
    obtain ⟨missing, hmissing⟩ := c.setMissing_eq markers
    rw [← Except.ok.inj hrun, hmissing]
    exact ⟨h.of_number c.decimals missing, rfl⟩
  | measure =>
    rw [← Except.ok.inj hrun]
    refine ⟨⟨h.hierarchy, fun n hn => ?_⟩, rfl⟩
    rw [← Option.some.inj hn]
    exact h.measured.length_eq

/-- No call makes numbers of texts, or texts of numbers. -/
theorem kind_of_run {c d : Column} {call : Call} (hrun : call.run c = .ok d) :
    d.kind = c.kind := by
  cases call with
  | setDecimals decimals =>
    rw [Call.run, setDecimals] at hrun
    split at hrun
    · rw [← Except.ok.inj hrun]
    · exact nomatch hrun
  | addMissing marker =>
    rw [← Except.ok.inj hrun, addMissing]
    split <;> rfl
  | setMissing markers =>
    obtain ⟨missing, hmissing⟩ := c.setMissing_eq markers
    rw [← Except.ok.inj hrun, hmissing]
  | _ =>
    rw [← Except.ok.inj hrun]
    rfl

theorem sound_ofSeries (s : Series) : (ofSeries s).Sound :=
  ⟨fun _ htree => absurd htree (by simp [ofSeries, new]),
    fun _ hn => absurd hn (by simp [ofSeries, new])⟩

end Column

namespace Input

/-- What all changes keep of an input. -/
structure Sound (i : Input) : Prop where
  /-- The columns have different names. -/
  names : (i.columns.map (·.name)).Nodup
  /-- Every column is sound. -/
  columns : ∀ c ∈ i.columns, c.Sound

/-- The inputs that can be made: from a frame, by calls on the columns, and by whatever does not
touch the columns. -/
inductive Reachable : Input → Prop
  | ofFrame {series : List Series} {frame : Frame} (roles : Roles) :
      Frame.ofSeries series = .ok frame → Reachable (.ofFrame frame roles)
  | call {i i' : Input} {name : String} {call : Column.Call} : Reachable i →
      (∀ c ∈ i.column? name, call.PutsSound c) →
      i.updateColumn name (fun c => call.run c) = .ok i' → Reachable i'
  | other {i : Input} (roles : Roles) (separator : UInt8) (dataPath metadataPath : Option Path) :
      Reachable i → Reachable { i with roles, separator, dataPath, metadataPath }

/-- What the changed column has in common with the old one, all columns have in common. -/
theorem map_modifyColumns {α : Type} (view : Column → α) {name : String} {c d : Column}
    (hview : view d = view c) : ∀ {columns : List Column},
      columns.find? (fun column => column.name = name) = some c →
      (modifyColumns name (fun _ => d) columns).map view = columns.map view
  | [], h => absurd h (by simp)
  | first :: rest, h => by
    by_cases hfirst : first.name = name
    · obtain rfl : first = c := by simpa [hfirst] using h
      rw [modifyColumns, if_pos hfirst, List.map_cons, List.map_cons, hview]
    · rw [List.find?_cons_of_neg (by simpa using hfirst)] at h
      rw [modifyColumns, if_neg hfirst, List.map_cons, List.map_cons,
        map_modifyColumns view hview h]

theorem of_mem_modifyColumns {name : String} {d e : Column} : ∀ {columns : List Column},
    e ∈ modifyColumns name (fun _ => d) columns → e = d ∨ e ∈ columns
  | [], h => absurd h (by simp [modifyColumns])
  | c :: rest, h => by
    rw [modifyColumns] at h
    split at h
    · rcases List.mem_cons.mp h with rfl | h
      · exact .inl rfl
      · exact .inr (List.mem_cons_of_mem _ h)
    · rcases List.mem_cons.mp h with rfl | h
      · exact .inr List.mem_cons_self
      · exact (of_mem_modifyColumns h).imp_right (List.mem_cons_of_mem _)

/-- A change to one column: the column was there, and the changed one is in its place. -/
theorem updateColumn_inversion {i i' : Input} {name : String} {f : Column → Except Fault Column}
    (h : i.updateColumn name f = .ok i') : ∃ c d, i.column? name = some c ∧ f c = .ok d ∧
      i' = { i with columns := modifyColumns name (fun _ => d) i.columns } := by
  rw [Input.updateColumn] at h
  cases hc : i.column? name with
  | none =>
    rw [hc] at h
    exact absurd h (by simp)
  | some c =>
    rw [hc] at h
    obtain ⟨d, hd, rfl⟩ := Fault.map_eq_ok_iff.mp h
    exact ⟨c, d, rfl, hd, rfl⟩

theorem of_column?_eq_some {i : Input} {name : String} {c : Column} (h : i.column? name = some c) :
    c ∈ i.columns ∧ c.name = name :=
  ⟨List.mem_of_find?_eq_some h, by simpa using List.find?_some h⟩

theorem Sound.updateColumn {i i' : Input} {name : String} {call : Column.Call} (h : i.Sound)
    (hputs : ∀ c ∈ i.column? name, call.PutsSound c)
    (hrun : i.updateColumn name (fun c => call.run c) = .ok i') : i'.Sound := by
  obtain ⟨c, d, hc, hd, rfl⟩ := updateColumn_inversion hrun
  obtain ⟨hmem, hname⟩ := of_column?_eq_some hc
  obtain ⟨hsound, hsame⟩ := (h.columns c hmem).run (hputs c hc) hd
  refine ⟨?_, fun e he => ?_⟩
  · show ((modifyColumns name (fun _ => d) i.columns).map (·.name)).Nodup
    rw [map_modifyColumns (·.name) hsame hc]
    exact h.names
  · rcases of_mem_modifyColumns he with rfl | he
    · exact hsound
    · exact h.columns e he

/-- **Whatever changes have made an input, its columns have different names and remember no length
that is wrong.** -/
theorem Reachable.sound {i : Input} (h : i.Reachable) : i.Sound := by
  induction h with
  | @ofFrame series frame roles hframe =>
    refine ⟨?_, fun c hc => ?_⟩
    · show ((frame.columns.map Column.ofSeries).map (·.name)).Nodup
      rw [List.map_map]
      exact (Frame.ofSeries_inversion hframe).2.names
    · obtain ⟨s, _, rfl⟩ := List.mem_map.mp hc
      exact Column.sound_ofSeries s
  | call _ hputs hrun ih => exact ih.updateColumn hputs hrun
  | other roles separator dataPath metadataPath _ ih => exact ⟨ih.names, ih.columns⟩

/-! ## The data -/

theorem Reachable.frame_sound {i : Input} (h : i.Reachable) : i.frame.Sound := by
  induction h with
  | ofFrame _ hframe => exact (Frame.ofSeries_inversion hframe).2
  | call _ _ hrun ih =>
    obtain ⟨_, _, _, _, rfl⟩ := updateColumn_inversion hrun
    exact ih
  | other _ _ _ _ _ ih => exact ih

/-- Whatever changes have made an input, its columns are those of the data, with the kinds of the
values there. -/
theorem Reachable.kinds_eq {i : Input} (h : i.Reachable) :
    i.columns.map (fun c => (c.name, c.kind)) =
      i.frame.columns.map fun s => (s.name, .ofValues s.values) := by
  induction h with
  | ofFrame roles _ => exact List.map_map
  | call hreach hputs hrun ih =>
    obtain ⟨c, d, hc, hd, rfl⟩ := updateColumn_inversion hrun
    obtain ⟨hmem, _⟩ := of_column?_eq_some hc
    have hname := ((hreach.sound.columns c hmem).run (hputs c hc) hd).2
    exact (map_modifyColumns (fun c => (c.name, c.kind))
      (Prod.ext hname (Column.kind_of_run hd)) hc).trans ih
  | other _ _ _ _ _ ih => exact ih

theorem Reachable.exists_column?_iff {i : Input} (h : i.Reachable) {name : String} :
    (∃ c, i.column? name = some c) ↔ name ∈ i.frame.names := by
  have hnames : i.columns.map (·.name) = i.frame.names := by
    simpa [Frame.names, Function.comp_def] using congrArg (List.map Prod.fst) h.kinds_eq
  rw [← hnames, ← Option.isSome_iff_exists, column?, List.find?_isSome, List.mem_map]
  simp

/-! ## Calls on one column -/

theorem find?_modifyColumns {name : String} {c d : Column} (hd : d.name = name) (other : String) :
    ∀ {columns : List Column}, columns.find? (fun column => column.name = name) = some c →
      (modifyColumns name (fun _ => d) columns).find? (fun column => column.name = other) =
        if other = name then some d else columns.find? fun column => column.name = other
  | [], h => absurd h (by simp)
  | first :: rest, h => by
    by_cases hfirst : first.name = name
    · rw [modifyColumns, if_pos hfirst, List.find?_cons, List.find?_cons, hd, hfirst]
      by_cases hother : name = other
      · simp [hother]
      · simp [hother, Ne.symm hother]
    · rw [List.find?_cons_of_neg (by simpa using hfirst)] at h
      rw [modifyColumns, if_neg hfirst, List.find?_cons, List.find?_cons,
        find?_modifyColumns hd other h]
      by_cases hother : first.name = other
      · have hne : other ≠ name := fun he => hfirst (hother.trans he)
        simp [hother, hne]
      · simp [hother]

/-- Runs calls on the column with a given name, one after another. -/
def callAll (name : String) (calls : List Column.Call) (i : Input) : Except Fault Input :=
  calls.foldlM (fun i call => i.updateColumn name fun c => call.run c) i

theorem callAll_append (name : String) (calls more : List Column.Call) (i : Input) :
    i.callAll name (calls ++ more) = i.callAll name calls >>= callAll name more :=
  List.foldlM_append

/-- Calls on a column change neither the data nor the table that it forms. -/
theorem data_of_callAll {name : String} {calls : List Column.Call} {i i' : Input}
    (h : i.callAll name calls = .ok i') : i'.frame = i.frame ∧ i'.table? = i.table? := by
  refine Fault.foldlM_keeps (P := fun k => k.frame = i.frame ∧ k.table? = i.table?) ?_ ⟨rfl, rfl⟩ h
  intro call _ k k' hk hrun
  obtain ⟨_, _, _, _, rfl⟩ := updateColumn_inversion hrun
  exact hk

/-- What calls on one column come to. -/
structure Called (name : String) (calls : List Column.Call) (i i' : Input) : Prop where
  /-- The input is still one that can be made. -/
  reachable : i'.Reachable
  /-- No metadata file is given or taken away. -/
  metadataPath_eq : i'.metadataPath = i.metadataPath
  /-- Other columns are as they were. -/
  column?_of_ne : ∀ other, other ≠ name → i'.column? other = i.column? other
  /-- The column, if it is there, is what the calls make of it. -/
  column?_eq : ∀ c, i.column? name = some c →
    ∃ d, calls.foldlM (fun c call => call.run c) c = .ok d ∧ i'.column? name = some d
  /-- Where something is called, the column is there. -/
  contains : calls ≠ [] → ∃ c, i.column? name = some c

/-- Calls that put sound hierarchies into the column, whatever it is. -/
theorem Reachable.callAll {name : String} {calls : List Column.Call} :
    ∀ {i i' : Input}, i.Reachable → (∀ call ∈ calls, ∀ c, call.PutsSound c) →
      i.callAll name calls = .ok i' → Called name calls i i' := by
  induction calls with
  | nil =>
    intro i i' h _ hrun
    cases hrun
    exact ⟨h, rfl, fun _ _ => rfl, fun c hc => ⟨c, rfl, hc⟩, fun hne => absurd rfl hne⟩
  | cons call rest ih =>
    intro i i' h hputs hrun
    obtain ⟨hcall, hrest⟩ := List.forall_mem_cons.mp hputs
    rw [Input.callAll, List.foldlM_cons] at hrun
    obtain ⟨between, hfirst, hlater⟩ := Fault.ok_of_bind hrun
    have hnext := ih (h.call (fun c _ => hcall c) hfirst) hrest hlater
    obtain ⟨c, d, hc, hd, rfl⟩ := updateColumn_inversion hfirst
    obtain ⟨hmem, hname⟩ := of_column?_eq_some hc
    have hsame := ((h.sound.columns c hmem).run (hcall c) hd).2.trans hname
    have hbetween := fun other => find?_modifyColumns hsame other hc
    refine ⟨hnext.reachable, hnext.metadataPath_eq, fun other hne => ?_, fun e he => ?_,
      fun _ => ⟨c, hc⟩⟩
    · rw [hnext.column?_of_ne other hne]
      exact (hbetween other).trans (if_neg hne)
    · obtain rfl : c = e := Option.some.inj (hc.symm.trans he)
      obtain ⟨final, hfinal, hlast⟩ := hnext.column?_eq d ((hbetween name).trans (if_pos rfl))
      refine ⟨final, ?_, hlast⟩
      rw [List.foldlM_cons, hd]
      exact hfinal

end Input

end Disclosure
