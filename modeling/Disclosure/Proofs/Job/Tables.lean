import Disclosure.Job.Basic
import Disclosure.Proofs.Decimal
import Disclosure.Proofs.Fault
import Mathlib.Data.List.Induction
import Mathlib.Data.List.Nodup
import Mathlib.Data.List.Perm.Subperm
import Mathlib.Order.Bounds.Basic

/-!
# Tables are added under names of their own

A table is added under a name that is given, or under a numbered one. Numbered names compete with
given ones that look the same, so the numbers are tried one after another. The numbers to try all
have names of their own, and each try that fails finds another one of the tables there are; so among
one more number than there are tables one is free, and the search ends at the least of them.

`Listed` tells which tables there are after calls, without a job: a table is left out if its name is
taken, and a table without a name gets the least free number beyond the tables there are.
-/

namespace Disclosure.Job

/-! ## Numbers that are free -/

theorem numberedName_inj {n m : Nat} (h : numberedName n = numberedName m) : n = m := by
  have hlists := congrArg String.toList h
  rw [numberedName, numberedName, String.toList_append, String.toList_append] at hlists
  exact toString_nat_inj (String.toList_injective (List.append_cancel_left hlists))

/-- Among one more number than there are names that are taken, one has a free name. -/
theorem exists_free (taken : List String) (n : Nat) :
    ∃ m, n ≤ m ∧ m ≤ n + taken.length ∧ numberedName m ∉ taken := by
  by_contra hnone
  -- these names are all different, so they would be more than those that are taken
  have htaken : (List.range' n (taken.length + 1)).map numberedName ⊆ taken := by
    intro name hname
    obtain ⟨m, hm, rfl⟩ := List.mem_map.mp hname
    rw [List.mem_range'_1] at hm
    by_contra hfree
    exact hnone ⟨m, by omega, by omega, hfree⟩
  have hnodup : ((List.range' n (taken.length + 1)).map numberedName).Nodup :=
    .map (fun _ _ => numberedName_inj) List.nodup_range'
  have hlength := (hnodup.subperm htaken).length_le
  rw [List.length_map, List.length_range'] at hlength
  omega

/-- With enough tries the search ends at the least number whose name is free. -/
theorem freeNumber_isLeast {taken : List String} {fuel n m : Nat} (hn : n ≤ m)
    (hfuel : m ≤ n + fuel) (hfree : numberedName m ∉ taken) :
    IsLeast {k | n ≤ k ∧ numberedName k ∉ taken} (freeNumber taken fuel n) := by
  -- the free number stays in reach: one try less, and it lies one number nearer
  induction fuel generalizing n with
  | zero =>
    obtain rfl : m = n := by omega
    exact ⟨⟨le_refl _, hfree⟩, fun _ hk => hk.1⟩
  | succ fuel ih =>
    rw [freeNumber]
    by_cases htaken : numberedName n ∈ taken
    · rw [if_pos (List.contains_iff_mem.mpr htaken)]
      have hne : ∀ k, numberedName k ∉ taken → n ≠ k := by
        rintro k hk rfl
        exact hk htaken
      obtain ⟨⟨hle, hnext⟩, hleast⟩ :=
        ih (n := n + 1) (by have := hne m hfree; omega) (by omega)
      refine ⟨⟨by omega, hnext⟩, fun k hk => hleast ⟨?_, hk.2⟩⟩
      have hk' : n ≤ k := hk.1
      have := hne k hk.2
      omega
    · rw [if_neg (mt List.contains_iff_mem.mp htaken)]
      exact ⟨⟨le_refl _, htaken⟩, fun _ hk => hk.1⟩

/-! ## Calls -/

/-- A call that adds a table. -/
inductive TableCall where
  | insert (name : String) (table : Table)
  | add (table : Table)

/-- The job after a call. One that fails hands out no job, and then there is the one before. -/
def TableCall.after (j : Job) : TableCall → Job
  | insert name table =>
    match j.insertTable name table with
    | .ok j' => j'
    | .error _ => j
  | add table => (j.addTable table).1

/-- The number of the next table without a name: the least one beyond the tables there are whose
name is free. -/
def NextNumber (ts : List (String × Table)) (n : Nat) : Prop :=
  IsLeast {m | ts.length < m ∧ numberedName m ∉ ts.map (·.1)} n

/-- The tables there are after calls. -/
inductive Listed : List TableCall → List (String × Table) → Prop where
  | nil : Listed [] []
  | inserted {calls ts} (name : String) (table : Table) : Listed calls ts →
      name ∉ ts.map (·.1) → Listed (calls ++ [.insert name table]) (ts ++ [(name, table)])
  | refused {calls ts} (name : String) (table : Table) : Listed calls ts →
      name ∈ ts.map (·.1) → Listed (calls ++ [.insert name table]) ts
  | added {calls ts n} (table : Table) : Listed calls ts →
      NextNumber ts n → Listed (calls ++ [.add table]) (ts ++ [(numberedName n, table)])

variable {start j : Job} {calls : List TableCall} {ts : List (String × Table)}

theorem nodup_names_concat {name : String} (hnodup : (ts.map (·.1)).Nodup)
    (hfree : name ∉ ts.map (·.1)) (table : Table) :
    ((ts ++ [(name, table)]).map (·.1)).Nodup := by
  rw [List.map_append, List.map_singleton]
  exact List.nodup_append_comm.mp (List.nodup_cons.mpr ⟨hfree, hnodup⟩)

/-- Names are never used twice. -/
theorem Listed.nodup (h : Listed calls ts) : (ts.map (·.1)).Nodup := by
  induction h with
  | nil => exact List.nodup_nil
  | inserted name table _ hfree ih => exact nodup_names_concat ih hfree table
  | refused name table _ _ ih => exact ih
  | added table _ hnext ih => exact nodup_names_concat ih hnext.1.2 table

/-! ## What calls do -/

theorem insertTable_eq (j : Job) (name : String) (table : Table) : j.insertTable name table =
    if name ∈ j.ownTables.map (·.1) then .error (.duplicateTable name)
    else .ok { j with ownTables := j.ownTables ++ [(name, table)] } := by
  have htaken : (j.ownTables.any (·.1 = name)) = true ↔ name ∈ j.ownTables.map (·.1) := by
    simp
  rw [insertTable]
  simp only [htaken]

theorem exists_addTable_eq (j : Job) (table : Table) : ∃ n, NextNumber j.ownTables n ∧
    n ≤ 2 * j.ownTables.length + 1 ∧ j.addTable table =
      ({ j with ownTables := j.ownTables ++ [(numberedName n, table)] }, numberedName n) := by
  obtain ⟨m, hm, hfuel, hfree⟩ := exists_free (j.ownTables.map (·.1)) (j.ownTables.length + 1)
  rw [List.length_map] at hfuel
  have hnext := freeNumber_isLeast hm hfuel hfree
  have hle := hnext.2 ⟨hm, hfree⟩
  exact ⟨_, hnext, by omega, rfl⟩

/-- Where names are used once, a table is found by its name. -/
theorem lookup_of_nodup {name : String} {table : Table} (hnodup : (ts.map (·.1)).Nodup)
    (hmem : (name, table) ∈ ts) : ts.lookup name = some table := by
  obtain ⟨before, after, rfl⟩ := List.append_of_mem hmem
  rw [List.map_append, List.map_cons, List.nodup_middle, List.nodup_cons] at hnodup
  refine List.lookup_eq_some_iff.mpr ⟨before, after, rfl, fun other hother => ?_⟩
  have hname : name ∉ before.map (·.1) := fun h => hnodup.1 (List.mem_append_left _ h)
  refine bne_iff_ne.mpr ?_
  rintro rfl
  exact hname (List.mem_map_of_mem hother)

/-- The tables of a job are those that calls have added to it. -/
structure TablesFollow (start : Job) (calls : List TableCall) (j : Job) : Prop where
  listed : Listed calls j.ownTables
  /-- Nothing but the tables changes. -/
  others_eq : { j with ownTables := start.ownTables } = start

/-- What the next call does to a job, and what it says. -/
structure NextCall (j : Job) : Prop where
  insert_error_iff : ∀ name table fault, j.insertTable name table = .error fault ↔
    name ∈ j.ownTables.map (·.1) ∧ fault = .duplicateTable name
  after_insert_of_error : ∀ name table fault, j.insertTable name table = .error fault →
    (TableCall.insert name table).after j = j
  insert_of_free : ∀ name table, name ∉ j.ownTables.map (·.1) →
    j.insertTable name table = .ok { j with ownTables := j.ownTables ++ [(name, table)] }
  /-- A number is found after as many tries as there are tables, and its table is found by it. -/
  add : ∀ table, ∃ n, NextNumber j.ownTables n ∧ n ≤ 2 * j.ownTables.length + 1 ∧
    j.addTable table =
      ({ j with ownTables := j.ownTables ++ [(numberedName n, table)] }, numberedName n) ∧
    (j.addTable table).1.table? (numberedName n) = some table

namespace TablesFollow

theorem after (h : TablesFollow start calls j) (call : TableCall) :
    TablesFollow start (calls ++ [call]) (call.after j) := by
  cases call with
  | insert name table =>
    rw [TableCall.after, insertTable_eq]
    by_cases htaken : name ∈ j.ownTables.map (·.1)
    · rw [if_pos htaken]
      exact ⟨h.listed.refused name table htaken, h.others_eq⟩
    · rw [if_neg htaken]
      exact ⟨h.listed.inserted name table htaken, h.others_eq⟩
  | add table =>
    obtain ⟨n, hnext, -, hadd⟩ := exists_addTable_eq j table
    rw [TableCall.after, hadd]
    exact ⟨h.listed.added table hnext, h.others_eq⟩

theorem foldl (hstart : start.ownTables = []) (calls : List TableCall) :
    TablesFollow start calls (calls.foldl TableCall.after start) := by
  induction calls using List.reverseRecOn with
  | nil => exact ⟨hstart ▸ .nil, rfl⟩
  | append_singleton calls call ih =>
    rw [List.foldl_concat]
    exact ih.after call

theorem tables_eq (hsome : j.ownTables ≠ []) : j.tables = j.ownTables := by
  rw [tables, if_neg]
  simpa using hsome

theorem table?_eq (h : TablesFollow start calls j) {name : String} {table : Table}
    (hmem : (name, table) ∈ j.ownTables) : j.table? name = some table := by
  rw [table?, tables_eq (List.ne_nil_of_mem hmem)]
  exact lookup_of_nodup h.listed.nodup hmem

theorem nextCall (h : TablesFollow start calls j) : NextCall j where
  insert_error_iff name table fault := by
    rw [insertTable_eq]
    split <;> simp_all [eq_comm]
  after_insert_of_error name table fault herror := by
    rw [TableCall.after, herror]
  insert_of_free name table hfree := by
    rw [insertTable_eq, if_neg hfree]
  add table := by
    obtain ⟨n, hnext, hle, hadd⟩ := exists_addTable_eq j table
    -- the names still differ with the new table among them
    have hthen := h.after (.add table)
    rw [TableCall.after, hadd] at hthen
    refine ⟨n, hnext, hle, hadd, ?_⟩
    rw [hadd]
    exact hthen.table?_eq (List.mem_append_right _ (List.mem_singleton_self _))

end TablesFollow

/-- **Tables are added under names of their own.** Whatever calls a new job gets, it has the tables
that were accepted, in the order of the calls and under names that differ, and finds each by its
name. The next table is refused only if its name is taken, and a table without a name gets the least
free number beyond the tables there are. -/
theorem tables_follow_calls (here : Path) (input : Input) (directory : Path) (name : String)
    (calls : List TableCall) :
    let start := Job.new here input directory name
    let j := calls.foldl TableCall.after start
    TablesFollow start calls j ∧ (j.ownTables.map (·.1)).Nodup ∧
      (j.ownTables ≠ [] → j.tables = j.ownTables) ∧
      (∀ t ∈ j.ownTables, j.table? t.1 = some t.2) ∧ NextCall j := by
  intro start j
  have h : TablesFollow start calls j := .foldl rfl calls
  exact ⟨h, h.listed.nodup, TablesFollow.tables_eq, fun _ => h.table?_eq, h.nextCall⟩

end Disclosure.Job
