import Disclosure.Job.Basic
import Disclosure.Proofs.Fault

/-!
# What commands a job comes to

The commands of a job are made in several passes, and any of them may come to a fault. Commands that
were made have been through all of them, and `commands_inversion` says what each pass has given.

Over the tables the passes go by number. A command that such a pass gives is one that it gives for
some table, so what kind of commands it can give is seen from one table alone.
-/

namespace Disclosure.Job

theorem required_ok {α : Type} {fault : Fault} {given : Option α} {a : α}
    (h : required fault given = .ok a) : given = some a := by
  cases given with
  | none => exact absurd h (by simp [required])
  | some b => exact congrArg some (Except.ok.inj h)

/-- The commands of a job, once there are any. -/
theorem commands_inversion {j : Job} {commands : List BatchCommand}
    (h : j.commands = .ok commands) : ∃ data metadata specified changed written,
      j.input.dataPath = some data ∧ j.input.metadataPath = some metadata ∧
      forTables specification 1 j.tables = .ok specified ∧
      forTables protection 1 j.tables = .ok changed ∧
      forTables writing 1 j.tables = .ok written ∧
      commands = [openCommand j.input.kind data, .openMetadata metadata] ++ specified ++
        [readCommand j.input.kind] ++ changed ++ suppressCommands 0 j.linkedSuppression ++
        written ++ (if j.interactive then [.goInteractive] else []) := by
  unfold Job.commands at h
  by_cases htables : j.tables.isEmpty = true
  · rw [if_pos htables] at h
    obtain ⟨_, hthrow, _⟩ := Fault.ok_of_bind h
    exact absurd hthrow (by simp [throw, throwThe, MonadExceptOf.throw])
  · rw [if_neg htables] at h
    obtain ⟨data, hdata, h⟩ := Fault.ok_of_bind h
    obtain ⟨metadata, hmetadata, h⟩ := Fault.ok_of_bind h
    obtain ⟨specified, hspecified, h⟩ := Fault.ok_of_bind h
    obtain ⟨changed, hchanged, h⟩ := Fault.ok_of_bind h
    obtain ⟨written, hwritten, h⟩ := Fault.ok_of_bind h
    exact ⟨data, metadata, specified, changed, written, required_ok hdata, required_ok hmetadata,
      hspecified, hchanged, hwritten, (Except.ok.inj h).symm⟩

/-- A command that was made for tables was made for one of them. -/
theorem of_mem_forTables {commands : Nat → String → Table → Except Fault (List BatchCommand)}
    {c : BatchCommand} : ∀ {number : Nat} {tables : List (String × Table)}
      {made : List BatchCommand}, forTables commands number tables = .ok made → c ∈ made →
      ∃ n name table here, commands n name table = .ok here ∧ c ∈ here
  | _, [], made, h, hc => by
    rw [forTables] at h
    rw [← Except.ok.inj h] at hc
    exact absurd hc (by simp)
  | number, (name, table) :: rest, made, h, hc => by
    rw [forTables] at h
    obtain ⟨here, hhere, h⟩ := Fault.ok_of_bind h
    obtain ⟨after, hafter, h⟩ := Fault.ok_of_bind h
    rw [← Except.ok.inj h] at hc
    rcases List.mem_append.mp hc with hc | hc
    · exact ⟨number, name, table, here, hhere, hc⟩
    · exact of_mem_forTables hafter hc

theorem specification_openMetadata {n : Nat} {name : String} {table : Table} {path : Path}
    {here : List BatchCommand} (h : specification n name table = .ok here) :
    .openMetadata path ∉ here := by
  rw [specification] at h
  split at h
  · exact absurd h (by simp)
  · rw [← Except.ok.inj h]
    simp

theorem recodeCommands_openMetadata {n : Nat} {name : String} {path : Path} :
    ∀ {recodes : List (String × Recode)} {here : List BatchCommand},
      recodeCommands n name recodes = .ok here → .openMetadata path ∉ here
  | [], here, h => by
    rw [recodeCommands] at h
    rw [← Except.ok.inj h]
    simp
  | (column, recode) :: rest, here, h => by
    rw [recodeCommands] at h
    obtain ⟨target, _, h⟩ := Fault.ok_of_bind h
    obtain ⟨after, hafter, h⟩ := Fault.ok_of_bind h
    have hrest : .openMetadata path ∉ after := recodeCommands_openMetadata hafter
    rw [← Except.ok.inj h]
    simpa using hrest

theorem suppressCommands_openMetadata (n : Nat) (suppression : Option Suppression) (path : Path) :
    .openMetadata path ∉ suppressCommands n suppression := by
  cases suppression <;> simp [suppressCommands]

theorem protection_openMetadata {n : Nat} {name : String} {table : Table} {path : Path}
    {here : List BatchCommand} (h : protection n name table = .ok here) :
    .openMetadata path ∉ here := by
  rw [protection] at h
  obtain ⟨changes, hchanges, h⟩ := Fault.ok_of_bind h
  obtain ⟨recodes, hrecodes, h⟩ := Fault.ok_of_bind h
  have hno : .openMetadata path ∉ changes := by
    rw [aprioriCommands] at hchanges
    split at hchanges
    · rw [← Except.ok.inj hchanges]
      simp
    · rename_i o _
      cases hpath : o.path with
      | none => exact absurd hchanges (by simp [hpath, required, Except.map])
      | some p =>
        rw [hpath] at hchanges
        rw [← Except.ok.inj hchanges]
        simp
  have hnone := suppressCommands_openMetadata n table.suppression path
  rw [← Except.ok.inj h]
  simp [hno, recodeCommands_openMetadata hrecodes, hnone]

theorem writing_openMetadata {n : Nat} {name : String} {table : Table} {path : Path}
    {here : List BatchCommand} (h : writing n name table = .ok here) :
    .openMetadata path ∉ here := by
  rw [writing] at h
  cases hpath : table.outputPath with
  | none => exact absurd h (by simp [hpath, required, Except.map])
  | some p =>
    rw [hpath] at h
    rw [← Except.ok.inj h]
    simp

/-- **One command opens the metadata, and it names the place that the job has noted.** -/
theorem openMetadata_mem_iff {j : Job} {commands : List BatchCommand}
    (h : j.commands = .ok commands) (path : Path) :
    .openMetadata path ∈ commands ↔ j.input.metadataPath = some path := by
  obtain ⟨data, metadata, specified, changed, written, _, hmetadata, hspecified, hchanged, hwritten,
    rfl⟩ := commands_inversion h
  -- no pass over the tables gives such a command, so it is the second one of all
  have hno : ∀ {pass : Nat → String → Table → Except Fault (List BatchCommand)}
      {made : List BatchCommand}, forTables pass 1 j.tables = .ok made →
      (∀ {n name table here}, pass n name table = .ok here → .openMetadata path ∉ here) →
      .openMetadata path ∉ made := fun hmade hpass hmem => by
    obtain ⟨n, name, table, here, hhere, hc⟩ := of_mem_forTables hmade hmem
    exact hpass hhere hc
  have hs := hno hspecified specification_openMetadata
  have hc := hno hchanged protection_openMetadata
  have hw := hno hwritten writing_openMetadata
  have hopen : .openMetadata path ≠ openCommand j.input.kind data := by
    cases j.input.kind <;> simp [openCommand]
  have hread : .openMetadata path ≠ readCommand j.input.kind := by
    cases j.input.kind <;> simp [readCommand]
  have hlast : .openMetadata path ∉ (if j.interactive then [BatchCommand.goInteractive] else []) := by
    split <;> simp
  have hlinked := suppressCommands_openMetadata 0 j.linkedSuppression path
  rw [hmetadata, Option.some.injEq]
  simp only [List.mem_append, List.mem_cons, List.not_mem_nil, hopen, hread, hs, hc, hw, hlinked,
    hlast, or_false, false_or, BatchCommand.openMetadata.injEq]
  exact eq_comm

end Disclosure.Job
