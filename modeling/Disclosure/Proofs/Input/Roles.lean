import Disclosure.Proofs.Fault
import Disclosure.Input.Basic

/-!
# Roles follow the calls that give them

Eight calls give columns a role. They are one call with parameters: its columns are looked for, then
the input is asked whether it has the role, and only then is anything stored. `RoleCall.run_eq` says
so of all eight at once.

The roles of an input are looked at through three views: the columns that have a role, the values of
the request, and the markers of statuses. A call that is carried out changes what it names in each
view and nothing else. As no call changes which columns there are or what kind the input is, whether
a call is carried out does not hang on the calls before it, and so the views are told by the last
call of each role that could be carried out.
-/

namespace Disclosure

/-- The columns that have a role. -/
def Roles.columnsOf : Roles → Role → List String
  | .microdata roles, .weight => roles.weight.toList
  | .microdata roles, .request => roles.request.toList
  | .microdata roles, .holding => roles.holding.toList
  | .tableData roles, .frequency => roles.frequency.toList
  | .tableData roles, .topContributors => roles.topContributors
  | .tableData roles, .lowerProtectionLevel => roles.lowerProtectionLevel.toList
  | .tableData roles, .upperProtectionLevel => roles.upperProtectionLevel.toList
  | .tableData roles, .statusIndicator => roles.statusIndicator.toList
  | _, _ => []

/-- The values by which the request is told, in microdata. -/
def Roles.requestValues? : Roles → Option (List String)
  | .microdata roles => some roles.requestValues
  | .tableData _ => none

/-- The markers by which statuses are told, in table data. -/
def Roles.statusMarkers? : Roles → Option (List (String × String))
  | .microdata _ => none
  | .tableData roles => some roles.statusMarkers

/-- A call that gives a role to columns. -/
inductive RoleCall where
  | weight (column : String)
  | request (column : String) (values : List String)
  | holding (column : String)
  | frequency (column : String)
  | topContributors (columns : List String)
  | lowerProtectionLevel (column : String)
  | upperProtectionLevel (column : String)
  | statusIndicator (column : String) (markers : Option (List (String × String)))

/-- The names of the columns of an input. -/
def Input.columnNames (i : Input) : List String :=
  i.columns.map (·.name)

/-- Among names, the first that no column has. -/
def Input.FirstMissing (i : Input) (names : List String) (name : String) : Prop :=
  name ∉ i.columnNames ∧
    ∃ before after, names = before ++ name :: after ∧ ∀ other ∈ before, other ∈ i.columnNames

namespace RoleCall

/-- The role that is given. -/
def role : RoleCall → Role
  | weight _ => .weight
  | request _ _ => .request
  | holding _ => .holding
  | frequency _ => .frequency
  | topContributors _ => .topContributors
  | lowerProtectionLevel _ => .lowerProtectionLevel
  | upperProtectionLevel _ => .upperProtectionLevel
  | statusIndicator _ _ => .statusIndicator

/-- The columns that it is given to. -/
def columns : RoleCall → List String
  | weight column | request column _ | holding column | frequency column
  | lowerProtectionLevel column | upperProtectionLevel column | statusIndicator column _ => [column]
  | topContributors columns => columns

/-- Columns for a role, if it is the one that is given. -/
def columnsFor? (role : Role) (call : RoleCall) : Option (List String) :=
  if call.role = role then some call.columns else none

/-- Values for the request, if the call brings any. -/
def requestValues? : RoleCall → Option (List String)
  | request _ values => if values.isEmpty then none else some values
  | _ => none

/-- Markers of statuses, if the call brings any. -/
def statusMarkers? : RoleCall → Option (List (String × String))
  | statusIndicator _ markers => markers
  | _ => none

/-- What a call makes of an input. -/
def run (i : Input) : RoleCall → Except Fault Input
  | weight column => i.setWeight column
  | request column values => i.setRequest column values
  | holding column => i.setHolding column
  | frequency column => i.setFrequency column
  | topContributors columns => i.setTopContributors columns
  | lowerProtectionLevel column => i.setLowerProtectionLevel column
  | upperProtectionLevel column => i.setUpperProtectionLevel column
  | statusIndicator column markers => i.setStatusIndicator column markers

/-- The input after a call. One that fails hands out no input, and then there is the one before. -/
def after (i : Input) (call : RoleCall) : Input :=
  match call.run i with
  | .ok i' => i'
  | .error _ => i

/-- All columns of the call are there, and the input has the role. -/
def Fits (i : Input) (call : RoleCall) : Prop :=
  (∀ name ∈ call.columns, name ∈ i.columnNames) ∧ call.role.inputKind = i.kind

instance (i : Input) (call : RoleCall) : Decidable (call.Fits i) :=
  inferInstanceAs (Decidable (_ ∧ _))

/-- When a call fails, and what it says then: the first column that is not there counts, and only if
there is none the kind of the input. -/
def FailsWith (i : Input) (call : RoleCall) (fault : Fault) : Prop :=
  (∃ name, i.FirstMissing call.columns name ∧ fault = .unknownColumn name) ∨
  ((∀ name ∈ call.columns, name ∈ i.columnNames) ∧ call.role.inputKind ≠ i.kind ∧
    fault = .roleNotSupported call.role i.kind)

/-- The roles after a call that is carried out. -/
def give (call : RoleCall) (roles : Roles) : Roles :=
  match call, roles with
  | weight column, .microdata roles => .microdata { roles with weight := column }
  | request column values, .microdata roles =>
    .microdata { roles with
      request := column
      requestValues := if values.isEmpty then roles.requestValues else values }
  | holding column, .microdata roles => .microdata { roles with holding := column }
  | frequency column, .tableData roles => .tableData { roles with frequency := column }
  | topContributors columns, .tableData roles =>
    .tableData { roles with topContributors := columns }
  | lowerProtectionLevel column, .tableData roles =>
    .tableData { roles with lowerProtectionLevel := column }
  | upperProtectionLevel column, .tableData roles =>
    .tableData { roles with upperProtectionLevel := column }
  | statusIndicator column markers, .tableData roles =>
    .tableData { roles with
      statusIndicator := column
      statusMarkers := markers.getD roles.statusMarkers }
  | _, roles => roles

end RoleCall

variable {start i i' : Input} {call : RoleCall} {calls : List RoleCall}

/-! ## Looking for columns -/

theorem Input.contains_iff {name : String} : i.contains name = true ↔ name ∈ i.columnNames := by
  rw [contains, column?, List.find?_isSome, columnNames, List.mem_map]
  simp

theorem Input.requireAll_eq (i : Input) (names : List String) : i.requireAll names =
    match names.find? fun name => !i.contains name with
    | none => .ok ()
    | some name => .error (.unknownColumn name) := by
  induction names with
  | nil => rfl
  | cons name rest ih =>
    rw [requireAll, List.find?_cons, ih]
    cases i.contains name <;> rfl

theorem Input.requireAll_eq_ok_iff {names : List String} :
    i.requireAll names = .ok () ↔ ∀ name ∈ names, name ∈ i.columnNames := by
  have hnone : (∀ name ∈ names, name ∈ i.columnNames) ↔
      names.find? (fun name => !i.contains name) = none := by
    simp [← contains_iff]
  rw [hnone, requireAll_eq]
  cases names.find? fun name => !i.contains name <;> simp

/-- The first column that is not there is told. -/
theorem Input.requireAll_eq_error_iff {names : List String} {fault : Fault} :
    i.requireAll names = .error fault ↔
      ∃ name, i.FirstMissing names name ∧ fault = .unknownColumn name := by
  have hfirst : ∀ name, i.FirstMissing names name ↔
      names.find? (fun name => !i.contains name) = some name := by
    intro name
    rw [List.find?_eq_some_iff_append]
    simp [FirstMissing, ← contains_iff]
  simp only [hfirst, requireAll_eq]
  cases names.find? fun name => !i.contains name <;> simp [eq_comm]

namespace RoleCall

/-! ## One call -/

/-- Columns first, then the kind of the input, and only then a role is given. -/
theorem run_eq (call : RoleCall) (i : Input) : call.run i =
    i.requireAll call.columns >>= fun _ =>
      if call.role.inputKind = i.kind then .ok { i with roles := call.give i.roles }
      else .error (.roleNotSupported call.role i.kind) := by
  -- every setter is written like this, so only the kind of the input is left to look at
  obtain ⟨frame, columns, roles, separator, dataPath, metadataPath⟩ := i
  cases call <;> cases roles <;> rfl

theorem run_eq_ok_iff (call : RoleCall) (i i' : Input) :
    call.run i = .ok i' ↔ call.Fits i ∧ { i with roles := call.give i.roles } = i' := by
  rw [run_eq, Fault.bind_eq_ok_iff, Fits]
  constructor
  · rintro ⟨_, hall, hok⟩
    split at hok
    · rename_i hkind
      exact ⟨⟨Input.requireAll_eq_ok_iff.mp hall, hkind⟩, Except.ok.inj hok⟩
    · exact nomatch hok
  · rintro ⟨⟨hall, hkind⟩, rfl⟩
    exact ⟨(), Input.requireAll_eq_ok_iff.mpr hall, if_pos hkind⟩

theorem run_eq_error_iff (call : RoleCall) (i : Input) (fault : Fault) :
    call.run i = .error fault ↔ call.FailsWith i fault := by
  rw [run_eq, Fault.bind_eq_error_iff, Input.requireAll_eq_error_iff, FailsWith]
  refine or_congr_right ?_
  constructor
  · rintro ⟨_, hall, hfault⟩
    split at hfault
    · exact nomatch hfault
    · rename_i hkind
      exact ⟨Input.requireAll_eq_ok_iff.mp hall, hkind, (Except.error.inj hfault).symm⟩
  · rintro ⟨hall, hkind, rfl⟩
    exact ⟨(), Input.requireAll_eq_ok_iff.mpr hall, if_neg hkind⟩

theorem after_of_ok (h : call.run i = .ok i') : call.after i = i' := by
  rw [after, h]

theorem after_of_fails {fault : Fault} (h : call.run i = .error fault) : call.after i = i := by
  rw [after, h]

theorem after_of_fits (h : call.Fits i) : call.after i = { i with roles := call.give i.roles } :=
  after_of_ok ((call.run_eq_ok_iff i _).mpr ⟨h, rfl⟩)

theorem after_of_not_fits (h : ¬ call.Fits i) : call.after i = i := by
  cases hrun : call.run i with
  | error fault => exact after_of_fails hrun
  | ok i' => exact absurd ((call.run_eq_ok_iff i i').mp hrun).1 h

/-- A call that has all its columns and its kind of input is carried out, and no other call is. -/
theorem run_eq_ok_after_iff (call : RoleCall) (i : Input) :
    call.run i = .ok (call.after i) ↔ call.Fits i := by
  constructor
  · intro h
    exact ((call.run_eq_ok_iff i _).mp h).1
  · intro h
    exact (call.run_eq_ok_iff i _).mpr ⟨h, (after_of_fits h).symm⟩

/-! ## What a call gives -/

variable {roles : Roles}

theorem kind_give (call : RoleCall) (roles : Roles) : (call.give roles).kind = roles.kind := by
  cases call <;> cases roles <;> rfl

/-- The role goes to the columns of the call, and no other role changes. -/
theorem columnsOf_give (h : call.role.inputKind = roles.kind) (role : Role) :
    (call.give roles).columnsOf role = (call.columnsFor? role).getD (roles.columnsOf role) := by
  rw [columnsFor?]
  split
  · rename_i hrole
    subst hrole
    cases call <;> cases roles <;> first | rfl | exact nomatch h
  · rename_i hrole
    cases call <;> cases roles <;> cases role <;> first | rfl | exact absurd rfl hrole

theorem requestValues?_give (call : RoleCall) (roles : Roles) :
    (call.give roles).requestValues? =
      roles.requestValues?.map call.requestValues?.getD := by
  cases call with
  | request column values =>
    cases roles with
    | microdata roles => cases values <;> rfl
    | tableData _ => rfl
  | _ => cases roles <;> rfl

theorem statusMarkers?_give (call : RoleCall) (roles : Roles) :
    (call.give roles).statusMarkers? =
      roles.statusMarkers?.map call.statusMarkers?.getD := by
  cases call <;> cases roles <;> rfl

end RoleCall

/-! ## Any number of calls -/

/-- Two inputs have the same columns, and the same roles, values and markers. -/
structure Input.SameRoles (i i' : Input) : Prop where
  columnNames_eq : i'.columnNames = i.columnNames
  kind_eq : i'.kind = i.kind
  columnsOf_eq : ∀ role, i'.roles.columnsOf role = i.roles.columnsOf role
  requestValues?_eq : i'.roles.requestValues? = i.roles.requestValues?
  statusMarkers?_eq : i'.roles.statusMarkers? = i.roles.statusMarkers?

/-- The inputs that calls lead to, with all calls since the input was new. Between two calls
anything may be done that is not about roles, such as grouping the codes of a column, changing the
table that the input forms, or saving the data. -/
inductive Assigned : Input → List RoleCall → Input → Prop where
  | microdata (frame : Frame) : Assigned (.microdata frame) [] (.microdata frame)
  | tableData (frame : Frame) (table : Table) :
      Assigned (.tableData frame table) [] (.tableData frame table)
  | call {start i : Input} {calls : List RoleCall} (call : RoleCall) : Assigned start calls i →
      Assigned start (calls ++ [call]) (call.after i)
  | other {start i i' : Input} {calls : List RoleCall} : Assigned start calls i →
      i.SameRoles i' → Assigned start calls i'

/-- The calls that can be carried out on an input. -/
def Input.accepted (i : Input) (calls : List RoleCall) : List RoleCall :=
  calls.filter fun call => call.Fits i

/-- What the last call brings that brings any. -/
def lastBrought {α : Type} (bring? : RoleCall → Option α) (calls : List RoleCall) : Option α :=
  (calls.filterMap bring?).getLast?

/-- Roles, values and markers are those of the last call that could be carried out and brought
some. -/
structure RolesFollow (start : Input) (calls : List RoleCall) (i : Input) : Prop where
  columnNames_eq : i.columnNames = start.columnNames
  kind_eq : i.kind = start.kind
  columnsOf_eq : ∀ role, i.roles.columnsOf role =
    (lastBrought (RoleCall.columnsFor? role) (start.accepted calls)).getD []
  requestValues?_eq : i.roles.requestValues? = start.roles.requestValues?.map
    (lastBrought RoleCall.requestValues? (start.accepted calls)).getD
  statusMarkers?_eq : i.roles.statusMarkers? = start.roles.statusMarkers?.map
    (lastBrought RoleCall.statusMarkers? (start.accepted calls)).getD

/-- A role that columns have is one of the input, and they are columns of the input. -/
structure RolesSound (i : Input) : Prop where
  exists_column : ∀ role, ∀ name ∈ i.roles.columnsOf role, name ∈ i.columnNames
  inputKind_eq : ∀ role, i.roles.columnsOf role ≠ [] → role.inputKind = i.kind

theorem lastBrought_concat {α : Type} (bring? : RoleCall → Option α) (calls : List RoleCall)
    (call : RoleCall) : lastBrought bring? (calls ++ [call]) =
      (bring? call).or (lastBrought bring? calls) := by
  rw [lastBrought, List.filterMap_append, List.getLast?_append, lastBrought]
  cases hcall : bring? call <;> simp [hcall]

theorem map_getD_getD {α : Type} (old before last : Option α) :
    (old.map before.getD).map last.getD = old.map (last.or before).getD := by
  cases old <;> simp [Option.getD_or]

/-- Whether a call can be carried out hangs on the columns and on the kind of the input alone. -/
theorem RoleCall.fits_congr (hnames : i'.columnNames = i.columnNames) (hkind : i'.kind = i.kind) :
    call.Fits i' ↔ call.Fits i := by
  rw [Fits, Fits, hnames, hkind]

theorem rolesFollow_microdata (frame : Frame) :
    RolesFollow (.microdata frame) [] (.microdata frame) where
  columnNames_eq := rfl
  kind_eq := rfl
  columnsOf_eq role := by cases role <;> rfl
  requestValues?_eq := rfl
  statusMarkers?_eq := rfl

theorem rolesFollow_tableData (frame : Frame) (table : Table) :
    RolesFollow (.tableData frame table) [] (.tableData frame table) where
  columnNames_eq := rfl
  kind_eq := rfl
  columnsOf_eq role := by cases role <;> rfl
  requestValues?_eq := rfl
  statusMarkers?_eq := rfl

namespace RolesFollow

/-- A call that cannot be carried out leaves no trace, and any other is the last of its role. -/
theorem after (h : RolesFollow start calls i) (call : RoleCall) :
    RolesFollow start (calls ++ [call]) (call.after i) := by
  -- no call before this one has made a difference to whether it can be carried out
  have hsame : call.Fits i ↔ call.Fits start := RoleCall.fits_congr h.columnNames_eq h.kind_eq
  by_cases hfits : call.Fits start
  · have haccepted : start.accepted (calls ++ [call]) = start.accepted calls ++ [call] := by
      simp [Input.accepted, hfits]
    have hi : call.Fits i := hsame.mpr hfits
    rw [RoleCall.after_of_fits hi]
    exact
      { columnNames_eq := h.columnNames_eq
        kind_eq := (call.kind_give i.roles).trans h.kind_eq
        columnsOf_eq := fun role => by
          rw [haccepted, lastBrought_concat, Option.getD_or, ← h.columnsOf_eq]
          exact RoleCall.columnsOf_give hi.2 role
        requestValues?_eq := by
          rw [haccepted, lastBrought_concat, ← map_getD_getD, ← h.requestValues?_eq]
          exact RoleCall.requestValues?_give call i.roles
        statusMarkers?_eq := by
          rw [haccepted, lastBrought_concat, ← map_getD_getD, ← h.statusMarkers?_eq]
          exact RoleCall.statusMarkers?_give call i.roles }
  · have haccepted : start.accepted (calls ++ [call]) = start.accepted calls := by
      simp [Input.accepted, hfits]
    rw [RoleCall.after_of_not_fits fun hi => hfits (hsame.mp hi)]
    exact
      { h with
        columnsOf_eq := haccepted ▸ h.columnsOf_eq
        requestValues?_eq := haccepted ▸ h.requestValues?_eq
        statusMarkers?_eq := haccepted ▸ h.statusMarkers?_eq }

theorem of_sameRoles (h : RolesFollow start calls i) (hsame : i.SameRoles i') :
    RolesFollow start calls i' where
  columnNames_eq := hsame.columnNames_eq.trans h.columnNames_eq
  kind_eq := hsame.kind_eq.trans h.kind_eq
  columnsOf_eq role := (hsame.columnsOf_eq role).trans (h.columnsOf_eq role)
  requestValues?_eq := hsame.requestValues?_eq.trans h.requestValues?_eq
  statusMarkers?_eq := hsame.statusMarkers?_eq.trans h.statusMarkers?_eq

/-- Columns that have a role were brought by a call that could be carried out. -/
theorem sound (h : RolesFollow start calls i) : RolesSound i := by
  have hbrought : ∀ role name, name ∈ i.roles.columnsOf role →
      ∃ call : RoleCall, call.Fits i ∧ call.role = role ∧ name ∈ call.columns := by
    intro role name hname
    rw [h.columnsOf_eq] at hname
    cases hlast : lastBrought (RoleCall.columnsFor? role) (start.accepted calls) with
    | none => exact absurd hname (by simp [hlast])
    | some columns =>
      rw [hlast, Option.getD_some] at hname
      obtain ⟨call, hcall, hcolumns⟩ := List.mem_filterMap.mp (List.mem_of_getLast? hlast)
      obtain ⟨-, hfits⟩ := List.mem_filter.mp hcall
      obtain ⟨hrole, hsome⟩ := Option.ite_none_right_eq_some.mp hcolumns
      obtain rfl := Option.some.inj hsome
      exact ⟨call, (RoleCall.fits_congr h.columnNames_eq h.kind_eq).mpr (of_decide_eq_true hfits),
        hrole, hname⟩
  constructor
  · intro role name hname
    obtain ⟨call, hfits, -, hcolumn⟩ := hbrought role name hname
    exact hfits.1 name hcolumn
  · intro role hsome
    obtain ⟨name, hname⟩ := List.exists_mem_of_ne_nil _ hsome
    obtain ⟨call, hfits, rfl, -⟩ := hbrought role name hname
    exact hfits.2

end RolesFollow

theorem Assigned.rolesFollow (h : Assigned start calls i) : RolesFollow start calls i := by
  induction h with
  | microdata frame => exact rolesFollow_microdata frame
  | tableData frame table => exact rolesFollow_tableData frame table
  | call call _ ih => exact ih.after call
  | other _ hsame ih => exact ih.of_sameRoles hsame

/-- **Roles follow the calls that give them.** After any calls, roles belong to the input and go to
columns that it has, and they are those of the calls that could be carried out. The next call is
carried out if all its columns are there and the input has the role. If not, it fails by the first
column that is not there or else by the kind of the input, and everything is left as it was. -/
theorem Assigned.roles_follow_calls (h : Assigned start calls i) :
    RolesSound i ∧ RolesFollow start calls i ∧
      ∀ call : RoleCall,
        (call.run i = .ok (call.after i) ↔ call.Fits i) ∧
        (∀ fault, call.run i = .error fault ↔ call.FailsWith i fault) ∧
        ∀ fault, call.run i = .error fault → call.after i = i :=
  ⟨h.rolesFollow.sound, h.rolesFollow, fun call =>
    ⟨call.run_eq_ok_after_iff i, call.run_eq_error_iff i, fun _ => RoleCall.after_of_fails⟩⟩

/-- Cells of a table, as an input of its own. -/
def regionCells : Input :=
  .tableData
    ⟨[⟨"region", .text [some "A", some "B"]⟩, ⟨"largest", .text [some "8", some "5"]⟩,
      ⟨"second", .text [some "3", some "5"]⟩, ⟨"status", .text [some "s", some "u"]⟩]⟩
    (.new ["region"] .frequency)

/-- Good calls and bad ones; the second fails at its last column. -/
def regionCalls : List RoleCall :=
  [.topContributors ["largest", "second"], .topContributors ["second", "third"], .weight "largest",
    .statusIndicator "status" (some [("SAFE", "s"), ("UNSAFE", "u")]),
    .statusIndicator "state" (some [])]

theorem regionCells_roles_follow_calls :
    let i := regionCalls.foldl RoleCall.after regionCells
    Assigned regionCells regionCalls i ∧ RolesSound i ∧
      i.roles.columnsOf .topContributors = ["largest", "second"] ∧
      i.roles.statusMarkers? = some [("SAFE", "s"), ("UNSAFE", "u")] ∧
      RoleCall.run i (.topContributors ["second", "third", "region"]) =
        .error (.unknownColumn "third") ∧
      RoleCall.run i (.weight "largest") = .error (.roleNotSupported .weight .tableData) := by
  intro i
  have hnew : Assigned regionCells [] regionCells := .tableData _ _
  have hcalled : Assigned regionCells regionCalls i :=
    ((((hnew.call _).call _).call _).call _).call _
  obtain ⟨hsound, hfollow, hnext⟩ := hcalled.roles_follow_calls
  refine ⟨hcalled, hsound, ?_, ?_, ?_, ?_⟩
  · rw [hfollow.columnsOf_eq]
    decide
  · rw [hfollow.statusMarkers?_eq]
    decide
  · refine ((hnext _).2.1 _).mpr (.inl ⟨"third", ?_, rfl⟩)
    exact ⟨by decide, ["second"], ["region"], rfl, by decide⟩
  · exact ((hnext _).2.1 _).mpr (.inr ⟨by decide, by decide, rfl⟩)

end Disclosure
