import Disclosure.CodeTree.Indented
import Disclosure.CodeTree.Relations
import Disclosure.CodeTree.Rows
import Disclosure.Proofs.CodeTree.Growing
import Disclosure.Proofs.Fault
import Mathlib.Order.Bounds.Basic

/-!
# Trees that calls can make

A tree is **reachable** when it starts out empty, or from rows, pairs or indented lines, and is then
changed by any number of calls, at any node that was ever handed out. A call may fail, and then the
tree is what it was. The part that a call detaches is a tree of its own and is reachable too.

Every reachable tree is sound: it starts sound, and each call keeps it so. `Reachable.consistent`
says what this comes to for someone who uses the tree.
-/

namespace Disclosure.CodeTree

variable {t u : CodeTree} {code : String}

/-! ## How each call ends -/

theorem create_cases (t : CodeTree) (path : List String) :
    (∃ rest, path = t.totalCode :: rest ∧
      t.create path = .error (.rootCodeInPath t.totalCode)) ∨
    (∀ rest, path ≠ t.totalCode :: rest) ∧ t.create path = .ok (t.createUnder root path) := by
  cases path with
  | nil => exact .inr ⟨by simp, rfl⟩
  | cons code rest =>
    by_cases hcode : code = t.totalCode
    · subst hcode
      exact .inl ⟨rest, rfl, by simp [create]⟩
    · refine .inr ⟨?_, by simp [create, hcode]⟩
      intro other hpath
      exact hcode (List.cons.inj hpath).1

theorem Linked.rename_cases (h : t.Linked) (id : Nat) (code : String) :
    (∃ p, t.parent? id = some p ∧ (∃ c ∈ t.children p, c ≠ id ∧ t.code c = code) ∧
      t.rename id code = .error (.duplicateChild (t.code p) code)) ∨
    (∀ p, t.parent? id = some p → ∀ c ∈ t.children p, t.code c = code → c = id) ∧
      t.rename id code = .ok (t.setCode id code) := by
  cases hp : t.parent? id with
  | none => exact .inr ⟨by simp, by rw [rename, hp]⟩
  | some p =>
    cases hchild : t.child? p code with
    | none =>
      refine .inr ⟨?_, by simp only [rename, hp, hchild]⟩
      intro q hq c hc hcode
      rw [← Option.some.inj hq] at hc
      exact absurd (hcode ▸ List.mem_map_of_mem hc) (child?_eq_none_iff.mp hchild)
    | some other =>
      obtain ⟨hother, hcode⟩ := of_child?_eq_some hchild
      by_cases hid : other = id
      · refine .inr ⟨?_, by simp only [rename, hp, hchild, if_pos hid]⟩
        intro q hq c hc hsame
        rw [← Option.some.inj hq] at hc
        have hfound := h.child?_eq_some_iff.mpr ⟨hc, hsame⟩
        rw [← hid]
        exact Option.some.inj (hfound.symm.trans hchild)
      · refine .inl ⟨p, rfl, ⟨other, hother, hid, hcode⟩, ?_⟩
        simp only [rename, hp, hchild, if_neg hid]

theorem detach_cases (t : CodeTree) (id : Nat) :
    (t.parent? id = none ∧ t.detach id = .error .detachRoot) ∨
    ∃ p, t.parent? id = some p ∧ t.detach id = .ok (t.unlink p id, t.copyOf id) := by
  cases hp : t.parent? id with
  | none => exact .inl ⟨rfl, by rw [detach, hp]⟩
  | some p => exact .inr ⟨p, rfl, by rw [detach, hp]⟩

theorem append_cases (t : CodeTree) (id : Nat) (part : CodeTree) :
    (part.totalCode ∈ (t.children id).map t.code ∧
      t.append id part = .error (.duplicateChild (t.code id) part.totalCode)) ∨
    part.totalCode ∉ (t.children id).map t.code ∧
      t.append id part =
        .ok ((t.pushChild id part.totalCode).1.graft t.nodes.size part.content, t.nodes.size) := by
  cases hchild : t.child? id part.totalCode with
  | none => exact .inr ⟨child?_eq_none_iff.mp hchild, by rw [append, hchild]; rfl⟩
  | some other =>
    obtain ⟨hother, hcode⟩ := of_child?_eq_some hchild
    exact .inl ⟨hcode ▸ List.mem_map_of_mem hother, by rw [append, hchild]⟩

/-! ## Calls -/

/-- The calls that change a tree, and the one that makes it remember the length of its codes. -/
inductive Call where
  | create (path : List String)
  | createUnder (id : Nat) (path : List String)
  | rename (id : Nat) (code : String)
  | setTotalCode (code : String)
  | detach (id : Nat)
  | append (id : Nat) (part : CodeTree)
  | measure

namespace Call

/-- The tree that a call leaves when it does not fail. -/
def run (t : CodeTree) : Call → Except Fault CodeTree
  | create path => (t.create path).map (·.1)
  | createUnder id path => .ok (t.createUnder id path).1
  | rename id code => t.rename id code
  | setTotalCode code => .ok (t.setTotalCode code)
  | detach id => (t.detach id).map (·.1)
  | append id part => (t.append id part).map (·.1)
  | measure => .ok t.measure

/-- The tree after a call. One that fails hands out no tree, and then there is the one before. -/
def after (t : CodeTree) (call : Call) : CodeTree :=
  match call.run t with
  | .ok t' => t'
  | .error _ => t

/-- The node that a call names. -/
def node? : Call → Option Nat
  | createUnder id _ | rename id _ | detach id | append id _ => some id
  | create _ | setTotalCode _ | measure => none

/-- The tree that a call takes a copy of. -/
def part? : Call → Option CodeTree
  | append _ part => some part
  | _ => none

/-- When a call fails, and what it says then. -/
def FailsWith (t : CodeTree) : Call → Fault → Prop
  | create path, fault => ∃ rest, path = t.totalCode :: rest ∧ fault = .rootCodeInPath t.totalCode
  | rename id code, fault => ∃ p, t.parent? id = some p ∧
      (∃ c ∈ t.children p, c ≠ id ∧ t.code c = code) ∧ fault = .duplicateChild (t.code p) code
  | detach id, fault => t.parent? id = none ∧ fault = .detachRoot
  | append id part, fault => part.totalCode ∈ (t.children id).map t.code ∧
      fault = .duplicateChild (t.code id) part.totalCode
  | createUnder .., _ | setTotalCode _, _ | measure, _ => False

theorem run_eq_error_iff (h : t.Linked) (call : Call) (fault : Fault) :
    call.run t = .error fault ↔ call.FailsWith t fault := by
  cases call with
  | create path =>
    rcases t.create_cases path with ⟨rest, rfl, hrun⟩ | ⟨hpath, hrun⟩
    · simp [run, FailsWith, hrun, Except.map, eq_comm]
    · simp [run, FailsWith, hrun, Except.map, hpath]
  | createUnder id path => simp [run, FailsWith]
  | rename id code =>
    rcases h.rename_cases id code with ⟨p, hp, hother, hrun⟩ | ⟨hfree, hrun⟩
    · simp only [run, FailsWith, hrun, hp, Except.error.injEq, Option.some.injEq]
      constructor
      · rintro rfl
        exact ⟨p, rfl, hother, rfl⟩
      · rintro ⟨_, rfl, _, rfl⟩
        rfl
    · simp only [run, FailsWith, hrun, reduceCtorEq, false_iff]
      rintro ⟨p, hp, ⟨c, hc, hne, hcode⟩, _⟩
      exact hne (hfree p hp c hc hcode)
  | setTotalCode code => simp [run, FailsWith]
  | detach id =>
    rcases t.detach_cases id with ⟨hp, hrun⟩ | ⟨p, hp, hrun⟩
    · simp [run, FailsWith, hrun, Except.map, hp, eq_comm]
    · simp [run, FailsWith, hrun, Except.map, hp]
  | append id part =>
    rcases t.append_cases id part with ⟨htaken, hrun⟩ | ⟨hfree, hrun⟩
    · simp only [run, FailsWith, hrun, Except.map, htaken, Except.error.injEq, true_and]
      exact eq_comm
    · simp only [run, FailsWith, hrun, Except.map, hfree, reduceCtorEq, false_and]
  | measure => simp [run, FailsWith]

theorem after_of_fails {call : Call} {fault : Fault} (h : call.run t = .error fault) :
    call.after t = t := by
  rw [after, h]

end Call

/-! ## Calls keep a tree sound -/

/-- A copy of what is below a node is a tree with just that. -/
theorem Linked.grafted_copyOf (h : t.Linked) (id : Nat) :
    Grafted (new (t.code id)) root (t.codesBelow id) (t.copyOf id) :=
  grafted_graft (sound_new _) Nat.zero_lt_one (h.distinct_codesBelow id) (by simp)

theorem Linked.totalCode_copyOf (h : t.Linked) (id : Nat) : (t.copyOf id).totalCode = t.code id :=
  (h.grafted_copyOf id).grows.code_eq root Nat.zero_lt_one

theorem Linked.content_copyOf (h : t.Linked) (id : Nat) :
    (t.copyOf id).content = t.codesBelow id := by
  have hnone : (new (t.code id)).codesBelow root = .nil := by
    rw [(linked_new _).codesBelow_eq, children_new]
    rfl
  rw [content, (h.grafted_copyOf id).codesBelow_eq, hnone]
  rfl

/-- A copy of the whole tree is the same tree. -/
theorem Linked.same_copyOf (h : t.Linked) : (t.copyOf root).same t = true := by
  have htotal : (t.copyOf root).totalCode = t.totalCode := h.totalCode_copyOf root
  have hcontent : (t.copyOf root).content = t.content := h.content_copyOf root
  simp [same, htotal, hcontent]

theorem Linked.appended_tree (h : t.Linked) {id : Nat} (hid : id < t.nodes.size)
    {part : CodeTree} (hpart : part.Linked)
    (hfree : part.totalCode ∉ (t.children id).map t.code) :
    Appended t id part.totalCode part.content
      ((t.pushChild id part.totalCode).1.graft t.nodes.size part.content) :=
  h.appended_graft hid hfree (hpart.distinct_codesBelow root)

theorem Sound.run (h : t.Sound) {call : Call} (hid : ∀ id ∈ call.node?, id < t.nodes.size)
    (hpart : ∀ part ∈ call.part?, part.Linked) (hrun : call.run t = .ok u) : u.Sound := by
  cases call with
  | create path =>
    rcases t.create_cases path with ⟨_, _, hcreate⟩ | ⟨_, hcreate⟩
    · simp [Call.run, hcreate, Except.map] at hrun
    · rw [Call.run, hcreate] at hrun
      rw [← Except.ok.inj hrun]
      exact (h.createUnder h.hasRoot path).1
  | createUnder id path =>
    rw [← Except.ok.inj hrun]
    exact (h.createUnder (hid id rfl) path).1
  | rename id code =>
    rcases h.rename_cases id code with ⟨_, _, _, hrename⟩ | ⟨hfree, hrename⟩
    · simp [Call.run, hrename] at hrun
    · rw [Call.run, hrename] at hrun
      rw [← Except.ok.inj hrun]
      exact (h.setCode (hid id rfl) hfree).sound rfl
  | setTotalCode code =>
    rw [← Except.ok.inj hrun]
    exact h.setTotalCode code
  | detach id =>
    rcases t.detach_cases id with ⟨_, hdetach⟩ | ⟨p, hp, hdetach⟩
    · simp [Call.run, hdetach, Except.map] at hrun
    · rw [Call.run, hdetach] at hrun
      rw [← Except.ok.inj hrun]
      exact (h.unlink hp).sound rfl
  | append id part =>
    rcases t.append_cases id part with ⟨_, happend⟩ | ⟨hfree, happend⟩
    · simp [Call.run, happend, Except.map] at hrun
    · rw [Call.run, happend] at hrun
      rw [← Except.ok.inj hrun]
      exact (h.appended_tree (hid id rfl) (hpart part rfl) hfree).sound
  | measure =>
    rw [← Except.ok.inj hrun]
    exact h.measure

theorem Sound.after (h : t.Sound) {call : Call} (hid : ∀ id ∈ call.node?, id < t.nodes.size)
    (hpart : ∀ part ∈ call.part?, part.Linked) : (call.after t).Sound := by
  rw [Call.after]
  split
  · rename_i u hrun
    exact h.run hid hpart hrun
  · exact h

/-! ## Trees from rows, pairs and lines -/

theorem sound_ofRows (rows : List (List String)) (total : String) : (ofRows rows total).Sound := by
  refine List.foldlRecOn rows _ (motive := Sound) (sound_new total) ?_
  intro t h row _
  exact (h.createUnder h.hasRoot (cleanRow row)).1

/-- The tree is sound, and codes stand for nodes it has. -/
structure Linking.Sound (l : Linking) : Prop where
  /-- The tree is sound. -/
  tree : l.tree.Sound
  /-- A code that stands for a node stands for one there is. -/
  known : ∀ code id, (code, id) ∈ l.known → id < l.tree.nodes.size

theorem Linking.Sound.place {l : Linking} (h : l.Sound) {id : Nat}
    (hid : id < l.tree.nodes.size) (code : String) :
    (l.place id code).1.Sound ∧ (l.place id code).2 < (l.place id code).1.tree.nodes.size := by
  obtain ⟨hsound, hlast, hsize⟩ := h.tree.createUnder hid [code]
  refine ⟨⟨hsound, ?_⟩, hlast⟩
  intro other x hx
  rcases List.mem_cons.mp hx with hnew | hold
  · rw [(Prod.mk.inj hnew).2]
    exact hlast
  · exact (h.known other x hold).trans_le hsize

theorem Linking.Sound.add {l : Linking} (h : l.Sound) (pair : String × String) :
    (l.add pair).Sound := by
  simp only [Linking.add]
  split
  · exact (h.place h.tree.hasRoot _).1
  · split
    · rename_i id hlookup
      obtain ⟨before, after, hknown, _⟩ := List.lookup_eq_some_iff.mp hlookup
      have hid := h.known (Text.trim pair.2) id (by simp [hknown])
      exact (h.place hid _).1
    · obtain ⟨hplaced, hlast⟩ := h.place h.tree.hasRoot (Text.trim pair.2)
      exact (hplaced.place hlast _).1

theorem sound_ofRelations (pairs : List (String × String)) (total : String) :
    (ofRelations pairs total).Sound := by
  have hstart : Linking.Sound ⟨new total, []⟩ := ⟨sound_new total, by simp⟩
  have hlinked : (pairs.foldl Linking.add ⟨new total, []⟩).Sound := by
    refine List.foldlRecOn pairs _ (motive := Linking.Sound) hstart ?_
    intro l h pair _
    exact h.add pair
  exact hlinked.tree

/-- The tree is sound, and the nodes that are open are there. -/
structure Reading.Sound (r : Reading) : Prop where
  /-- The tree is sound. -/
  tree : r.tree.Sound
  /-- A node that is open is one there is. -/
  levels : ∀ id ∈ r.levels, id < r.tree.nodes.size

theorem Reading.Sound.place {r r' : Reading} (h : r.Sound) {line depth : Nat}
    (hplace : r.place line depth code = .ok r') : r'.Sound := by
  rw [Reading.place] at hplace
  split at hplace
  · exact absurd hplace (by simp)
  · rename_i parent hparent
    obtain ⟨hsound, hlast, hsize⟩ := h.tree.createUnder (h.levels _ (List.mem_of_getElem? hparent))
      [code]
    rw [← Except.ok.inj hplace]
    refine ⟨hsound, ?_⟩
    intro x hx
    rcases List.mem_append.mp hx with hold | hnew
    · exact (h.levels x (List.mem_of_mem_take hold)).trans_le hsize
    · rw [List.eq_of_mem_singleton hnew]
      exact hlast

theorem Reading.addLines_cons (indent : String) (r : Reading) (line : Nat) (text : String)
    (rest : List (Nat × Option String)) :
    r.addLines indent ((line, some text) :: rest) =
      if (readIndentedLine indent text).2 = "" then r.addLines indent rest
      else r.place line (readIndentedLine indent text).1 (readIndentedLine indent text).2 >>=
        fun placed => placed.addLines indent rest := by
  rw [Reading.addLines]
  rfl

theorem Reading.Sound.addLines {indent : String} {lines : List (Nat × Option String)} :
    ∀ {r r' : Reading}, r.Sound → r.addLines indent lines = .ok r' → r'.Sound := by
  induction lines with
  | nil =>
    intro r r' h hrun
    exact Except.ok.inj hrun ▸ h
  | cons line rest ih =>
    intro r r' h hrun
    obtain ⟨line, _ | text⟩ := line
    · exact absurd hrun (by simp [Reading.addLines])
    · rw [Reading.addLines_cons] at hrun
      split at hrun
      · exact ih h hrun
      · obtain ⟨placed, hplace, hrest⟩ := Fault.ok_of_bind hrun
        exact ih (h.place hplace) hrest

theorem sound_ofIndentedLines {lines : List (Option String)} {indent total : String}
    (h : ofIndentedLines lines indent total = .ok t) : t.Sound := by
  rw [ofIndentedLines] at h
  split at h
  · exact absurd h (by simp)
  · obtain ⟨r, hrun, rfl⟩ := Fault.map_eq_ok_iff.mp h
    have hstart : Reading.Sound ⟨new total, [root]⟩ := ⟨sound_new total, by simp [root]⟩
    exact (hstart.addLines hrun).tree

/-! ## Every reachable tree -/

/-- The trees that calls can make. -/
inductive Reachable : CodeTree → Prop
  | new (total : String) : Reachable (new total)
  | ofRows (rows : List (List String)) (total : String) : Reachable (ofRows rows total)
  | ofRelations (pairs : List (String × String)) (total : String) :
      Reachable (ofRelations pairs total)
  /-- Any lines that the reader takes. -/
  | ofIndentedLines {lines : List (Option String)} {indent total : String} {t : CodeTree} :
      ofIndentedLines lines indent total = .ok t → Reachable t
  /-- Any call, whether it fails or not, at any node that was ever handed out. -/
  | call {t : CodeTree} (call : Call) : Reachable t → (∀ id ∈ call.node?, id < t.nodes.size) →
      (∀ part ∈ call.part?, Reachable part) → Reachable (call.after t)
  /-- The part that was taken out of a tree. -/
  | detached {t rest part : CodeTree} {id : Nat} : Reachable t → t.detach id = .ok (rest, part) →
      Reachable part

theorem Reachable.sound (h : t.Reachable) : t.Sound := by
  induction h with
  | new total => exact sound_new total
  | ofRows rows total => exact sound_ofRows rows total
  | ofRelations pairs total => exact sound_ofRelations pairs total
  | ofIndentedLines h => exact sound_ofIndentedLines h
  | call call _ hid _ ih ihpart => exact ih.after hid fun part hpart => (ihpart part hpart).toLinked
  | @detached t rest part id _ hdetach ih =>
    rcases t.detach_cases id with ⟨_, hrun⟩ | ⟨_, _, hrun⟩
    · exact absurd (hrun.symm.trans hdetach) (by simp)
    · obtain ⟨_, rfl⟩ := Prod.mk.inj (Except.ok.inj (hrun.symm.trans hdetach))
      exact (ih.grafted_copyOf id).sound

/-- What someone who uses a tree can rely on. -/
structure Consistent (t : CodeTree) : Prop where
  /-- A node is a child of its parent, and of no other node. -/
  mem_children_iff : ∀ p c, c ∈ t.children p ↔ t.parent? c = some p
  /-- No node is there twice in all lists of children together. -/
  children_nodup : ((List.range t.nodes.size).flatMap t.children).Nodup
  /-- Siblings have different codes. -/
  codes_nodup : ∀ p, ((t.children p).map t.code).Nodup
  /-- A parent has a smaller number than its children. -/
  parent_lt : ∀ p c, t.parent? c = some p → p < c
  /-- The way up is never cut short. -/
  ancestors_eq : ∀ x, t.ancestors x =
    match t.parent? x with
    | none => []
    | some p => p :: t.ancestors p
  /-- A node is one level below its parent. -/
  depth_eq : ∀ x, t.depth x =
    match t.parent? x with
    | none => 0
    | some p => t.depth p + 1
  /-- A path is the path to the parent and then the code of the node. -/
  pathOf_eq : ∀ x, t.pathOf x =
    match t.parent? x with
    | none => []
    | some p => t.pathOf p ++ [t.code x]
  /-- The way down is never cut short. -/
  below_eq : ∀ x, t.below x = Forest.ofList (fun c => c) t.below (t.children x)
  /-- The length of codes is the largest length of a code below the root, or 0. -/
  codeLength_isGreatest :
    IsGreatest (insert 0 {n | ∃ x, root ∈ t.ancestors x ∧ (t.code x).length = n}) t.codeLength

theorem Linked.depth_eq (h : t.Linked) (x : Nat) : t.depth x =
    match t.parent? x with
    | none => 0
    | some p => t.depth p + 1 := by
  rw [depth, h.ancestors_eq]
  cases t.parent? x <;> rfl

theorem Linked.pathOf_eq (h : t.Linked) (x : Nat) : t.pathOf x =
    match t.parent? x with
    | none => []
    | some p => t.pathOf p ++ [t.code x] := by
  rw [pathOf, h.ancestors_eq]
  cases t.parent? x with
  | none => rfl
  | some p => simp [pathOf]

/-- All lists of children together have every node that has a parent, and have it once. -/
theorem Linked.nodup_flatMap_children (h : t.Linked) :
    ((List.range t.nodes.size).flatMap t.children).Nodup := by
  refine List.nodup_flatMap.mpr ⟨fun p _ => h.children_nodup p, ?_⟩
  refine List.nodup_range.imp fun {p q} hne => ?_
  intro c hp hq
  have hp' := h.mem_children_iff.mp hp
  have hq' := h.mem_children_iff.mp hq
  exact hne (Option.some.inj (hp'.symm.trans hq'))

theorem Sound.codeLength_isGreatest (h : t.Sound) :
    IsGreatest (insert 0 {n | ∃ x, root ∈ t.ancestors x ∧ (t.code x).length = n}) t.codeLength := by
  rw [h.codeLength_eq]
  constructor
  · rcases h.exists_longestCode with ⟨x, hx, hlength⟩ | ⟨hzero, _⟩
    · exact .inr ⟨x, hx, hlength⟩
    · exact .inl hzero
  · rintro n (rfl | ⟨x, hx, rfl⟩)
    · exact Nat.zero_le _
    · exact h.length_le_longestCode hx

theorem consistent_of_sound (h : t.Sound) : t.Consistent where
  mem_children_iff _ _ := h.mem_children_iff
  children_nodup := h.nodup_flatMap_children
  codes_nodup := h.codes_nodup
  parent_lt _ _ := h.parent_lt
  ancestors_eq := h.ancestors_eq
  depth_eq := h.depth_eq
  pathOf_eq := h.pathOf_eq
  below_eq := h.below_eq
  codeLength_isGreatest := h.codeLength_isGreatest

/-- **Whatever calls have made a tree, it is consistent, and it is what it was after a call that
fails.** -/
theorem Reachable.consistent (h : t.Reachable) :
    t.Consistent ∧ ∀ (call : Call) (fault : Fault),
      (call.run t = .error fault ↔ call.FailsWith t fault) ∧
      (call.run t = .error fault → call.after t = t) := by
  have hsound := h.sound
  refine ⟨consistent_of_sound hsound, ?_⟩
  intro call fault
  exact ⟨call.run_eq_error_iff hsound.toLinked fault, Call.after_of_fails⟩

/-- A tree whose codes were measured before one became longer, and a part of which was taken out and
went on growing. The last call fails: there is an `A2` already. -/
def editedTree : CodeTree :=
  [Call.measure, .rename 4 "Berlin", .detach 1, .createUnder 1 ["A3"], .rename 2 "A2"].foldl
    (fun t call => call.after t) (ofRows [["A", "A1"], ["A", "A2"], ["B"]] "Total")

theorem editedTree_consistent :
    editedTree.Reachable ∧ editedTree.Consistent ∧ editedTree.codeLength = 6 ∧
      (Call.detach 1).run editedTree = .error .detachRoot ∧
      (Call.detach 1).after editedTree = editedTree := by
  have hrows := Reachable.ofRows [["A", "A1"], ["A", "A2"], ["B"]] "Total"
  have hmeasured := hrows.call .measure (by simp [Call.node?]) (by simp [Call.part?])
  have hrenamed := hmeasured.call (.rename 4 "Berlin") (by decide) (by simp [Call.part?])
  have hdetached := hrenamed.call (.detach 1) (by decide) (by simp [Call.part?])
  have hgrown := hdetached.call (.createUnder 1 ["A3"]) (by decide) (by simp [Call.part?])
  have hedited : editedTree.Reachable :=
    hgrown.call (.rename 2 "A2") (by decide) (by simp [Call.part?])
  -- node 1 was taken out, so it cannot be taken out again
  have hagain : (Call.detach 1).run editedTree = .error .detachRoot :=
    (hedited.consistent.2 (.detach 1) .detachRoot).1.mpr ⟨by decide, rfl⟩
  exact ⟨hedited, hedited.consistent.1, by decide, hagain, (hedited.consistent.2 _ _).2 hagain⟩

end Disclosure.CodeTree
