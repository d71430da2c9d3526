import Disclosure.Proofs.CodeTree.RowPaths

/-!
# Paths down and paths up

A path is followed down from the root by codes, and the path of a node is put together on the way up
along its parents. The two undo each other on all nodes that are still attached to the root, because
siblings have different codes. So what a path leads to is known from the paths of nodes alone, and a
change of the tree is told by what it does to those.

Walking down a path makes one node for each beginning of it that was missing. `GrowsAlong` says this
of a whole walk: the nodes that were there keep their paths, and those that are new have the given
ones, in order. One new node is the step, and the walk is by induction on what is left of the path.
-/

namespace Disclosure.CodeTree

variable {t u v : CodeTree} {a id p x : Nat} {code : String} {path rest : List String}
  {paths : List (List String)}

/-! ## Down and up -/

theorem follow?_append (t : CodeTree) (a : Nat) (path rest : List String) :
    t.follow? a (path ++ rest) = (t.follow? a path).bind fun x => t.follow? x rest := by
  induction path generalizing a with
  | nil => rfl
  | cons code path ih =>
    rw [List.cons_append, follow?, follow?]
    cases t.child? a code with
    | none => rfl
    | some c => exact ih c

theorem get?_concat (t : CodeTree) (path : List String) (code : String) :
    t.get? (path ++ [code]) = (t.get? path).bind fun x => t.child? x code := by
  rw [get?, follow?_append]
  refine congrArg _ (funext fun x => ?_)
  rw [follow?]
  cases t.child? x code <;> rfl

/-- Where a path leads somewhere, each beginning of it does. -/
theorem isSome_get?_of_prefix (hpath : path <+: rest) (h : (t.get? rest).isSome) :
    (t.get? path).isSome := by
  obtain ⟨more, rfl⟩ := hpath
  rw [get?, follow?_append] at h
  exact Option.isSome_of_isSome_bind h

section Linked

variable (h : t.Linked)

include h

/-- The path of a node leads to it. -/
theorem Linked.get?_pathOf (hx : t.Attached x) : t.get? (t.pathOf x) = some x := by
  induction x using Nat.strongRecOn with
  | _ x ih =>
    rcases hx with rfl | hx
    · rw [h.pathOf_root]
      rfl
    · obtain ⟨p, hp, hattached⟩ := h.parent_attached hx
      rw [h.pathOf_of_parent hp, get?_concat, ih p (h.parent_lt hp) hattached]
      exact h.child?_eq_some_iff.mpr ⟨h.mem_children_iff.mpr hp, rfl⟩

/-- A path leads to an attached node, and to the one that has this path. -/
theorem Linked.of_get?_eq_some (hx : t.get? path = some x) : t.Attached x ∧ t.pathOf x = path := by
  induction path using List.reverseRecOn generalizing x with
  | nil =>
    obtain rfl : root = x := Option.some.inj hx
    exact ⟨.inl rfl, h.pathOf_root⟩
  | append_singleton path code ih =>
    rw [get?_concat] at hx
    obtain ⟨p, hp, hchild⟩ := Option.bind_eq_some_iff.mp hx
    obtain ⟨hattached, hpath⟩ := ih hp
    have hparent := h.mem_children_iff.mp (of_child?_eq_some hchild).1
    exact ⟨.inr (h.attached_of_parent hparent hattached), by rw [h.pathOf_child hchild, hpath]⟩

/-- **Following a path down and reading it off on the way up are inverse.** -/
theorem Linked.get?_eq_some_iff : t.get? path = some x ↔ t.Attached x ∧ t.pathOf x = path := by
  constructor
  · intro hx
    exact h.of_get?_eq_some hx
  · rintro ⟨hx, rfl⟩
    exact h.get?_pathOf hx

theorem Linked.attached_lt_size (hx : t.Attached x) : x < t.nodes.size := by
  rcases hx with rfl | hx
  · exact h.hasRoot
  · exact h.lt_size_of_mem_ancestors hx

end Linked

/-- Walking down a path that is there makes nothing. -/
theorem createUnder_of_follow? (h : t.follow? id path = some x) :
    t.createUnder id path = (t, x) := by
  induction path generalizing id with
  | nil => rw [createUnder, Option.some.inj h]
  | cons code rest ih =>
    rw [follow?] at h
    obtain ⟨c, hchild, hrest⟩ := Option.bind_eq_some_iff.mp h
    rw [createUnder_cons_of_child hchild, ih hrest]

/-! ## What is missing on a path -/

/-- The beginnings of a path that lead nowhere, the shortest first. -/
def missing (t : CodeTree) (path : List String) : List (List String) :=
  path.inits.filter fun q => (t.get? q).isNone

theorem mem_missing : rest ∈ t.missing path ↔ rest <+: path ∧ t.get? rest = none := by
  simp [missing, List.mem_inits]

theorem missing_eq_nil (h : (t.get? path).isSome) : t.missing path = [] := by
  refine List.filter_eq_nil_iff.mpr fun q hq hnone => ?_
  have hsome := isSome_get?_of_prefix ((List.mem_inits q path).mp hq) h
  rw [Option.isNone_iff_eq_none] at hnone
  rw [hnone] at hsome
  exact absurd hsome (by simp)

/-- Behind a beginning that leads to a node without a child of the next code, all is missing. -/
theorem missing_append_cons (hx : t.get? path = some x) (hfree : t.child? x code = none)
    (rest : List String) : t.missing (path ++ code :: rest) =
      (path ++ [code]) :: rest.inits.tail.map fun more => path ++ code :: more := by
  have hnone : ∀ more, (t.get? (path ++ code :: more)).isNone = true := by
    intro more
    rw [get?, follow?_append, show t.follow? root path = some x from hx, Option.bind_some, follow?,
      hfree]
    rfl
  have hfront : path.inits.filter (fun q => (t.get? q).isNone) = [] :=
    missing_eq_nil (by rw [hx]; rfl)
  rw [missing, List.inits_append, List.filter_append, hfront, List.nil_append, tail_inits_cons,
    List.map_cons, List.map_map]
  refine List.filter_eq_self.mpr fun q hq => ?_
  rcases List.mem_cons.mp hq with rfl | hq
  · exact hnone []
  · obtain ⟨more, _, rfl⟩ := List.mem_map.mp hq
    exact hnone more

/-- Behind a path to a node with nothing below it, all is missing. -/
theorem missing_append_of_leaf (hx : t.get? path = some x) (hleaf : t.children x = [])
    (rest : List String) : t.missing (path ++ rest) = rest.inits.tail.map (path ++ ·) := by
  cases rest with
  | nil => rw [List.append_nil, missing_eq_nil (by rw [hx]; rfl)]; rfl
  | cons code rest =>
    have hfree : t.child? x code = none := child?_eq_none_iff.mpr (by simp [hleaf])
    rw [missing_append_cons hx hfree, tail_inits_cons, List.map_cons, List.map_map]
    rfl

/-! ## Growing along a path -/

/-- The tree has grown by nodes with the given paths, one after the other. -/
structure GrowsAlong (t : CodeTree) (paths : List (List String)) (u : CodeTree) : Prop where
  /-- The store has one node more for each path. -/
  size_eq : u.nodes.size = t.nodes.size + paths.length
  /-- So has the tree below the root. -/
  count_eq : u.size = t.size + paths.length
  /-- The root has the same code. -/
  totalCode_eq : u.totalCode = t.totalCode
  /-- No node has come into the tree or left it. -/
  attached_iff : ∀ x, x < t.nodes.size → (u.Attached x ↔ t.Attached x)
  /-- No node has another path. -/
  pathOf_eq : ∀ x, x < t.nodes.size → u.pathOf x = t.pathOf x
  /-- The new nodes have the paths. -/
  fresh : ∀ (k : Nat) (path : List String), paths[k]? = some path →
    u.Attached (t.nodes.size + k) ∧ u.pathOf (t.nodes.size + k) = path

namespace GrowsAlong

theorem refl (t : CodeTree) : GrowsAlong t [] t where
  size_eq := rfl
  count_eq := rfl
  totalCode_eq := rfl
  attached_iff _ _ := Iff.rfl
  pathOf_eq _ _ := rfl
  fresh k path hk := absurd hk (by simp)

/-- One node, and then those of the rest of the way. -/
theorem cons (h : GrowsAlong t [path] u) (h' : GrowsAlong u paths v) :
    GrowsAlong t (path :: paths) v := by
  have hsize : u.nodes.size = t.nodes.size + 1 := h.size_eq
  have hcount : u.size = t.size + 1 := h.count_eq
  refine ⟨?_, ?_, h'.totalCode_eq.trans h.totalCode_eq, ?_, ?_, ?_⟩
  · rw [h'.size_eq, hsize, List.length_cons]
    omega
  · rw [h'.count_eq, hcount, List.length_cons]
    omega
  · intro x hx
    exact (h'.attached_iff x (by omega)).trans (h.attached_iff x hx)
  · intro x hx
    exact (h'.pathOf_eq x (by omega)).trans (h.pathOf_eq x hx)
  · intro k other hk
    cases k with
    | zero =>
      obtain ⟨hattached, hpath⟩ := h.fresh 0 other hk
      have hlt : t.nodes.size + 0 < u.nodes.size := by omega
      exact ⟨(h'.attached_iff _ hlt).mpr hattached, (h'.pathOf_eq _ hlt).trans hpath⟩
    | succ k =>
      have hnew := h'.fresh k other hk
      rwa [show u.nodes.size + k = t.nodes.size + (k + 1) by omega] at hnew

/-- What a path led to, it still leads to. -/
theorem get?_eq_some (h : GrowsAlong t paths u) (hl : t.Linked) (hl' : u.Linked)
    (hx : t.get? path = some x) : u.get? path = some x := by
  obtain ⟨hattached, rfl⟩ := hl.of_get?_eq_some hx
  have hlt := hl.attached_lt_size hattached
  refine hl'.get?_eq_some_iff.mpr ⟨(h.attached_iff x hlt).mpr hattached, h.pathOf_eq x hlt⟩

/-- A path that led nowhere leads somewhere now exactly if it is the path of a new node. -/
theorem isSome_get?_iff (h : GrowsAlong t paths u) (hl : t.Linked) (hl' : u.Linked)
    (hnone : t.get? path = none) : (u.get? path).isSome ↔ path ∈ paths := by
  rw [Option.isSome_iff_exists, List.mem_iff_getElem?]
  constructor
  · rintro ⟨x, hx⟩
    obtain ⟨hattached, rfl⟩ := hl'.of_get?_eq_some hx
    have hlt := hl'.attached_lt_size hattached
    rw [h.size_eq] at hlt
    rcases Nat.lt_or_ge x t.nodes.size with hold | hnew
    · -- a node that was there would have had the path before
      have hpath := hl.get?_pathOf ((h.attached_iff x hold).mp hattached)
      rw [← h.pathOf_eq x hold, hnone] at hpath
      exact absurd hpath (by simp)
    · obtain ⟨k, rfl⟩ := Nat.exists_eq_add_of_le hnew
      have hk : k < paths.length := by omega
      have hget := List.getElem?_eq_getElem hk
      exact ⟨k, by rw [(h.fresh k _ hget).2, hget]⟩
  · rintro ⟨k, hk⟩
    exact ⟨_, hl'.get?_eq_some_iff.mpr (h.fresh k path hk)⟩

end GrowsAlong

/-- **One step: a new node has the path of its parent and then its code.** -/
theorem Linked.growsAlong_pushChild (h : t.Linked) (hp : p < t.nodes.size)
    (hattached : t.Attached p) (hfree : code ∉ (t.children p).map t.code) :
    GrowsAlong t [t.pathOf p ++ [code]] (t.pushChild p code).1 where
  size_eq := size_pushChild code
  count_eq := h.size_pushChild_content hp hfree hattached
  totalCode_eq := (growsAt_pushChild hp code).code_eq root h.hasRoot
  attached_iff x hx := by
    unfold Attached
    rw [h.ancestors_pushChild_of_lt hp hfree hx]
  pathOf_eq x hx := h.pathOf_pushChild_of_lt hp hfree hx
  fresh k path hk := by
    obtain ⟨hlt, rfl⟩ := List.getElem?_eq_some_iff.mp hk
    obtain rfl : k = 0 := by simpa using hlt
    refine ⟨.inr ?_, h.pathOf_pushChild_self hp hfree⟩
    exact (h.root_mem_ancestors_pushChild hp hfree hattached).mpr (.inl rfl)

/-- **The whole walk: one node for each beginning of the path that was missing.** The induction is
on what is left of the path, for all nodes to start from. -/
theorem Sound.growsAlong_createUnder (h : t.Sound) (hid : id < t.nodes.size)
    (hattached : t.Attached id) (rest : List String) :
    GrowsAlong t (t.missing (t.pathOf id ++ rest)) (t.createUnder id rest).1 ∧
      (t.createUnder id rest).1.get? (t.pathOf id ++ rest) = some (t.createUnder id rest).2 := by
  induction rest generalizing t id with
  | nil =>
    have hhere := h.get?_pathOf hattached
    rw [List.append_nil, missing_eq_nil (by rw [hhere]; rfl)]
    exact ⟨.refl t, hhere⟩
  | cons code rest ih =>
    cases hchild : t.child? id code with
    | some c =>
      have hc := (of_child?_eq_some hchild).1
      have hattached' : t.Attached c :=
        .inr (h.attached_of_parent (h.mem_children_iff.mp hc) hattached)
      have hrest := ih h (h.child_lt_size hc) hattached'
      rw [h.pathOf_child hchild, List.append_assoc, List.singleton_append] at hrest
      rw [createUnder_cons_of_child hchild]
      exact hrest
    | none =>
      have hfree := child?_eq_none_iff.mp hchild
      have hstep := h.growsAlong_pushChild hid hattached hfree
      have hgrown := h.sound_pushChild hid hfree
      obtain ⟨hnew, hpath⟩ := hstep.fresh 0 _ rfl
      have hrest := ih hgrown (by simp) hnew
      -- what is missing behind the new node is what was missing behind its path before
      have hmissing := missing_append_of_leaf (hgrown.get?_pathOf hnew)
        (children_pushChild_self hid code) rest
      rw [hmissing, hpath] at hrest
      rw [createUnder_cons_of_free hfree, missing_append_cons (h.get?_pathOf hattached) hchild]
      simp only [Nat.add_zero, List.append_assoc, List.singleton_append] at hrest
      exact ⟨hstep.cons hrest.1, hrest.2⟩

/-- **Creating a path makes what is missing of it and touches nothing else.** A path that does not
start with the total code leads to the node that is handed out, and is its path. Other paths lead
where they led, and of those that led nowhere just the beginnings of the path lead somewhere now. One
node is made for each of these, in order, in the store as well as below the root. No node has another
path than before, and the second time nothing happens. And on every attached node, going up and going
down are inverse. -/
theorem Reachable.create_exact (h : t.Reachable) :
    (∀ path : List String, path.head? ≠ some t.totalCode → ∃ u n, t.create path = .ok (u, n) ∧
      u.pathOf n = path ∧ u.get? path = some n ∧
      (∀ other x, t.get? other = some x → u.get? other = some x) ∧
      (∀ other, t.get? other = none → ((u.get? other).isSome ↔ other <+: path)) ∧
      (∀ k other, (t.missing path)[k]? = some other → u.get? other = some (t.nodes.size + k)) ∧
      u.nodes.size = t.nodes.size + (t.missing path).length ∧
      u.size = t.size + (t.missing path).length ∧
      (∀ x, x < t.nodes.size → u.pathOf x = t.pathOf x) ∧
      u.create path = .ok (u, n)) ∧
    ∀ x, t.Attached x → t.get? (t.pathOf x) = some x := by
  have hsound := h.sound
  refine ⟨?_, fun x hx => hsound.get?_pathOf hx⟩
  intro path hpath
  have hroot : t.Attached root := .inl rfl
  obtain ⟨hgrows, hget⟩ := hsound.growsAlong_createUnder hsound.hasRoot hroot path
  obtain ⟨hsound', -, -⟩ := hsound.createUnder hsound.hasRoot path
  rw [hsound.pathOf_root, List.nil_append] at hgrows hget
  have hstart : ∀ rest, path ≠ t.totalCode :: rest := by
    intro rest heq
    exact hpath (by rw [heq, List.head?_cons])
  have hcreate : t.create path = .ok (t.createUnder root path) := by
    rcases t.create_cases path with ⟨rest, heq, -⟩ | ⟨-, hrun⟩
    · exact absurd heq (hstart rest)
    · exact hrun
  have hagain : (t.createUnder root path).1.create path = .ok (t.createUnder root path) := by
    rcases (t.createUnder root path).1.create_cases path with ⟨rest, heq, -⟩ | ⟨-, hrun⟩
    · exact absurd (heq.trans (congrArg (· :: rest) hgrows.totalCode_eq)) (hstart rest)
    · rw [hrun, createUnder_of_follow? hget]
  refine ⟨_, _, hcreate, (hsound'.of_get?_eq_some hget).2, hget, ?_, ?_, ?_, hgrows.size_eq,
    hgrows.count_eq, hgrows.pathOf_eq, hagain⟩
  · intro other x hx
    exact hgrows.get?_eq_some hsound.toLinked hsound'.toLinked hx
  · intro other hnone
    rw [hgrows.isSome_get?_iff hsound.toLinked hsound'.toLinked hnone, mem_missing]
    exact and_iff_left hnone
  · intro k other hk
    exact hsound'.get?_eq_some_iff.mpr (hgrows.fresh k other hk)

/-- A tree with a branch that was taken out and stays in the store, and another branch of the same
code that was put in below a node with a new code. -/
def regrafted : CodeTree :=
  [Call.rename 4 "C", .detach 1, .append 4 (ofRows [["X"]] "A")].foldl
    (fun t call => call.after t) (ofRows [["A", "A1"], ["A", "A2"], ["B"]] "Total")

theorem regrafted_create :
    regrafted.missing ["C", "A", "X", "Y", "A1"] =
        [["C", "A", "X", "Y"], ["C", "A", "X", "Y", "A1"]] ∧
      regrafted.get? (regrafted.pathOf 6) = some 6 ∧
      ∃ u n, regrafted.create ["C", "A", "X", "Y", "A1"] = .ok (u, n) ∧
        u.pathOf n = ["C", "A", "X", "Y", "A1"] ∧ u.get? ["C", "A", "X"] = some 6 ∧
        u.get? ["C", "A", "X", "Y"] = some 7 ∧ (u.get? ["A"]).isSome = false ∧ u.size = 5 ∧
        u.pathOf 2 = ["A1"] ∧ u.create ["C", "A", "X", "Y", "A1"] = .ok (u, n) := by
  have hrows := Reachable.ofRows [["A", "A1"], ["A", "A2"], ["B"]] "Total"
  have hrenamed := hrows.call (.rename 4 "C") (by decide) (by simp [Call.part?])
  have hdetached := hrenamed.call (.detach 1) (by decide) (by simp [Call.part?])
  have hpart : ∀ part ∈ (Call.append 4 (ofRows [["X"]] "A")).part?, part.Reachable := by
    simpa [Call.part?] using Reachable.ofRows [["X"]] "A"
  have hgrafted : regrafted.Reachable := hdetached.call _ (by decide) hpart
  have hmissing : regrafted.missing ["C", "A", "X", "Y", "A1"] =
      [["C", "A", "X", "Y"], ["C", "A", "X", "Y", "A1"]] := by decide
  obtain ⟨hcreate, hback⟩ := hgrafted.create_exact
  obtain ⟨u, n, hrun, hpath, -, hold, hother, hnew, -, hcount, hpaths, hagain⟩ :=
    hcreate ["C", "A", "X", "Y", "A1"] (by decide)
  rw [hmissing] at hnew hcount
  refine ⟨hmissing, hback 6 (.inr (by decide)), u, n, hrun, hpath, hold _ 6 (by decide),
    hnew 0 _ rfl, ?_, hcount.trans (by decide), (hpaths 2 (by decide)).trans (by decide), hagain⟩
  rw [Bool.eq_false_iff, ne_eq, hother ["A"] (by decide)]
  decide

end Disclosure.CodeTree
