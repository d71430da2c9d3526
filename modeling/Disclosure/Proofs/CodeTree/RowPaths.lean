import Disclosure.Proofs.CodeTree.Preorder
import Disclosure.Proofs.CodeTree.Rows
import Mathlib.Data.List.Infix

/-!
# Rows in and rows out

A row leads down along a path for each of its beginnings, and all rows together lead along a list of
paths. The tree from rows spells just that list: each path is that of one node, and siblings stand in
the order in which their paths come up. So the rows that come out are the paths that no other one goes
on from.

The other way round, the rows of a tree lead down to its leaves from left to right. Walking along them
makes the nodes in the order of a walk down the tree, which is how a forest is grafted. So a tree is
built again from its rows, if no cell is lost or trimmed on the way.

Rows that start alike share their nodes. A walk finds them by looking through the children of a node,
or in a table of the steps that were made before; the two never differ.
-/

namespace Disclosure

/-! ## Rows of a forest -/

namespace Forest

variable {α : Type}

theorem eq_nil_of_isEmpty {f : Forest α} (h : f.isEmpty = true) : f = nil := by
  cases f with
  | nil => rfl
  | cons label below next => exact absurd h (by simp [isEmpty])

theorem rows_ne_nil {f : Forest α} (h : f.isEmpty = false) : f.rows ≠ [] := by
  induction f with
  | nil => exact absurd h (by simp [isEmpty])
  | cons label below next ihb _ =>
    rw [rows]
    cases hb : below.isEmpty with
    | true => simp
    | false => simp [ihb hb]

/-- A row has only labels of the forest in it. -/
theorem mem_labels_of_mem_rows {f : Forest α} {row : List α} {label : α} (hrow : row ∈ f.rows)
    (hlabel : label ∈ row) : label ∈ f.labels := by
  induction f generalizing row with
  | nil => exact absurd hrow List.not_mem_nil
  | cons top below next ihb ihn =>
    rw [labels_cons, List.mem_cons, List.mem_append]
    rw [rows, List.mem_append] at hrow
    rcases hrow with hrow | hrow
    · split at hrow
      · rw [List.mem_singleton.mp hrow, List.mem_singleton] at hlabel
        exact .inl hlabel
      · obtain ⟨rest, hrest, rfl⟩ := List.mem_map.mp hrow
        exact (List.mem_cons.mp hlabel).imp_right fun hlabel => .inl (ihb hrest hlabel)
    · exact .inr (.inr (ihn hrow hlabel))

end Forest

namespace CodeTree

variable {t : CodeTree} {p q c x id : Nat} {code other : String} {path row : List String}
  {paths : List (List String)}

/-! ## The paths along rows -/

/-- The paths that rows lead along, in the order in which they come up. -/
def pathsAlong (rows : List (List String)) : List (List String) :=
  rows.flatMap fun row => (cleanRow row).inits.tail

theorem tail_inits_cons (code : String) (rest : List String) :
    (code :: rest).inits.tail = [code] :: rest.inits.tail.map (code :: ·) := by
  cases rest <;> simp

theorem mem_tail_inits_iff : path ∈ row.inits.tail ↔ path ≠ [] ∧ path <+: row := by
  induction row generalizing path with
  | nil => simp
  | cons code rest ih =>
    rw [tail_inits_cons, List.mem_cons, List.mem_map]
    cases path with
    | nil => simp
    | cons first path =>
      simp only [List.cons.injEq, List.cons_prefix_cons, ih, ne_eq, reduceCtorEq, not_false_eq_true,
        true_and]
      constructor
      · rintro (⟨rfl, rfl⟩ | ⟨_, ⟨-, hpath⟩, rfl, rfl⟩)
        · exact ⟨rfl, List.nil_prefix⟩
        · exact ⟨rfl, hpath⟩
      · rintro ⟨rfl, hpath⟩
        rcases eq_or_ne path [] with rfl | hne
        · exact .inl ⟨rfl, rfl⟩
        · exact .inr ⟨path, ⟨hne, hpath⟩, rfl, rfl⟩

theorem mem_pathsAlong {rows : List (List String)} :
    path ∈ pathsAlong rows ↔ path ≠ [] ∧ ∃ row ∈ rows, path <+: cleanRow row := by
  simp only [pathsAlong, List.mem_flatMap, mem_tail_inits_iff]
  exact ⟨fun ⟨row, hrow, hne, hpath⟩ => ⟨hne, row, hrow, hpath⟩,
    fun ⟨hne, row, hrow, hpath⟩ => ⟨row, hrow, hne, hpath⟩⟩

/-- A path that none goes on from is a whole row, and no row goes on from it. -/
theorem last_along_iff {rows : List (List String)} :
    (path ∈ pathsAlong rows ∧ ∀ code, path ++ [code] ∉ pathsAlong rows) ↔
      path ≠ [] ∧ path ∈ rows.map cleanRow ∧
        ∀ other ∈ rows.map cleanRow, path <+: other → other = path := by
  simp only [mem_pathsAlong, List.mem_map, forall_exists_index, and_imp,
    forall_apply_eq_imp_iff₂]
  constructor
  · rintro ⟨⟨hne, row, hrow, hpath⟩, hlast⟩
    have hwhole : ∀ row ∈ rows, path <+: cleanRow row → cleanRow row = path := by
      rintro row hrow ⟨rest, hrest⟩
      cases rest with
      | nil => simpa using hrest.symm
      | cons code rest =>
        exact absurd ⟨by simp, row, hrow, rest, by simpa using hrest⟩ (hlast code)
    exact ⟨hne, ⟨row, hrow, hwhole row hrow hpath⟩, hwhole⟩
  · rintro ⟨hne, ⟨row, hrow, rfl⟩, hwhole⟩
    refine ⟨⟨hne, row, hrow, List.prefix_refl _⟩, fun code ⟨_, longer, hlonger, hgoes⟩ => ?_⟩
    have heq := hwhole longer hlonger ((List.prefix_append _ _).trans hgoes)
    have hlength := hgoes.length_le
    rw [heq, List.length_append, List.length_singleton] at hlength
    omega

/-! ## The tree has the paths -/

/-- Walking down a row brings up the paths along it. -/
theorem Spells.createUnder (h : t.Spells paths) (hl : t.Linked) (hid : id < t.nodes.size)
    (hattached : t.Attached id) (row : List String) : (t.createUnder id row).1.Spells
      (paths ++ row.inits.tail.map (t.pathOf id ++ ·)) := by
  induction row generalizing t id paths with
  | nil => simpa [CodeTree.createUnder] using h
  | cons code rest ih =>
    have hpaths : ∀ child, t.pathOf id ++ [code] = child →
        paths ++ (code :: rest).inits.tail.map (t.pathOf id ++ ·) =
          (paths ++ [child]) ++ rest.inits.tail.map (child ++ ·) := by
      rintro _ rfl
      rw [tail_inits_cons]
      simp [Function.comp_def]
    rw [CodeTree.createUnder]
    cases hchild : t.child? id code with
    | some child =>
      have hpath := hl.pathOf_child hchild
      have hroot := hl.attached_of_parent (hl.mem_children_iff.mp (of_child?_eq_some hchild).1)
        hattached
      rw [hpaths _ hpath.symm]
      exact ih (h.again hl ((h.mem_iff _).mp ⟨child, hroot, rfl⟩)) hl
        (hl.child_lt_size (of_child?_eq_some hchild).1) (.inr hroot)
    | none =>
      have hfree := child?_eq_none_iff.mp hchild
      have hroot : root ∈ (t.pushChild id code).1.ancestors t.nodes.size :=
        (hl.root_mem_ancestors_pushChild hid hfree hattached).mpr (.inl rfl)
      have hnew := hl.pathOf_pushChild_self hid hfree
      rw [hpaths _ hnew.symm]
      have hspells := h.pushChild hl hid hattached hfree
      rw [← hnew] at hspells
      exact ih hspells (hl.pushChild hid hfree) (by simp) (.inr hroot)

theorem spells_rows (h : t.Spells paths) (hl : t.Linked) (rows : List (List String)) :
    (rows.foldl (fun t row => (t.createUnder root (cleanRow row)).1) t).Spells
      (paths ++ pathsAlong rows) := by
  induction rows generalizing t paths with
  | nil => simpa [pathsAlong] using h
  | cons row rest ih =>
    have hrow := h.createUnder hl hl.hasRoot (.inl rfl) (cleanRow row)
    rw [hl.pathOf_root] at hrow
    have hrest := ih hrow (hl.walked_row row).linked
    simpa [pathsAlong] using hrest

/-- The tree from rows has the paths along them. -/
theorem spells_ofRows (rows : List (List String)) (total : String) :
    (ofRows rows total).Spells (pathsAlong rows) :=
  spells_rows (spells_new total) (linked_new total) rows

/-- A node has nothing below it when no path goes on from its own. -/
theorem Spells.isLeaf_iff (h : t.Spells paths) (hl : t.Linked) (hx : root ∈ t.ancestors x) :
    t.isLeaf x = true ↔ ∀ code, t.pathOf x ++ [code] ∉ paths := by
  rw [isLeaf, List.isEmpty_iff, List.eq_nil_iff_forall_not_mem]
  constructor
  · intro hleaf code hpath
    obtain ⟨c, hc, hpath⟩ := (h.mem_iff _).mpr hpath
    obtain ⟨q, hq, hattached⟩ := hl.parent_attached hc
    rw [hl.pathOf_of_parent hq] at hpath
    obtain rfl := hl.eq_of_pathOf_eq hattached (.inr hx) (List.append_inj' hpath rfl).1
    exact hleaf c (hl.mem_children_iff.mpr hq)
  · intro hlast c hc
    refine hlast (t.code c) ?_
    rw [← hl.pathOf_of_parent (hl.mem_children_iff.mp hc)]
    exact h.mem_of_child hl (.inr hx) hc

theorem Linked.mem_leaves_iff (h : t.Linked) :
    x ∈ t.leaves ↔ root ∈ t.ancestors x ∧ t.isLeaf x = true := by
  rw [leaves, h.leaves_below, List.mem_filter, h.mem_labels_below]

/-- The rows of a tree are the paths that no other one goes on from. -/
theorem Spells.mem_toRows_iff (h : t.Spells paths) (hl : t.Linked) :
    path ∈ t.toRows ↔ path ∈ paths ∧ ∀ code, path ++ [code] ∉ paths := by
  simp only [hl.toRows_eq, List.mem_map, hl.mem_leaves_iff]
  constructor
  · rintro ⟨x, ⟨hx, hleaf⟩, rfl⟩
    exact ⟨(h.mem_iff _).mp ⟨x, hx, rfl⟩, (h.isLeaf_iff hl hx).mp hleaf⟩
  · rintro ⟨hpath, hlast⟩
    obtain ⟨x, hx, rfl⟩ := (h.mem_iff _).mpr hpath
    exact ⟨x, ⟨hx, (h.isLeaf_iff hl hx).mpr hlast⟩, rfl⟩

/-- No row comes out twice. -/
theorem Linked.nodup_toRows (h : t.Linked) : t.toRows.Nodup := by
  have hleaves : t.leaves.Nodup := by
    rw [leaves, h.leaves_below]
    exact (h.nodup_labels_below root).filter _
  rw [h.toRows_eq]
  refine hleaves.map_on fun x hx y hy hpath => ?_
  exact h.eq_of_pathOf_eq (.inr (h.mem_leaves_iff.mp hx).1) (.inr (h.mem_leaves_iff.mp hy).1) hpath

/-! ## Steps that can still be made -/

theorem Linked.child?_pushChild (h : t.Linked) (hp : p < t.nodes.size)
    (hfree : code ∉ (t.children p).map t.code) (hchild : t.child? q other = some c) :
    (t.pushChild p code).1.child? q other = some c := by
  obtain ⟨hc, hcode⟩ := of_child?_eq_some hchild
  refine (h.pushChild hp hfree).child?_eq_some_iff.mpr ⟨?_, ?_⟩
  · rw [children_pushChild hp]
    split
    · rename_i hq
      exact List.mem_append_left _ (hq ▸ hc)
    · exact hc
  · rw [code_pushChild, if_neg (Nat.ne_of_lt (h.child_lt_size hc)), hcode]

/-- Walking down a path takes no step away that could be made before. -/
theorem Linked.child?_createUnder (h : t.Linked) (hid : id < t.nodes.size)
    (hchild : t.child? q other = some c) (path : List String) :
    (t.createUnder id path).1.child? q other = some c := by
  induction path generalizing t id with
  | nil => exact hchild
  | cons code rest ih =>
    rw [createUnder]
    cases hstep : t.child? id code with
    | some child => exact ih h (h.child_lt_size (of_child?_eq_some hstep).1) hchild
    | none =>
      have hfree := child?_eq_none_iff.mp hstep
      exact ih (h.pushChild hid hfree) (by simp) (h.child?_pushChild hid hfree hchild)

theorem createUnder_cons_of_child (hchild : t.child? id code = some c) (rest : List String) :
    t.createUnder id (code :: rest) = t.createUnder c rest := by
  rw [createUnder, hchild]

theorem Linked.child?_pushChild_self (h : t.Linked) (hp : p < t.nodes.size)
    (hfree : code ∉ (t.children p).map t.code) :
    (t.pushChild p code).1.child? p code = some t.nodes.size := by
  refine (h.pushChild hp hfree).child?_eq_some_iff.mpr ⟨?_, ?_⟩
  · rw [children_pushChild hp, if_pos rfl]
    simp
  · rw [code_pushChild, if_pos rfl]

theorem createUnder_cons_of_free (hfree : code ∉ (t.children p).map t.code)
    (rest : List String) : t.createUnder p (code :: rest) =
      (t.pushChild p code).1.createUnder t.nodes.size rest := by
  rw [createUnder, child?_eq_none_iff.mpr hfree]
  rfl

theorem createUnder_cons (t : CodeTree) (id : Nat) (code : String) (rest : List String) :
    t.createUnder id (code :: rest) =
      (t.createUnder id [code]).1.createUnder (t.createUnder id [code]).2 rest := by
  rw [createUnder, createUnder]
  cases t.child? id code <;> rfl

theorem Linked.child?_createUnder_singleton (h : t.Linked) (hid : id < t.nodes.size)
    (code : String) :
    (t.createUnder id [code]).1.child? id code = some (t.createUnder id [code]).2 := by
  cases hstep : t.child? id code with
  | some child =>
    rw [createUnder_cons_of_child hstep]
    exact hstep
  | none =>
    have hfree := child?_eq_none_iff.mp hstep
    rw [createUnder_cons_of_free hfree]
    exact h.child?_pushChild_self hid hfree

/-! ## A tree from its own rows -/

/-- Rows that start with a code lead down from the node that has it. -/
theorem Sound.foldl_rows_of_child (h : t.Sound) (hchild : t.child? p code = some c)
    (rows : List (List String)) :
    rows.foldl (fun t row => (t.createUnder p (code :: row)).1) t =
      rows.foldl (fun t row => (t.createUnder c row).1) t := by
  induction rows generalizing t with
  | nil => rfl
  | cons row rest ih =>
    have hc := h.child_lt_size (of_child?_eq_some hchild).1
    rw [List.foldl_cons, List.foldl_cons, createUnder_cons_of_child hchild]
    exact ih (h.createUnder hc row).1 (h.toLinked.child?_createUnder hc hchild row)

theorem Sound.foldl_rows_of_free (h : t.Sound) (hp : p < t.nodes.size)
    (hfree : code ∉ (t.children p).map t.code) {rows : List (List String)} (hrows : rows ≠ []) :
    rows.foldl (fun t row => (t.createUnder p (code :: row)).1) t =
      rows.foldl (fun u row => (u.createUnder t.nodes.size row).1) (t.pushChild p code).1 := by
  cases rows with
  | nil => exact absurd rfl hrows
  | cons row rest =>
    -- the first row makes the node, and from then on it is found
    have hself := h.toLinked.child?_pushChild_self hp hfree
    have hrun := (h.toLinked.sound_pushChild hp hfree).foldl_rows_of_child hself (row :: rest)
    rw [List.foldl_cons, createUnder_cons_of_child hself] at hrun
    rw [List.foldl_cons, createUnder_cons_of_free hfree, hrun]

/-- **Walking along the rows of a forest grafts the forest.** -/
theorem Sound.foldl_rows (h : t.Sound) (hp : p < t.nodes.size) {f : Forest String}
    (hf : f.Distinct) (hfree : ∀ code ∈ f.tops, code ∉ (t.children p).map t.code) :
    f.rows.foldl (fun t row => (t.createUnder p row).1) t = t.graft p f := by
  induction f generalizing t p with
  | nil => rfl
  | cons code below next ihb ihn =>
    obtain ⟨hcode, hbelow, hnext⟩ := hf
    rw [Forest.tops, List.forall_mem_cons] at hfree
    have hchild := h.sound_pushChild hp hfree.1
    have hsize : t.nodes.size < (t.pushChild p code).1.nodes.size := by simp
    have hnone := children_pushChild_self hp code
    have hgrafted := h.toLinked.grafted_first hp hfree.1 hbelow
    have hfirst : (if below.isEmpty then [[code]] else below.rows.map (code :: ·)).foldl
        (fun t row => (t.createUnder p row).1) t = (t.pushChild p code).1.graft t.nodes.size below := by
      cases hb : below.isEmpty with
      | true =>
        obtain rfl := Forest.eq_nil_of_isEmpty hb
        rw [if_pos rfl, List.foldl_cons, List.foldl_nil, createUnder_cons_of_free hfree.1]
        rfl
      | false =>
        rw [if_neg (by decide), List.foldl_map,
          h.foldl_rows_of_free hp hfree.1 (Forest.rows_ne_nil hb)]
        exact ihb hchild hsize hbelow (by simp [hnone])
    rw [Forest.rows, List.foldl_append, hfirst]
    exact ihn hgrafted.sound (hp.trans_le hgrafted.grows.size_le) hnext
      (hgrafted.free_next hcode hfree.2)

/-- A row that is clean already stays as it is. -/
theorem cleanRow_of_clean (h : ∀ code ∈ row, code ≠ "" ∧ Text.IsTrimmed code) :
    cleanRow row = row := by
  have htrim : row.map Text.trim = row := by
    conv_rhs => rw [← List.map_id row]
    exact List.map_congr_left fun code hcode => (h code hcode).2
  rw [cleanRow, htrim]
  exact List.filter_eq_self.mpr fun code hcode => by simpa using (h code hcode).1

/-- The rows of a tree build it again, if nothing is lost when they are cleaned. -/
theorem Linked.ofRows_toRows (h : t.Linked)
    (hcodes : ∀ x, root ∈ t.ancestors x → t.code x ≠ "" ∧ Text.IsTrimmed (t.code x)) :
    ofRows t.toRows t.totalCode = t.copyOf root := by
  have hclean : ∀ row ∈ t.toRows, cleanRow row = row := by
    refine fun row hrow => cleanRow_of_clean fun code hcode => ?_
    obtain ⟨x, hx, rfl⟩ :=
      h.mem_labels_content.mp (Forest.mem_labels_of_mem_rows hrow hcode)
    exact hcodes x hx
  have hgraft : t.toRows.foldl (fun u row => (u.createUnder root row).1) (new t.totalCode) =
      t.copyOf root :=
    (sound_new t.totalCode).foldl_rows Nat.zero_lt_one (h.distinct_codesBelow root) (by simp)
  rw [← hgraft]
  exact List.foldl_ext _ _ _ fun u row hrow => by rw [hclean row hrow]

/-! ## Steps that are remembered -/

/-- A tree with a table of the steps that were made in it, each from a node by a code. -/
structure Sharing where
  tree : CodeTree
  seen : List ((NodeId × String) × NodeId)

/-- Goes one code down from a node. The tree is asked only for steps that are not in the table. -/
def Sharing.step (s : Sharing) (id : NodeId) (code : String) : Sharing × NodeId :=
  match s.seen.lookup (id, code) with
  | some child => (s, child)
  | none =>
    let (grown, child) := s.tree.createUnder id [code]
    (⟨grown, ((id, code), child) :: s.seen⟩, child)

/-- Goes down from a node along the cells of a row. -/
def Sharing.walk (s : Sharing) (id : NodeId) : List String → Sharing × NodeId
  | [] => (s, id)
  | cell :: rest =>
    let code := Text.trim cell
    if code = "" then s.walk id rest
    else
      let (s', child) := s.step id code
      s'.walk child rest

/-- The tree with the given rows, built with a table of steps. -/
def ofRowsSharing (rows : List (List String)) (total : String) : CodeTree :=
  (rows.foldl (fun s row => (s.walk root row).1) (⟨new total, []⟩ : Sharing)).tree

namespace Sharing

variable {s : Sharing}

/-- The table says what the tree says. -/
structure Agrees (s : Sharing) : Prop where
  /-- The tree is sound. -/
  sound : s.tree.Sound
  /-- A step in the table can be made in the tree. -/
  child?_eq : ∀ {id code child}, s.seen.lookup (id, code) = some child →
    s.tree.child? id code = some child

theorem Agrees.step (h : s.Agrees) (hid : id < s.tree.nodes.size) (code : String) :
    (s.step id code).1.Agrees ∧
      ((s.step id code).1.tree, (s.step id code).2) = s.tree.createUnder id [code] := by
  rw [Sharing.step]
  cases hseen : s.seen.lookup (id, code) with
  | some child => exact ⟨h, (createUnder_cons_of_child (h.child?_eq hseen) []).symm⟩
  | none =>
    refine ⟨⟨(h.sound.createUnder hid [code]).1, fun {q other c} hlookup => ?_⟩, rfl⟩
    rw [List.lookup_cons] at hlookup
    split at hlookup
    · rename_i hkey
      obtain ⟨rfl, rfl⟩ := Prod.mk.inj (beq_iff_eq.mp hkey)
      rw [← Option.some.inj hlookup]
      exact h.sound.toLinked.child?_createUnder_singleton hid _
    · exact h.sound.toLinked.child?_createUnder hid (h.child?_eq hlookup) [code]

theorem Agrees.walk (h : s.Agrees) (hid : id < s.tree.nodes.size) (row : List String) :
    (s.walk id row).1.Agrees ∧
      ((s.walk id row).1.tree, (s.walk id row).2) = s.tree.createUnder id (cleanRow row) := by
  induction row generalizing s id with
  | nil => exact ⟨h, rfl⟩
  | cons cell rest ih =>
    rw [Sharing.walk]
    dsimp only
    split
    · rename_i hblank
      have hclean : cleanRow (cell :: rest) = cleanRow rest := by simp [cleanRow, hblank]
      rw [hclean]
      exact ih h hid
    · rename_i hcode
      have hclean : cleanRow (cell :: rest) = Text.trim cell :: cleanRow rest := by
        simp [cleanRow, hcode]
      obtain ⟨hagrees, hstep⟩ := h.step hid (Text.trim cell)
      have hchild := (h.sound.createUnder hid [Text.trim cell]).2.1
      rw [← hstep] at hchild
      rw [hclean, createUnder_cons, ← hstep]
      exact ih hagrees hchild

end Sharing

/-- **A table of steps changes nothing.** -/
theorem ofRowsSharing_eq (rows : List (List String)) (total : String) :
    ofRowsSharing rows total = ofRows rows total := by
  have hrows : ∀ s : Sharing, s.Agrees →
      (rows.foldl (fun s row => (s.walk root row).1) s).tree =
        rows.foldl (fun t row => (t.createUnder root (cleanRow row)).1) s.tree := by
    induction rows with
    | nil => exact fun s _ => rfl
    | cons row rest ih =>
      intro s h
      obtain ⟨hagrees, hwalk⟩ := h.walk h.sound.hasRoot row
      rw [List.foldl_cons, List.foldl_cons, ih _ hagrees, ← hwalk]
  exact hrows _ ⟨sound_new total, fun hlookup => absurd hlookup (by simp)⟩

/-! ## Rows and trees -/

/-- **A tree has the rows that it is given, and gives them back.** It is the same with a table of
steps. The paths of its nodes are the beginnings of the clean rows, each of them once, and siblings
stand in the order in which their paths come up. So the rows that come out are different from each
other, and are the clean rows that no other one goes on from. And a tree is built again from its rows,
if its codes are trimmed and not empty. -/
theorem ofRows_exact (rows : List (List String)) (total : String) :
    (ofRowsSharing rows total = ofRows rows total ∧ (ofRows rows total).totalCode = total) ∧
    ((∀ path, path ∈ pathsAlong rows ↔ path ≠ [] ∧ ∃ row ∈ rows, path <+: cleanRow row) ∧
      (ofRows rows total).Spells (pathsAlong rows)) ∧
    ((ofRows rows total).toRows.Nodup ∧
      ∀ path, path ∈ (ofRows rows total).toRows ↔ path ≠ [] ∧ path ∈ rows.map cleanRow ∧
        ∀ other ∈ rows.map cleanRow, path <+: other → other = path) ∧
    ∀ t : CodeTree, t.Reachable →
      (∀ x, root ∈ t.ancestors x → t.code x ≠ "" ∧ Text.IsTrimmed (t.code x)) →
      (ofRows t.toRows t.totalCode).same t = true := by
  have hl := (sound_ofRows rows total).toLinked
  have hspells := spells_ofRows rows total
  refine ⟨⟨ofRowsSharing_eq rows total, totalCode_ofRows rows total⟩,
    ⟨fun path => mem_pathsAlong, hspells⟩, ⟨hl.nodup_toRows, fun path => ?_⟩, fun t ht hcodes => ?_⟩
  · rw [hspells.mem_toRows_iff hl, last_along_iff]
  · have htree := ht.sound.toLinked
    rw [htree.ofRows_toRows hcodes]
    exact htree.same_copyOf

/-- Rows with padding inside, one that another goes on from, one that comes again, and two branches
that are come back to. -/
def paddedTree : CodeTree :=
  ofRows [["B"], ["A", "", " A1 "], ["A"], ["A", "A2"], ["A", "A1", " "], ["", "B", "", "B1"]] "Total"

theorem paddedTree_exact :
    paddedTree.toRows = [["B", "B1"], ["A", "A1"], ["A", "A2"]] ∧
      (ofRows paddedTree.toRows "Total").same paddedTree = true := by
  have hreach : paddedTree.Reachable := .ofRows _ _
  have hcodes : ∀ x < 6, root ∈ paddedTree.ancestors x →
      paddedTree.code x ≠ "" ∧ Text.trim (paddedTree.code x) = paddedTree.code x := by decide
  have hback := (ofRows_exact [] "Total").2.2.2 paddedTree hreach fun x hx =>
    hcodes x (hreach.sound.lt_size_of_mem_ancestors hx) hx
  exact ⟨by decide, hback⟩

end CodeTree

end Disclosure
