import Disclosure.Proofs.CodeTree.ReadAgain
import Mathlib.Data.List.Chain

/-!
# The tree that indented lines stand for

The lines of a hierarchy file are an outline. A line has as many levels above it as it has indents,
and stands below the latest line one level up. So each line has a path: that of the line it stands
below, and then its own code. Lines of one path are one node.

The reader does not know paths. It keeps the node at each open level and cuts the list at every
line. `Reading.Follows` ties the two together: the node that is open at a level has the path of the
latest line there, one level is open for every depth that the next line may have, and the tree has
the paths of the lines so far, in the order in which they came. `Reading.Follows.place` carries this
over one line, and a line is refused exactly if it is more than one level deeper than the line
before.
-/

namespace Disclosure.CodeTree

variable {t : CodeTree} {p x y : Nat} {indent total code : String} {path : List String}

/-! ## Lines -/

/-- A line that has a code: its number, the number of its indents, and the code behind them. -/
structure Item where
  line : Nat
  depth : Nat
  code : String
  deriving DecidableEq, Repr

/-- A numbered line, if there is a code on it. -/
def item? (indent : String) (row : Nat × String) : Option Item :=
  let (depth, code) := readIndentedLine indent row.2
  if code = "" then none else some ⟨row.1, depth, code⟩

/-- The lines of a text that have a code. The numbers count all lines. -/
def itemsOf (indent text : String) : List Item :=
  (Text.numbered (Text.lines text)).filterMap (item? indent)

/-- How deep the line behind some lines may be. -/
def room (items : List Item) : Nat :=
  (items.getLast?.map (·.depth + 1)).getD 0

/-- The first line is at the top, and every other one at most one level below the line before. -/
def Stepwise (items : List Item) : Prop :=
  (∀ first ∈ items.head?, first.depth = 0) ∧ items.IsChain fun a b => b.depth ≤ a.depth + 1

/-- The path that a line at a depth stands below: that of the latest line one level up. The lines so
far come latest first, each with its depth. -/
def pathAbove (past : List (Nat × List String)) : Nat → List String
  | 0 => []
  | depth + 1 => ((past.find? fun line => line.1 = depth).map (·.2)).getD []

/-- One more line, with its path. -/
def withPath (past : List (Nat × List String)) (item : Item) : List (Nat × List String) :=
  (item.depth, pathAbove past item.depth ++ [item.code]) :: past

/-- The depths and paths of lines, latest first. -/
def located (items : List Item) : List (Nat × List String) :=
  items.foldl withPath []

/-- The paths of lines, in the order of the lines. -/
def pathsOf (items : List Item) : List (List String) :=
  (located items).reverse.map (·.2)

/-- As many indents are taken as there are. -/
theorem takeIndents_spec {indent : List Char} (hindent : indent ≠ []) {fuel : Nat} {cs : List Char}
    (hfuel : cs.length ≤ fuel) :
    cs = (List.replicate (takeIndents indent fuel cs).1 indent).flatten ++
        (takeIndents indent fuel cs).2 ∧
      ¬ indent <+: (takeIndents indent fuel cs).2 := by
  induction fuel generalizing cs with
  | zero =>
    obtain rfl : cs = [] := List.eq_nil_of_length_eq_zero (Nat.le_zero.mp hfuel)
    exact ⟨rfl, fun hlead => hindent (List.prefix_nil.mp hlead)⟩
  | succ fuel ih =>
    rw [takeIndents]
    cases hlead : Text.dropLead? indent cs with
    | none => exact ⟨rfl, Text.dropLead?_eq_none_iff.mp hlead⟩
    | some rest =>
      obtain rfl := Text.dropLead?_eq_some_iff.mp hlead
      have hpos := List.length_pos_iff.mpr hindent
      rw [List.length_append] at hfuel
      have hrestFuel : rest.length ≤ fuel := by omega
      obtain ⟨hrest, hnone⟩ := ih hrestFuel
      refine ⟨?_, hnone⟩
      dsimp only
      rw [List.replicate_succ, List.flatten_cons, List.append_assoc, ← hrest]

/-- A line is read as what it is: indents, and behind all of them a code with blanks around it. -/
theorem readIndentedLine_eq_iff (hindent : indent ≠ "") {line : String} {depth : Nat} :
    readIndentedLine indent line = (depth, code) ↔ ∃ rest,
      line = Text.repeatText depth indent ++ rest ∧ ¬ indent.toList <+: rest.toList ∧
        code = Text.trim rest := by
  constructor
  · intro hread
    obtain ⟨hline, hnone⟩ :=
      takeIndents_spec (Text.toList_ne_nil hindent) (Nat.le_refl line.toList.length)
    obtain ⟨hdepth, hcode⟩ := Prod.mk.inj hread
    refine ⟨String.ofList (takeIndents indent.toList line.toList.length line.toList).2, ?_, ?_, ?_⟩
    · rw [← String.toList_inj, String.toList_append, Text.toList_repeatText, String.toList_ofList,
        ← hdepth]
      exact hline
    · rwa [String.toList_ofList]
    · rw [Text.trim, String.toList_ofList]
      exact hcode.symm
  · rintro ⟨rest, rfl, hnone, rfl⟩
    have hpos := List.length_pos_iff.mpr (Text.toList_ne_nil hindent)
    have hchars : (Text.repeatText depth indent ++ rest).toList =
        (List.replicate depth indent.toList).flatten ++ rest.toList := by
      rw [String.toList_append, Text.toList_repeatText]
    have hfuel : depth ≤ (Text.repeatText depth indent ++ rest).toList.length := by
      have hmul := Nat.le_mul_of_pos_right depth hpos
      have hlength : (List.replicate depth indent.toList).flatten.length =
          depth * indent.toList.length := by simp
      rw [hchars, List.length_append]
      omega
    have htake := takeIndents_replicate hnone hfuel
    rw [← hchars] at htake
    rw [readIndentedLine, htake]
    rfl

theorem item?_eq_some_iff {row : Nat × String} {item : Item} :
    item? indent row = some item ↔
      row.1 = item.line ∧ readIndentedLine indent row.2 = (item.depth, item.code) ∧
        item.code ≠ "" := by
  obtain ⟨line, depth, code⟩ := item
  rw [item?]
  dsimp only
  split
  · rename_i hempty
    simp only [reduceCtorEq, false_iff, not_and, not_not]
    intro _ hread
    rw [← hempty, hread]
  · rename_i hcode
    rw [Option.some.injEq, Item.mk.injEq]
    constructor
    · rintro ⟨rfl, rfl, rfl⟩
      exact ⟨rfl, rfl, hcode⟩
    · rintro ⟨rfl, hread, _⟩
      rw [hread]
      exact ⟨rfl, rfl, rfl⟩

/-- What the lines with a code are, told without the reader. -/
theorem mem_itemsOf_iff (hindent : indent ≠ "") {text : String} {item : Item} :
    item ∈ itemsOf indent text ↔ ∃ rest,
      (item.line, Text.repeatText item.depth indent ++ rest) ∈ Text.numbered (Text.lines text) ∧
        ¬ indent.toList <+: rest.toList ∧ item.code = Text.trim rest ∧ item.code ≠ "" := by
  simp only [itemsOf, List.mem_filterMap, item?_eq_some_iff, readIndentedLine_eq_iff hindent]
  constructor
  · rintro ⟨⟨number, line⟩, hrow, rfl, ⟨rest, rfl, hnone, hcode⟩, hne⟩
    exact ⟨rest, hrow, hnone, hcode, hne⟩
  · rintro ⟨rest, hrow, hnone, hcode, hne⟩
    exact ⟨_, hrow, rfl, ⟨rest, rfl, hnone, hcode⟩, hne⟩

theorem pairwise_itemsOf (indent text : String) :
    (itemsOf indent text).Pairwise fun a b => a.line < b.line := by
  have hnumbers : (Text.numbered (Text.lines text)).Pairwise fun a b => a.1 < b.1 := by
    rw [Text.numbered, List.pairwise_map]
    have hindices : ((Text.lines text).zipIdx.map Prod.snd).Pairwise (· < ·) := by
      rw [List.zipIdx_map_snd]
      exact List.pairwise_lt_range'
    exact (List.pairwise_map.mp hindices).imp Nat.succ_lt_succ
  refine List.Pairwise.filterMap _ (fun a b hab item hitem other hother => ?_) hnumbers
  rw [← (item?_eq_some_iff.mp hitem).1, ← (item?_eq_some_iff.mp hother).1]
  exact hab

/-! ## One line more -/

theorem located_concat (items : List Item) (item : Item) :
    located (items ++ [item]) = withPath (located items) item := by
  rw [located, List.foldl_append]
  rfl

theorem pathsOf_concat (items : List Item) (item : Item) : pathsOf (items ++ [item]) =
    pathsOf items ++ [pathAbove (located items) item.depth ++ [item.code]] := by
  rw [pathsOf, located_concat, withPath, List.reverse_cons, List.map_append]
  rfl

theorem room_concat (items : List Item) (item : Item) :
    room (items ++ [item]) = item.depth + 1 := by
  rw [room, List.getLast?_concat]
  rfl

/-- Lines further down do not change what a level stands below. -/
theorem pathAbove_withPath_of_le (past : List (Nat × List String)) {item : Item} {depth : Nat}
    (h : depth ≤ item.depth) : pathAbove (withPath past item) depth = pathAbove past depth := by
  cases depth with
  | zero => rfl
  | succ depth =>
    rw [pathAbove, withPath, List.find?_cons_of_neg (by simpa using (Nat.lt_of_succ_le h).ne')]
    rfl

theorem pathAbove_withPath_self (past : List (Nat × List String)) (item : Item) :
    pathAbove (withPath past item) (item.depth + 1) =
      pathAbove past item.depth ++ [item.code] := by
  rw [pathAbove, withPath, List.find?_cons_of_pos (by simp)]
  rfl

/-- Every path ends with the code of its line. -/
theorem exists_item_of_mem_pathsOf {items : List Item} (h : path ∈ pathsOf items) :
    ∃ item ∈ items, ∃ above, path = above ++ [item.code] := by
  induction items using List.reverseRecOn with
  | nil => exact absurd h List.not_mem_nil
  | append_singleton items item ih =>
    rw [pathsOf_concat, List.mem_append, List.mem_singleton] at h
    rcases h with h | rfl
    · obtain ⟨found, hfound, habove⟩ := ih h
      exact ⟨found, List.mem_append_left _ hfound, habove⟩
    · exact ⟨item, by simp, _, rfl⟩

theorem stepwise_concat {items : List Item} {item : Item} :
    Stepwise (items ++ [item]) ↔ Stepwise items ∧ item.depth ≤ room items := by
  cases items using List.reverseRecOn with
  | nil => simp [Stepwise, room]
  | append_singleton items last =>
    rw [room_concat, Stepwise, Stepwise, List.isChain_append, and_assoc]
    simp

/-- Lines go down step by step, or there is a first one that jumps. -/
theorem stepwise_or_jump (items : List Item) : Stepwise items ∨
    ∃ before item after, items = before ++ item :: after ∧ Stepwise before ∧
      room before < item.depth := by
  induction items using List.reverseRecOn with
  | nil => exact .inl ⟨by simp, .nil⟩
  | append_singleton items last ih =>
    rcases ih with hsteps | ⟨before, item, after, rfl, hbefore, hjump⟩
    · rcases Nat.lt_or_ge (room items) last.depth with hjump | hroom
      · exact .inr ⟨items, last, [], rfl, hsteps, hjump⟩
      · exact .inl (stepwise_concat.mpr ⟨hsteps, hroom⟩)
    · exact .inr ⟨before, item, after ++ [last], by simp, hbefore, hjump⟩

/-! ## Paths of nodes -/

section Paths

variable (h : t.Linked)

include h

theorem Linked.pathOf_root : t.pathOf root = [] := by
  rw [h.pathOf_eq, h.parent?_root]

theorem Linked.pathOf_of_parent (hp : t.parent? x = some p) :
    t.pathOf x = t.pathOf p ++ [t.code x] := by
  rw [h.pathOf_eq, hp]

/-- A node below the root has a parent, which is the root or below it. -/
theorem Linked.parent_attached (hx : root ∈ t.ancestors x) :
    ∃ p, t.parent? x = some p ∧ t.Attached p := by
  obtain ⟨p, hp, hroot⟩ := h.mem_ancestors_iff.mp hx
  exact ⟨p, hp, hroot.imp_left Eq.symm⟩

theorem Linked.attached_of_parent (hp : t.parent? x = some p) (hattached : t.Attached p) :
    root ∈ t.ancestors x :=
  h.mem_ancestors_iff.mpr ⟨p, hp, hattached.imp_left Eq.symm⟩

/-- Siblings have different codes, so a path leads to one node. -/
theorem Linked.eq_of_pathOf_eq (hx : t.Attached x) (hy : t.Attached y)
    (hpath : t.pathOf x = t.pathOf y) : x = y := by
  induction x using Nat.strongRecOn generalizing y with
  | _ x ih =>
    rcases hx with rfl | hx <;> rcases hy with rfl | hy
    · rfl
    · obtain ⟨q, hq, -⟩ := h.parent_attached hy
      rw [h.pathOf_root, h.pathOf_of_parent hq] at hpath
      exact absurd hpath (by simp)
    · obtain ⟨p, hp, -⟩ := h.parent_attached hx
      rw [h.pathOf_root, h.pathOf_of_parent hp] at hpath
      exact absurd hpath (by simp)
    · obtain ⟨p, hp, hattached⟩ := h.parent_attached hx
      obtain ⟨q, hq, hattached'⟩ := h.parent_attached hy
      rw [h.pathOf_of_parent hp, h.pathOf_of_parent hq] at hpath
      obtain ⟨habove, hcode⟩ := List.append_inj' hpath rfl
      obtain rfl := ih p (h.parent_lt hp) hattached hattached' habove
      exact List.inj_on_of_nodup_map (h.codes_nodup p) (h.mem_children_iff.mpr hp)
        (h.mem_children_iff.mpr hq) (List.singleton_inj.mp hcode)

/-- Making a node changes no path. -/
theorem Linked.pathOf_pushChild_of_lt (hp : p < t.nodes.size)
    (hfree : code ∉ (t.children p).map t.code) (hx : x < t.nodes.size) :
    (t.pushChild p code).1.pathOf x = t.pathOf x :=
  (growsAt_pushChild hp code).pathOf_eq h (h.pushChild hp hfree) hx

theorem Linked.pathOf_pushChild_self (hp : p < t.nodes.size)
    (hfree : code ∉ (t.children p).map t.code) :
    (t.pushChild p code).1.pathOf t.nodes.size = t.pathOf p ++ [code] := by
  have hparent : (t.pushChild p code).1.parent? t.nodes.size = some p := by
    rw [parent?_pushChild, if_pos rfl]
  rw [(h.pushChild hp hfree).pathOf_of_parent hparent, h.pathOf_pushChild_of_lt hp hfree hp,
    code_pushChild, if_pos rfl]

theorem Linked.pathOf_child (hchild : t.child? p code = some x) :
    t.pathOf x = t.pathOf p ++ [code] := by
  obtain ⟨hx, rfl⟩ := of_child?_eq_some hchild
  exact h.pathOf_of_parent (h.mem_children_iff.mp hx)

end Paths

/-! ## The paths of a tree -/

/-- The nodes of a tree are those that paths lead to, and stand in the order of the paths. -/
structure Spells (t : CodeTree) (paths : List (List String)) : Prop where
  /-- The paths of the nodes below the root are the given ones. -/
  mem_iff : ∀ path, (∃ x, root ∈ t.ancestors x ∧ t.pathOf x = path) ↔ path ∈ paths
  /-- Each path is the path of one node. -/
  once : ∀ x y, root ∈ t.ancestors x → root ∈ t.ancestors y → t.pathOf x = t.pathOf y → x = y
  /-- Siblings stand in the order in which their paths come up first. -/
  ordered : ∀ p, t.Attached p → (t.children p).Pairwise fun c d =>
    paths.idxOf (t.pathOf c) < paths.idxOf (t.pathOf d)

theorem spells_new (total : String) : (new total).Spells [] where
  mem_iff path := by
    refine ⟨fun ⟨x, hx, _⟩ => ?_, fun h => absurd h List.not_mem_nil⟩
    obtain ⟨p, hp, -⟩ := (linked_new total).parent_attached hx
    exact absurd hp (by simp)
  once x _ hx := by
    obtain ⟨p, hp, -⟩ := (linked_new total).parent_attached hx
    exact absurd hp (by simp)
  ordered p _ := by
    rw [children_new]
    exact .nil

namespace Spells

variable {paths : List (List String)}

theorem mem_of_child (h : t.Spells paths) (hl : t.Linked) (hp : t.Attached p)
    (hx : x ∈ t.children p) : t.pathOf x ∈ paths :=
  (h.mem_iff _).mp ⟨x, hl.attached_of_parent (hl.mem_children_iff.mp hx) hp, rfl⟩

/-- The order of siblings is the same when more paths come up. -/
theorem ordered_append (h : t.Spells paths) (hl : t.Linked) (hp : t.Attached p)
    (more : List (List String)) : (t.children p).Pairwise fun c d =>
      (paths ++ more).idxOf (t.pathOf c) < (paths ++ more).idxOf (t.pathOf d) := by
  refine (h.ordered p hp).imp_of_mem fun hc hd hlt => ?_
  rwa [List.idxOf_append_of_mem (h.mem_of_child hl hp hc),
    List.idxOf_append_of_mem (h.mem_of_child hl hp hd)]

/-- A path that has come up before changes nothing. -/
theorem again (h : t.Spells paths) (hl : t.Linked) (hpath : path ∈ paths) :
    t.Spells (paths ++ [path]) where
  mem_iff other := by
    rw [h.mem_iff, List.mem_append, List.mem_singleton]
    exact ⟨.inl, fun hother => hother.elim id (· ▸ hpath)⟩
  once := h.once
  ordered _ hp := h.ordered_append hl hp [path]

section PushChild

variable (h : t.Spells paths) (hl : t.Linked) (hp : p < t.nodes.size) (hattached : t.Attached p)
  (hfree : code ∉ (t.children p).map t.code)

include h hl hattached hfree

/-- Where a node has no child of a code, the path there has not come up. -/
theorem not_mem_of_free : t.pathOf p ++ [code] ∉ paths := by
  rw [← h.mem_iff]
  rintro ⟨x, hx, hpath⟩
  obtain ⟨q, hq, hqattached⟩ := hl.parent_attached hx
  rw [hl.pathOf_of_parent hq] at hpath
  obtain ⟨habove, hcode⟩ := List.append_inj' hpath rfl
  obtain rfl := hl.eq_of_pathOf_eq hqattached hattached habove
  exact hfree (List.singleton_inj.mp hcode ▸ List.mem_map_of_mem (hl.mem_children_iff.mpr hq))

include hp

/-- The new node stands behind all its siblings, and all others are where they were. -/
theorem ordered_pushChild {q : Nat} (hq : t.Attached q) :
    ((t.pushChild p code).1.children q).Pairwise fun c d =>
      (paths ++ [t.pathOf p ++ [code]]).idxOf ((t.pushChild p code).1.pathOf c) <
        (paths ++ [t.pathOf p ++ [code]]).idxOf ((t.pushChild p code).1.pathOf d) := by
  have hpath : ∀ c ∈ t.children q, (t.pushChild p code).1.pathOf c = t.pathOf c := fun c hc =>
    hl.pathOf_pushChild_of_lt hp hfree (hl.child_lt_size hc)
  have hold : (t.children q).Pairwise fun c d =>
      (paths ++ [t.pathOf p ++ [code]]).idxOf ((t.pushChild p code).1.pathOf c) <
        (paths ++ [t.pathOf p ++ [code]]).idxOf ((t.pushChild p code).1.pathOf d) := by
    refine (h.ordered_append hl hq [t.pathOf p ++ [code]]).imp_of_mem fun hc hd hlt => ?_
    rwa [hpath _ hc, hpath _ hd]
  rw [children_pushChild hp]
  split
  · rename_i heq
    subst heq
    refine List.pairwise_append.mpr ⟨hold, List.pairwise_singleton _ _, fun c hc d hd => ?_⟩
    obtain rfl := List.mem_singleton.mp hd
    rw [hpath c hc, hl.pathOf_pushChild_self hp hfree,
      List.idxOf_append_of_mem (h.mem_of_child hl hq hc),
      List.idxOf_append_of_notMem (h.not_mem_of_free hl hattached hfree)]
    exact Nat.lt_add_right _ (List.idxOf_lt_length_of_mem (h.mem_of_child hl hq hc))
  · exact hold

/-- A path that has not come up before is that of a new node. -/
theorem pushChild : (t.pushChild p code).1.Spells (paths ++ [t.pathOf p ++ [code]]) := by
  have hlinked := hl.pushChild hp hfree
  have hbelow := fun x => hl.root_mem_ancestors_pushChild (x := x) hp hfree hattached
  have hself := hl.pathOf_pushChild_self hp hfree
  have hold : ∀ {x}, root ∈ t.ancestors x → (t.pushChild p code).1.pathOf x = t.pathOf x :=
    fun hx => hl.pathOf_pushChild_of_lt hp hfree (hl.lt_size_of_mem_ancestors hx)
  refine ⟨fun path => ?_, fun x y hx hy => hlinked.eq_of_pathOf_eq (.inr hx) (.inr hy),
    fun q hq => ?_⟩
  · rw [List.mem_append, List.mem_singleton, ← h.mem_iff]
    constructor
    · rintro ⟨x, hx, rfl⟩
      rcases (hbelow x).mp hx with rfl | hx
      · exact .inr hself
      · exact .inl ⟨x, hx, (hold hx).symm⟩
    · rintro (⟨x, hx, rfl⟩ | rfl)
      · exact ⟨x, (hbelow x).mpr (.inr hx), hold hx⟩
      · exact ⟨_, (hbelow _).mpr (.inl rfl), hself⟩
  · rcases hq with rfl | hq
    · exact h.ordered_pushChild hl hp hattached hfree (.inl rfl)
    · rcases (hbelow q).mp hq with rfl | hq
      · rw [children_pushChild_self hp]
        exact .nil
      · exact h.ordered_pushChild hl hp hattached hfree (.inr hq)

end PushChild

end Spells

/-! ## The reader -/

/-- What the reader has made of the lines so far. -/
structure Reading.Follows (items : List Item) (r : Reading) : Prop where
  /-- The open nodes are on the way down, each at its own depth. -/
  opened : r.Open
  /-- A node is open for every depth that the next line may have. -/
  length_levels : r.levels.length = room items + 1
  /-- The open node at a depth has the path that a line of this depth stands below. -/
  pathOf_level : ∀ {depth x}, r.levels[depth]? = some x →
    r.tree.pathOf x = pathAbove (located items) depth
  /-- The tree has the paths of the lines. -/
  spells : r.tree.Spells (pathsOf items)

namespace Reading.Follows

variable {items : List Item} {r : Reading}

theorem start (total : String) : Reading.Follows [] ⟨new total, [root]⟩ where
  opened := Reading.open_new total
  length_levels := rfl
  pathOf_level {depth x} hx := by
    obtain ⟨hdepth, rfl⟩ := List.getElem?_eq_some_iff.mp hx
    obtain rfl : depth = 0 := by simpa using hdepth
    exact (linked_new total).pathOf_root
  spells := spells_new total

/-- A line that jumps is refused. -/
theorem place_of_jump (h : r.Follows items) (line : Nat) {depth : Nat} (hjump : room items < depth)
    (code : String) :
    r.place line depth code = .error (.indentJump line (depth + 1) (room items)) := by
  rw [Reading.place, List.getElem?_eq_none (by rw [h.length_levels]; omega), h.length_levels]
  rfl

/-- The levels that are open after a line have the paths that the next line may stand below. -/
theorem pathOf_level_concat {u : CodeTree} {id : Nat} {item : Item} (h : r.Follows items)
    (hlevel : r.levels[item.depth]? = some p)
    (hold : ∀ x, x < r.tree.nodes.size → u.pathOf x = r.tree.pathOf x)
    (hid : u.pathOf id = r.tree.pathOf p ++ [item.code]) {depth : Nat}
    (hx : (r.levels.take (item.depth + 1) ++ [id])[depth]? = some x) :
    u.pathOf x = pathAbove (located (items ++ [item])) depth := by
  rw [located_concat]
  rcases level_of_append hlevel hx with ⟨hle, hx⟩ | ⟨rfl, rfl⟩
  · rw [pathAbove_withPath_of_le _ hle, ← h.pathOf_level hx]
    exact hold x (h.opened.sound.levels x (List.mem_of_getElem? hx))
  · rw [pathAbove_withPath_self, hid, h.pathOf_level hlevel]

/-- **A line that does not jump is read, and the tree has its path.** -/
theorem place (h : r.Follows items) {item : Item} (hroom : item.depth ≤ room items) :
    ∃ r', r.place item.line item.depth item.code = .ok r' ∧ r'.Follows (items ++ [item]) := by
  have hlt : item.depth < r.levels.length := by
    rw [h.length_levels]
    omega
  obtain ⟨p, hlevel⟩ : ∃ p, r.levels[item.depth]? = some p :=
    ⟨_, List.getElem?_eq_getElem hlt⟩
  have hl := h.opened.sound.tree.toLinked
  have hp := h.opened.sound.levels p (List.mem_of_getElem? hlevel)
  have hattached := (h.opened.level hlevel).1
  have hpath := h.pathOf_level hlevel
  have hlength : ∀ id, (r.levels.take (item.depth + 1) ++ [id]).length =
      room (items ++ [item]) + 1 := by
    intro id
    rw [List.length_append, length_take_levels hlevel, room_concat]
    rfl
  cases hchild : r.tree.child? p item.code with
  | some child =>
    have hplace : r.place item.line item.depth item.code =
        .ok ⟨r.tree, r.levels.take (item.depth + 1) ++ [child]⟩ := by
      rw [Reading.place, hlevel]
      simp only [createUnder, hchild]
    have hchildPath := hl.pathOf_child hchild
    refine ⟨_, hplace, (h.opened.place hplace).1, hlength child,
      h.pathOf_level_concat hlevel (fun _ _ => rfl) hchildPath, ?_⟩
    rw [pathsOf_concat, ← hpath]
    refine h.spells.again hl ((h.spells.mem_iff _).mp ⟨child, ?_, hchildPath⟩)
    exact hl.attached_of_parent (hl.mem_children_iff.mp (of_child?_eq_some hchild).1) hattached
  | none =>
    have hfree := child?_eq_none_iff.mp hchild
    have hplace : r.place item.line item.depth item.code =
        .ok ⟨(r.tree.pushChild p item.code).1,
          r.levels.take (item.depth + 1) ++ [r.tree.nodes.size]⟩ := by
      rw [Reading.place, hlevel]
      simp only [createUnder, hchild]
      rfl
    refine ⟨_, hplace, (h.opened.place hplace).1, hlength _,
      h.pathOf_level_concat hlevel (fun _ hx => hl.pathOf_pushChild_of_lt hp hfree hx)
        (hl.pathOf_pushChild_self hp hfree), ?_⟩
    rw [pathsOf_concat, ← hpath]
    exact h.spells.pushChild hl hp hattached hfree

end Reading.Follows

/-- Places lines one after another. -/
def Reading.placeAll (items : List Item) (r : Reading) : Except Fault Reading :=
  items.foldlM (fun r item => r.place item.line item.depth item.code) r

theorem Reading.placeAll_append (items more : List Item) (r : Reading) :
    r.placeAll (items ++ more) = r.placeAll items >>= Reading.placeAll more :=
  List.foldlM_append

theorem Reading.placeAll_cons (item : Item) (rest : List Item) (r : Reading) :
    r.placeAll (item :: rest) =
      r.place item.line item.depth item.code >>= Reading.placeAll rest :=
  List.foldlM_cons

/-- Reading lines is placing those that have a code. -/
theorem Reading.addLines_eq_placeAll (indent : String) (rows : List (Nat × String)) (r : Reading) :
    r.addLines indent (rows.map fun row => (row.1, some row.2)) =
      r.placeAll (rows.filterMap (item? indent)) := by
  induction rows generalizing r with
  | nil => rfl
  | cons row rest ih =>
    rw [List.map_cons, Reading.addLines_cons, List.filterMap_cons, item?]
    dsimp only
    split
    · rw [ih]
    · rw [Reading.placeAll_cons]
      exact congrArg _ (funext ih)

theorem ofIndented_eq (hindent : indent ≠ "") (text total : String) :
    ofIndented text indent total =
      (Reading.placeAll (itemsOf indent text) ⟨new total, [root]⟩).map (·.tree) := by
  have hrows : Text.numbered ((Text.lines text).map some) =
      (Text.numbered (Text.lines text)).map fun row => (row.1, some row.2) := by
    simp [Text.numbered, List.zipIdx_map, List.map_map, Function.comp_def]
  rw [ofIndented, ofIndentedLines, if_neg hindent, hrows, Reading.addLines_eq_placeAll]
  rfl

/-- Lines that go down step by step are all read. -/
theorem Stepwise.follows {items : List Item} (h : Stepwise items) (total : String) :
    ∃ r, Reading.placeAll items ⟨new total, [root]⟩ = .ok r ∧ r.Follows items := by
  induction items using List.reverseRecOn with
  | nil => exact ⟨_, rfl, .start total⟩
  | append_singleton items item ih =>
    obtain ⟨hsteps, hroom⟩ := stepwise_concat.mp h
    obtain ⟨r, hrun, hfollows⟩ := ih hsteps
    obtain ⟨r', hplace, hfollows'⟩ := hfollows.place hroom
    refine ⟨r', ?_, hfollows'⟩
    rw [Reading.placeAll_append, hrun, Fault.ok_bind, Reading.placeAll_cons, hplace]
    rfl

/-- A line that jumps ends the reading. -/
theorem Stepwise.placeAll_of_jump {before after : List Item} {item : Item} (h : Stepwise before)
    (hjump : room before < item.depth) (total : String) :
    Reading.placeAll (before ++ item :: after) ⟨new total, [root]⟩ =
      .error (.indentJump item.line (item.depth + 1) (room before)) := by
  obtain ⟨r, hrun, hfollows⟩ := h.follows total
  rw [Reading.placeAll_append, hrun, Fault.ok_bind, Reading.placeAll_cons,
    hfollows.place_of_jump item.line hjump]
  rfl

/-! ## The whole file -/

/-- The codes of a tree that was read are those of its lines. -/
theorem Spells.exists_item {items : List Item} (h : t.Spells (pathsOf items)) (hl : t.Linked)
    (hx : root ∈ t.ancestors x) : ∃ item ∈ items, t.code x = item.code := by
  obtain ⟨p, hp, -⟩ := hl.parent_attached hx
  obtain ⟨item, hitem, above, hpath⟩ := exists_item_of_mem_pathsOf ((h.mem_iff _).mp ⟨x, hx, rfl⟩)
  rw [hl.pathOf_of_parent hp] at hpath
  exact ⟨item, hitem, List.singleton_inj.mp (List.append_inj' hpath rfl).2⟩

theorem totalCode_of_ofIndented {text : String} (h : ofIndented text indent total = .ok t) :
    t.totalCode = total := by
  obtain ⟨_, _, _, hgrown⟩ := grown_of_ofIndentedLines h
  exact hgrown.totalCode_eq (linked_new total)

section File

variable (hindent : indent ≠ "") {text : String}

include hindent

theorem ofIndented_of_stepwise (hsteps : Stepwise (itemsOf indent text)) (total : String) :
    ∃ r : Reading, ofIndented text indent total = .ok r.tree ∧ r.Follows (itemsOf indent text) := by
  obtain ⟨r, hplaced, hfollows⟩ := hsteps.follows total
  refine ⟨r, ?_, hfollows⟩
  rw [ofIndented_eq hindent, hplaced]
  rfl

theorem ofIndented_of_jump {before after : List Item} {item : Item}
    (hitems : itemsOf indent text = before ++ item :: after) (hbefore : Stepwise before)
    (hjump : room before < item.depth) (total : String) :
    ofIndented text indent total =
      .error (.indentJump item.line (item.depth + 1) (room before)) := by
  rw [ofIndented_eq hindent, hitems, hbefore.placeAll_of_jump hjump]
  rfl

theorem stepwise_of_ofIndented (h : ofIndented text indent total = .ok t) :
    Stepwise (itemsOf indent text) := by
  rcases stepwise_or_jump (itemsOf indent text) with hsteps | ⟨_, _, _, hitems, hbefore, hjump⟩
  · exact hsteps
  · exact nomatch h.symm.trans (ofIndented_of_jump hindent hitems hbefore hjump total)

end File

/-- **A hierarchy file is read as the outline that it is.** The lines with a code are those that
have something besides blanks behind as many indents as there are. The file can be read exactly if
the first of them is at the top and none is more than one level below the one before. If not, the
first one that breaks this is the fault, with its number among all lines. And the tree that is read
has the paths of the lines and no others, each of them once, siblings in the order in which they
come up. -/
theorem ofIndented_outline (hindent : indent ≠ "") (text total : String) :
    (∀ item, item ∈ itemsOf indent text ↔ ∃ rest,
      (item.line, Text.repeatText item.depth indent ++ rest) ∈ Text.numbered (Text.lines text) ∧
        ¬ indent.toList <+: rest.toList ∧ item.code = Text.trim rest ∧ item.code ≠ "") ∧
    ((itemsOf indent text).Pairwise fun a b => a.line < b.line) ∧
    ((∃ t, ofIndented text indent total = .ok t) ↔ Stepwise (itemsOf indent text)) ∧
    (∀ fault, ofIndented text indent total = .error fault ↔ ∃ before item after,
      itemsOf indent text = before ++ item :: after ∧ Stepwise before ∧
        room before < item.depth ∧
        fault = .indentJump item.line (item.depth + 1) (room before)) ∧
    (∀ t, ofIndented text indent total = .ok t → t.totalCode = total ∧
      t.Spells (pathsOf (itemsOf indent text)) ∧
      ∀ x, root ∈ t.ancestors x → t.code x ≠ "" ∧ Text.IsTrimmed (t.code x)) := by
  refine ⟨fun item => mem_itemsOf_iff hindent, pairwise_itemsOf indent text,
    ⟨fun ⟨t, ht⟩ => stepwise_of_ofIndented hindent ht, fun hsteps => ?_⟩,
    fun fault => ⟨fun hfault => ?_, ?_⟩, fun t ht => ?_⟩
  · obtain ⟨r, hread, -⟩ := ofIndented_of_stepwise hindent hsteps total
    exact ⟨r.tree, hread⟩
  · rcases stepwise_or_jump (itemsOf indent text) with
      hsteps | ⟨before, item, after, hitems, hbefore, hjump⟩
    · obtain ⟨r, hread, -⟩ := ofIndented_of_stepwise hindent hsteps total
      exact nomatch hread.symm.trans hfault
    · have hrefused := ofIndented_of_jump hindent hitems hbefore hjump total
      exact ⟨before, item, after, hitems, hbefore, hjump,
        Except.error.inj (hfault.symm.trans hrefused)⟩
  · rintro ⟨before, item, after, hitems, hbefore, hjump, rfl⟩
    exact ofIndented_of_jump hindent hitems hbefore hjump total
  · obtain ⟨r, hread, hfollows⟩ :=
      ofIndented_of_stepwise hindent (stepwise_of_ofIndented hindent ht) total
    obtain rfl : r.tree = t := Except.ok.inj (hread.symm.trans ht)
    refine ⟨totalCode_of_ofIndented ht, hfollows.spells, fun x hx => ?_⟩
    obtain ⟨item, hitem, hcode⟩ :=
      hfollows.spells.exists_item hfollows.opened.sound.tree.toLinked hx
    obtain ⟨rest, _, _, htrim, hne⟩ := (mem_itemsOf_iff hindent).mp hitem
    rw [hcode]
    exact ⟨hne, htrim ▸ Text.isTrimmed_trim rest⟩

/-- A blank line that is deep, a line end of two characters, and a branch that comes again. -/
theorem provinces_outlined :
    (∃ t, ofIndented "A\n\n--B\r\n----C\nA\n--B\n------ \n--D" "--" "Total" = .ok t ∧
      t.Spells [["A"], ["A", "B"], ["A", "B", "C"], ["A"], ["A", "B"], ["A", "D"]]) ∧
    ofIndented "A\n\n----B\n" "--" "Total" = .error (.indentJump 3 3 1) := by
  have hindent : "--" ≠ "" := by decide
  constructor
  · have hitems : itemsOf "--" "A\n\n--B\r\n----C\nA\n--B\n------ \n--D" =
        [⟨1, 0, "A"⟩, ⟨3, 1, "B"⟩, ⟨4, 2, "C"⟩, ⟨5, 0, "A"⟩, ⟨6, 1, "B"⟩, ⟨8, 1, "D"⟩] := by
      decide +kernel
    obtain ⟨-, -, hreads, -, hspells⟩ := ofIndented_outline hindent
      "A\n\n--B\r\n----C\nA\n--B\n------ \n--D" "Total"
    rw [hitems] at hreads hspells
    obtain ⟨t, ht⟩ := hreads.mpr (by simp [Stepwise])
    exact ⟨t, ht, (hspells t ht).2.1⟩
  · obtain ⟨-, -, -, hfaults, -⟩ := ofIndented_outline hindent "A\n\n----B\n" "Total"
    refine (hfaults _).mpr ⟨[⟨1, 0, "A"⟩], ⟨3, 2, "B"⟩, [], by decide +kernel, ?_, by decide, rfl⟩
    simp [Stepwise]

end Disclosure.CodeTree
