import Disclosure.Proofs.CodeTree.Outline

/-!
# The nodes of a tree in pre-order

What a tree says is a forest of codes, and its rows, its pairs and its levels are read off from that
forest. Here they are told by the nodes: a row is the path of a node with nothing below it, and a pair
is the code of a node with the code of its parent. Both come in the order of the walk down.

On that walk a node comes behind all nodes above it. So whoever goes through the pairs one by one has
seen the parent of a node before the node itself.
-/

namespace Disclosure.CodeTree

variable {t : CodeTree} {a p x y : Nat}

/-- A code with the code right above it; above the top level stands the total code. -/
def pairOf (t : CodeTree) (x : NodeId) : String × String :=
  (t.code x, t.code ((t.parent? x).getD root))

/-- All codes are different, the total code among them. -/
def CodesApart (t : CodeTree) : Prop :=
  (t.totalCode :: t.content.labels).Nodup

instance (t : CodeTree) : Decidable t.CodesApart :=
  inferInstanceAs (Decidable (List.Nodup _))

theorem pairOf_of_parent (hp : t.parent? x = some p) : t.pairOf x = (t.code x, t.code p) := by
  rw [pairOf, hp]
  rfl

namespace Linked

variable (h : t.Linked)

include h

theorem attached_iff : t.Attached x ↔ x ∈ root :: (t.below root).labels := by
  rw [Attached, List.mem_cons, h.mem_labels_below]

omit h in
theorem map_code_labels :
    (root :: (t.below root).labels).map t.code = t.totalCode :: t.content.labels := by
  rw [content, codesBelow, Forest.labels_map]
  rfl

/-- Where all codes are different, a code tells the node. -/
theorem eq_of_code_eq (hapart : t.CodesApart) (hx : t.Attached x) (hy : t.Attached y)
    (hcode : t.code x = t.code y) : x = y := by
  rw [CodesApart, ← map_code_labels] at hapart
  exact List.inj_on_of_nodup_map hapart (h.attached_iff.mp hx) (h.attached_iff.mp hy) hcode

/-- Nodes above an attached node are attached. -/
theorem attached_of_mem_ancestors (hx : t.Attached x) (ha : a ∈ t.ancestors x) : t.Attached a := by
  induction x using Nat.strongRecOn with
  | _ x ih =>
    obtain ⟨p, hp, hap⟩ := h.mem_ancestors_iff.mp ha
    rcases hx with rfl | hx
    · exact absurd (h.parent?_root.symm.trans hp) (by simp)
    · obtain ⟨q, hq, hattached⟩ := h.parent_attached hx
      obtain rfl := Option.some.inj (hq.symm.trans hp)
      rcases hap with rfl | hap
      · exact hattached
      · exact ih q (h.parent_lt hq) hattached hap

theorem attached_of_above (hx : t.Attached x) (ha : a = x ∨ a ∈ t.ancestors x) : t.Attached a := by
  rcases ha with rfl | ha
  · exact hx
  · exact h.attached_of_mem_ancestors hx ha

/-! ## Leaves and rows -/

theorem isEmpty_below (x : Nat) : (t.below x).isEmpty = t.isLeaf x := by
  rw [h.below_eq, Forest.isEmpty_ofList, isLeaf]

theorem isEmpty_codesBelow (x : Nat) : (t.codesBelow x).isEmpty = t.isLeaf x := by
  rw [h.codesBelow_eq, Forest.isEmpty_ofList, isLeaf]

theorem labels_below_of_isLeaf (hx : t.isLeaf x = true) : (t.below x).labels = [] := by
  rw [h.below_eq, List.isEmpty_iff.mp hx]
  rfl

/-- The leaves are the nodes with nothing below them, in pre-order. -/
theorem leaves_below (a : Nat) : (t.below a).leaves = (t.below a).labels.filter t.isLeaf := by
  induction a using h.below_induction with
  | step a ih =>
    rw [h.below_eq, Forest.leaves_ofList, Forest.labels_ofList, List.filter_flatMap]
    refine List.flatMap_congr fun c hc => ?_
    rw [h.isEmpty_below]
    cases hleaf : t.isLeaf c with
    | true => simp [hleaf, h.labels_below_of_isLeaf hleaf]
    | false => simp [hleaf, ih c hc]

/-- Behind the path of a node, the rows of codes below it are the paths of the leaves there. -/
theorem rows_codesBelow (a : Nat) :
    (t.codesBelow a).rows.map (t.pathOf a ++ ·) = (t.below a).leaves.map t.pathOf := by
  induction a using h.below_induction with
  | step a ih =>
    rw [h.codesBelow_eq, h.below_eq, Forest.rows_ofList, Forest.leaves_ofList, List.map_flatMap,
      List.map_flatMap]
    refine List.flatMap_congr fun c hc => ?_
    have hpath := h.pathOf_of_parent (h.mem_children_iff.mp hc)
    rw [h.isEmpty_below, h.isEmpty_codesBelow]
    cases hleaf : t.isLeaf c with
    | true => simp [hpath]
    | false => simp [← ih c hc, hpath]

/-- **The rows of a tree are the paths of its leaves.** -/
theorem toRows_eq : t.toRows = t.leaves.map t.pathOf := by
  have hrows := h.rows_codesBelow root
  rw [h.pathOf_root] at hrows
  simpa [toRows, content, leaves] using hrows

/-! ## Pairs -/

theorem relations_codesBelow (a : Nat) :
    (t.codesBelow a).relations (t.code a) = (t.below a).labels.map t.pairOf := by
  induction a using h.below_induction with
  | step a ih =>
    rw [h.codesBelow_eq, h.below_eq, Forest.relations_ofList, Forest.labels_ofList,
      List.map_flatMap]
    refine List.flatMap_congr fun c hc => ?_
    rw [ih c hc, List.map_cons, id_eq, pairOf_of_parent (h.mem_children_iff.mp hc)]

/-- **The pairs of a tree are those of its nodes, in pre-order.** -/
theorem toRelations_eq : t.toRelations = (t.below root).labels.map t.pairOf :=
  h.relations_codesBelow root

/-! ## Parents come first -/

/-- No node comes behind one that it is above. -/
theorem pairwise_labels_below (a : Nat) :
    (t.below a).labels.Pairwise fun x y => y ∉ t.ancestors x := by
  induction a using h.below_induction with
  | step a ih =>
    have hup : ∀ {c x}, x ∈ c :: (t.below c).labels → c = x ∨ c ∈ t.ancestors x := by
      intro c x hx
      exact (List.mem_cons.mp hx).imp Eq.symm h.mem_labels_below.mp
    rw [h.below_eq, Forest.labels_ofList]
    refine List.pairwise_flatMap.mpr ⟨fun c hc => List.pairwise_cons.mpr ⟨fun y hy habove => ?_,
      ih c hc⟩, ?_⟩
    · have hlt := h.lt_of_mem_ancestors (h.mem_labels_below.mp hy)
      exact hlt.not_gt (h.lt_of_mem_ancestors habove)
    · -- of two children, only one is on the way up from a node
      refine (h.children_nodup a).imp_of_mem fun {c e} hc he hne x hx y hy habove => hne ?_
      have hey : e = x ∨ e ∈ t.ancestors x := by
        rcases hup hy with rfl | hy
        · exact .inr habove
        · exact .inr (h.ancestors_trans hy habove)
      refine h.eq_of_depth_eq (hup hx) hey ?_
      rw [h.depth_of_parent (h.mem_children_iff.mp hc), h.depth_of_parent (h.mem_children_iff.mp he)]

/-- The parent of a node comes before it. -/
theorem parent_before {before after : List Nat} (hsplit : (t.below a).labels = before ++ x :: after) :
    ∃ p, t.parent? x = some p ∧ (p = a ∨ p ∈ before) := by
  have hx : x ∈ (t.below a).labels := by simp [hsplit]
  obtain ⟨p, hp, hap⟩ := h.mem_ancestors_iff.mp (h.mem_labels_below.mp hx)
  refine ⟨p, hp, hap.imp Eq.symm fun hap => ?_⟩
  have hpx := h.mem_ancestors_of_parent hp
  have hpairs := h.pairwise_labels_below a
  rw [← h.mem_labels_below, hsplit, List.mem_append, List.mem_cons] at hap
  rw [hsplit, List.pairwise_append, List.pairwise_cons] at hpairs
  rcases hap with hap | rfl | hap
  · exact hap
  · exact absurd hpx fun hself => Nat.lt_irrefl _ (h.lt_of_mem_ancestors hself)
  · exact absurd hpx (hpairs.2.1.1 p hap)

/-- What is carried from each node to the next holds of the whole walk. A node comes behind its
parent, and is not met again. -/
theorem preorder_induction {motive : List Nat → Prop} (a : Nat) (nil : motive [])
    (step : ∀ before x p, motive before → a ∈ t.ancestors x → x ∉ before → t.parent? x = some p →
      (p = a ∨ p ∈ before) → motive (before ++ [x])) : motive (t.below a).labels := by
  have hfronts : ∀ before after, (t.below a).labels = before ++ after → motive before := by
    intro before
    induction before using List.reverseRecOn with
    | nil => exact fun _ _ => nil
    | append_singleton before x ih =>
      intro after hsplit
      rw [List.append_assoc, List.singleton_append] at hsplit
      obtain ⟨p, hp, hbefore⟩ := h.parent_before hsplit
      have hx : x ∈ (t.below a).labels := by simp [hsplit]
      have hnodup := h.nodup_labels_below a
      rw [hsplit, List.nodup_append] at hnodup
      have hfresh : x ∉ before := fun hin => hnodup.2.2 x hin x List.mem_cons_self rfl
      exact step before x p (ih _ hsplit) (h.mem_labels_below.mp hx) hfresh hp hbefore
  exact hfronts _ [] (List.append_nil _).symm

end Linked

end Disclosure.CodeTree
