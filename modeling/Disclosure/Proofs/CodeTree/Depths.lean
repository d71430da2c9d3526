import Disclosure.Proofs.CodeTree.Reachable
import Mathlib.Algebra.GroupWithZero.Nat
import Mathlib.Algebra.Order.BigOperators.Group.List
import Mathlib.Algebra.Order.Group.Nat
import Mathlib.Data.List.Perm.Basic

/-!
# How far down the codes of a tree are

The way down meets every node once and counts the same depth that the way up does. So the number of
nodes below the root and the sum of their depths can be read off from the content of a tree, and each
new node makes the first grow by one and the second by its own depth.
-/

namespace Disclosure.CodeTree

variable {t u : CodeTree} {a b p x k d : Nat} {code : String}

namespace Linked

/-! ## Depths on the way up -/

theorem depth_root (h : t.Linked) : t.depth root = 0 := by
  rw [h.depth_eq, h.parent?_root]

theorem depth_of_parent (h : t.Linked) (hp : t.parent? x = some p) :
    t.depth x = t.depth p + 1 := by
  rw [h.depth_eq, hp]

theorem depth_lt (h : t.Linked) (ha : a ∈ t.ancestors x) : t.depth a < t.depth x := by
  induction x using Nat.strongRecOn with
  | _ x ih =>
    obtain ⟨p, hp, hap⟩ := h.mem_ancestors_iff.mp ha
    rw [h.depth_of_parent hp]
    rcases hap with rfl | hap
    · exact Nat.lt_succ_self _
    · exact (ih p (h.parent_lt hp) hap).trans (Nat.lt_succ_self _)

/-- On the way up there is one node of each depth. -/
theorem eq_of_depth_eq (h : t.Linked) (ha : a = x ∨ a ∈ t.ancestors x)
    (hb : b = x ∨ b ∈ t.ancestors x) (hab : t.depth a = t.depth b) : a = b := by
  induction x using Nat.strongRecOn with
  | _ x ih =>
    rcases ha with rfl | ha
    · rcases hb with rfl | hb
      · rfl
      · exact absurd hab (h.depth_lt hb).ne'
    · rcases hb with rfl | hb
      · exact absurd hab (h.depth_lt ha).ne
      · obtain ⟨p, hp, ha⟩ := h.mem_ancestors_iff.mp ha
        obtain ⟨q, hq, hb⟩ := h.mem_ancestors_iff.mp hb
        obtain rfl := Option.some.inj (hp.symm.trans hq)
        exact ih p (h.parent_lt hp) ha hb

/-! ## Depths on the way down -/

/-- Going down from a node counts on from its depth. -/
theorem depth_of_mem_preorder (h : t.Linked) (hx : (x, d) ∈ (t.below a).preorder k) :
    t.depth x + k = d + t.depth a + 1 := by
  induction a using h.below_induction generalizing k with
  | step a ih =>
    rw [h.below_eq, Forest.mem_preorder_ofList] at hx
    obtain ⟨c, hc, heq | hx⟩ := hx
    · have hdepth := h.depth_of_parent (h.mem_children_iff.mp hc)
      obtain ⟨hxc, hdk⟩ := Prod.mk.inj heq
      rw [hxc, hdk, show t.depth (id c) = t.depth a + 1 from hdepth]
      omega
    · have hdepth := ih c hc hx
      rw [h.depth_of_parent (h.mem_children_iff.mp hc)] at hdepth
      omega

/-- Going down from a node meets no node twice. -/
theorem nodup_labels_below (h : t.Linked) (a : Nat) : (t.below a).labels.Nodup := by
  induction a using h.below_induction with
  | step a ih =>
    rw [h.below_eq, Forest.labels_ofList]
    refine List.nodup_flatMap.mpr ⟨fun c hc => List.nodup_cons.mpr ⟨fun hself => ?_, ih c hc⟩, ?_⟩
    · exact Nat.lt_irrefl c (h.lt_of_mem_ancestors (h.mem_labels_below.mp hself))
    · -- two children have the same depth, so only one of them is on the way up from a node
      refine (h.children_nodup a).imp_of_mem fun {c e} hc he hne x hxc hxe => hne ?_
      have hup : ∀ {y}, x ∈ y :: (t.below y).labels → y = x ∨ y ∈ t.ancestors x := by
        intro y hy
        exact (List.mem_cons.mp hy).imp Eq.symm h.mem_labels_below.mp
      refine h.eq_of_depth_eq (hup hxc) (hup hxe) ?_
      rw [h.depth_of_parent (h.mem_children_iff.mp hc), h.depth_of_parent (h.mem_children_iff.mp he)]

end Linked

/-! ## The sum of all depths -/

/-- The sum of the depths of all nodes below the root. -/
def depthSum (t : CodeTree) : Nat :=
  ((t.descendants root).map Prod.snd).sum

theorem map_snd_descendants (t : CodeTree) :
    (t.descendants root).map Prod.snd = (t.content.preorder 0).map fun node => node.2 + 1 := by
  rw [descendants, content, codesBelow, Forest.preorder_map, Forest.preorder_succ, List.map_map,
    List.map_map]
  rfl

theorem length_preorder_content (t : CodeTree) : (t.content.preorder 0).length = t.size := by
  have hlength := congrArg List.length (map_snd_descendants t)
  simpa [size] using hlength.symm

/-- What the tree says fixes the number of nodes and the sum of their depths. -/
theorem size_eq_of_content (h : u.content = t.content) : u.size = t.size := by
  rw [← length_preorder_content u, h, length_preorder_content]

theorem depthSum_eq_of_content (h : u.content = t.content) : u.depthSum = t.depthSum := by
  rw [depthSum, depthSum, map_snd_descendants, map_snd_descendants, h]

theorem size_eq_length_labels (t : CodeTree) : t.size = (t.below root).labels.length := by
  rw [size, descendants, ← Forest.map_fst_preorder _ 1, List.length_map]

/-- The codes in the content are those of the nodes below the root. -/
theorem Linked.mem_labels_content (h : t.Linked) {code : String} :
    code ∈ t.content.labels ↔ ∃ x, root ∈ t.ancestors x ∧ t.code x = code := by
  simp only [content, codesBelow, Forest.labels_map, List.mem_map, h.mem_labels_below]

theorem Linked.depthSum_eq (h : t.Linked) :
    t.depthSum = ((t.below root).labels.map t.depth).sum := by
  rw [depthSum, descendants, ← Forest.map_fst_preorder _ 1, List.map_map]
  refine congrArg List.sum (List.map_congr_left fun node hnode => ?_)
  have hdepth := h.depth_of_mem_preorder hnode
  rw [h.depth_root] at hdepth
  rw [Function.comp_apply]
  omega

/-! ## One more node -/

theorem GrowsAt.ancestors_eq (hgrow : GrowsAt t p u) (h : t.Linked) (h' : u.Linked)
    (hx : x < t.nodes.size) : u.ancestors x = t.ancestors x := by
  induction x using Nat.strongRecOn with
  | _ x ih =>
    rw [h.ancestors_eq, h'.ancestors_eq, hgrow.parent?_eq x hx]
    cases hp : t.parent? x with
    | none => rfl
    | some q =>
      have hlt := h.parent_lt hp
      exact congrArg (q :: ·) (ih q hlt (hlt.trans hx))

/-- Nodes that were there have the same path. -/
theorem GrowsAt.pathOf_eq (hgrow : GrowsAt t p u) (h : t.Linked) (h' : u.Linked)
    (hx : x < t.nodes.size) : u.pathOf x = t.pathOf x := by
  rw [pathOf, pathOf, hgrow.ancestors_eq h h' hx]
  refine congrArg List.reverse (List.map_congr_left fun y hy => hgrow.code_eq y ?_)
  rcases List.mem_cons.mp ((List.dropLast_sublist _).mem hy) with rfl | hy
  · exact hx
  · exact (h.lt_of_mem_ancestors hy).trans hx

/-- The root, or a node below it. -/
def Attached (t : CodeTree) (x : Nat) : Prop :=
  x = root ∨ root ∈ t.ancestors x

section PushChild

variable (h : t.Linked) (hp : p < t.nodes.size) (hfree : code ∉ (t.children p).map t.code)

include h hp hfree

theorem Linked.ancestors_pushChild_of_lt (hx : x < t.nodes.size) :
    (t.pushChild p code).1.ancestors x = t.ancestors x :=
  (growsAt_pushChild hp code).ancestors_eq h (h.pushChild hp hfree) hx

theorem Linked.ancestors_pushChild_self :
    (t.pushChild p code).1.ancestors t.nodes.size = p :: t.ancestors p := by
  rw [(h.pushChild hp hfree).ancestors_eq, parent?_pushChild, if_pos rfl]
  exact congrArg (p :: ·) (h.ancestors_pushChild_of_lt hp hfree hp)

theorem Linked.depth_pushChild_of_lt (hx : x < t.nodes.size) :
    (t.pushChild p code).1.depth x = t.depth x := by
  rw [depth, h.ancestors_pushChild_of_lt hp hfree hx, depth]

theorem Linked.depth_pushChild_self :
    (t.pushChild p code).1.depth t.nodes.size = t.depth p + 1 := by
  rw [depth, h.ancestors_pushChild_self hp hfree, List.length_cons, depth]

/-- Below the root are the nodes that were there and the new one. -/
theorem Linked.root_mem_ancestors_pushChild (hattached : t.Attached p) :
    root ∈ (t.pushChild p code).1.ancestors x ↔ x = t.nodes.size ∨ root ∈ t.ancestors x := by
  have hlinked := h.pushChild hp hfree
  have hself : root ∈ (t.pushChild p code).1.ancestors t.nodes.size := by
    rw [h.ancestors_pushChild_self hp hfree, List.mem_cons]
    exact hattached.imp_left Eq.symm
  constructor
  · intro hx
    have hlt := hlinked.lt_size_of_mem_ancestors hx
    rw [size_pushChild] at hlt
    rcases Nat.lt_or_eq_of_le (Nat.le_of_lt_succ hlt) with hlt | heq
    · exact .inr (by rwa [h.ancestors_pushChild_of_lt hp hfree hlt] at hx)
    · exact .inl heq
  · rintro (rfl | hx)
    · exact hself
    · rwa [h.ancestors_pushChild_of_lt hp hfree (h.lt_size_of_mem_ancestors hx)]

theorem Linked.perm_labels_pushChild (hattached : t.Attached p) :
    ((t.pushChild p code).1.below root).labels.Perm (t.nodes.size :: (t.below root).labels) := by
  have hlinked := h.pushChild hp hfree
  have hnew : t.nodes.size ∉ (t.below root).labels := fun hin =>
    Nat.lt_irrefl _ (h.lt_size_of_mem_ancestors (h.mem_labels_below.mp hin))
  refine (List.perm_ext_iff_of_nodup (hlinked.nodup_labels_below root)
    (List.nodup_cons.mpr ⟨hnew, h.nodup_labels_below root⟩)).mpr fun x => ?_
  rw [hlinked.mem_labels_below, h.root_mem_ancestors_pushChild hp hfree hattached, List.mem_cons,
    h.mem_labels_below]

/-- Below the root are the codes that were there and the new one. -/
theorem Linked.mem_labels_pushChild (hattached : t.Attached p) {other : String} :
    other ∈ (t.pushChild p code).1.content.labels ↔ other = code ∨ other ∈ t.content.labels := by
  rw [(h.pushChild hp hfree).mem_labels_content, h.mem_labels_content]
  constructor
  · rintro ⟨x, hx, rfl⟩
    rcases (h.root_mem_ancestors_pushChild hp hfree hattached).mp hx with rfl | hold
    · exact .inl (by rw [code_pushChild, if_pos rfl])
    · refine .inr ⟨x, hold, ?_⟩
      rw [(growsAt_pushChild hp code).code_eq x (h.lt_size_of_mem_ancestors hold)]
  · rintro (rfl | ⟨x, hx, rfl⟩)
    · refine ⟨t.nodes.size, ?_, by rw [code_pushChild, if_pos rfl]⟩
      exact (h.root_mem_ancestors_pushChild hp hfree hattached).mpr (.inl rfl)
    · refine ⟨x, (h.root_mem_ancestors_pushChild hp hfree hattached).mpr (.inr hx), ?_⟩
      rw [(growsAt_pushChild hp _).code_eq x (h.lt_size_of_mem_ancestors hx)]

theorem Linked.size_pushChild_content (hattached : t.Attached p) :
    (t.pushChild p code).1.size = t.size + 1 := by
  rw [size_eq_length_labels, (h.perm_labels_pushChild hp hfree hattached).length_eq,
    List.length_cons, ← size_eq_length_labels]

theorem Linked.depthSum_pushChild (hattached : t.Attached p) :
    (t.pushChild p code).1.depthSum = t.depthSum + (t.depth p + 1) := by
  have hold : (t.below root).labels.map (t.pushChild p code).1.depth =
      (t.below root).labels.map t.depth := List.map_congr_left fun x hx =>
    h.depth_pushChild_of_lt hp hfree (h.lt_size_of_mem_ancestors (h.mem_labels_below.mp hx))
  rw [(h.pushChild hp hfree).depthSum_eq,
    ((h.perm_labels_pushChild hp hfree hattached).map _).sum_eq, List.map_cons, List.sum_cons, hold,
    h.depth_pushChild_self hp hfree, ← h.depthSum_eq, Nat.add_comm]

end PushChild

end Disclosure.CodeTree
