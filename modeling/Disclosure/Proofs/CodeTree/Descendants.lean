import Disclosure.CodeTree.Walk
import Disclosure.Proofs.CodeTree.Drawing
import Mathlib.Logic.Relation

/-!
# The nodes below a node

What is below a node can be told in three ways. By the links, it is whoever a chain of children leads
down to. By recursion, it is each child and then what is below that child. By steps, it is what a walk
hands out before it comes to its end.

That the walk agrees with the recursion is told of any stack: what comes out is, for each node on it
from the top down, the node and then what is below it. The induction goes up from the leaves, because
a step puts the children of a node on the stack in its place.

The depths tell where what is below a node ends: at the next node that is no deeper. So the codes in
pre-order with their depths tell the whole tree.
-/

namespace Disclosure

namespace Forest

variable {α : Type}

theorem le_of_mem_preorder {f : Forest α} {node : α × Nat} {depth : Nat}
    (h : node ∈ f.preorder depth) : depth ≤ node.2 := by
  induction f generalizing depth with
  | nil => exact absurd h List.not_mem_nil
  | cons label below next ihb ihn =>
    rw [preorder, List.mem_cons, List.mem_append] at h
    rcases h with rfl | h | h
    · exact Nat.le_refl _
    · exact (Nat.le_succ _).trans (ihb h)
    · exact ihn h

theorem depth_of_head_preorder (f : Forest α) (depth : Nat) :
    ∀ node ∈ (f.preorder depth).head?, node.2 = depth := by
  cases f with
  | nil => simp [preorder]
  | cons label below next => simp [preorder]

/-- **A forest is told by its labels in pre-order with their depths.** -/
theorem preorder_inj {f g : Forest α} {depth : Nat} (h : f.preorder depth = g.preorder depth) :
    f = g := by
  induction f generalizing g depth with
  | nil =>
    cases g with
    | nil => rfl
    | cons label below next => exact absurd h (by simp [preorder])
  | cons label below next ihb ihn =>
    cases g with
    | nil => exact absurd h (by simp [preorder])
    | cons other below' next' =>
      rw [preorder, preorder, List.cons.injEq, Prod.mk.injEq] at h
      obtain ⟨⟨rfl, -⟩, hrest⟩ := h
      -- what is below the label is deeper, and what comes after it begins no deeper
      have hdeeper : ∀ k : Forest α, ∀ node ∈ k.preorder (depth + 1),
          decide (depth < node.2) = true :=
        fun k node hnode => decide_eq_true (le_of_mem_preorder hnode)
      have hend : ∀ k : Forest α, ∀ node ∈ (k.preorder depth).head?,
          decide (depth < node.2) = false := by
        intro k node hnode
        simp [depth_of_head_preorder k depth node hnode]
      obtain ⟨hbelow, hnext⟩ := Text.append_inj_of_begin (hdeeper below) (hdeeper below')
        (hend next) (hend next') hrest
      rw [ihb hbelow, ihn hnext]

end Forest

namespace CodeTree

variable {s t : CodeTree} {a x : Nat} {w : Walk} {items others : List (NodeId × Nat)}

/-! ## By steps -/

/-- The walk hands out these nodes one after the other, and then it is at its end. -/
inductive Walk.Yields (t : CodeTree) : Walk → List (NodeId × Nat) → Prop where
  | done {w : Walk} : w.next? t = none → Yields t w []
  | step {w rest : Walk} {node : NodeId × Nat} {items : List (NodeId × Nat)} :
      w.next? t = some (node, rest) → Yields t rest items → Yields t w (node :: items)

/-- A walk can go in one way only. -/
theorem Walk.Yields.eq (h : w.Yields t items) (h' : w.Yields t others) : items = others := by
  induction h generalizing others with
  | done hend =>
    cases h' with
    | done => rfl
    | step hnext => exact absurd (hend.symm.trans hnext) (by simp)
  | step hnext _ ih =>
    cases h' with
    | done hend => exact absurd (hend.symm.trans hnext) (by simp)
    | step hother hrest =>
      obtain ⟨rfl, rfl⟩ := Prod.mk.inj (Option.some.inj (hnext.symm.trans hother))
      rw [ih hrest]

@[simp] theorem Walk.push_eq (w : Walk) (ids : List NodeId) (depth : Nat) :
    w.push ids depth = ⟨ids.map (·, depth) ++ w.stack⟩ := by
  rw [push, List.foldl_reverse]
  congr 1
  induction ids with
  | nil => rfl
  | cons id ids ih => rw [List.foldr_cons, ih, List.map_cons, List.cons_append]

/-- Nodes of one depth come out one after the other, each in front of what is below it. -/
theorem Walk.yields_row {ids : List NodeId} (depth : Nat) {stack : List (NodeId × Nat)}
    (hids : ∀ id ∈ ids, ∀ depth {stack items}, (Walk.mk stack).Yields t items →
      (Walk.mk ((id, depth) :: stack)).Yields t
        ((id, depth) :: ((t.below id).preorder (depth + 1) ++ items)))
    (h : (Walk.mk stack).Yields t items) :
    (Walk.mk (ids.map (·, depth) ++ stack)).Yields t
      ((Forest.ofList id t.below ids).preorder depth ++ items) := by
  induction ids with
  | nil => exact h
  | cons id ids ih =>
    rw [List.forall_mem_cons] at hids
    have hfirst := hids.1 depth (ih hids.2)
    rw [← List.append_assoc] at hfirst
    exact hfirst

namespace Linked

variable (h : t.Linked)

include h

/-- **A node comes out in front of what is below it.** -/
theorem yields_node (x depth : Nat) {stack : List (NodeId × Nat)}
    (hstack : (Walk.mk stack).Yields t items) :
    (Walk.mk ((x, depth) :: stack)).Yields t
      ((x, depth) :: ((t.below x).preorder (depth + 1) ++ items)) := by
  induction x using h.below_induction generalizing depth stack items with
  | step x ih =>
    have hnext : (Walk.mk ((x, depth) :: stack)).next? t =
        some ((x, depth), ⟨(t.children x).map (·, depth + 1) ++ stack⟩) := by
      simp [Walk.next?]
    rw [h.below_eq]
    exact .step hnext (Walk.yields_row _ (fun c hc depth _ _ hrest => ih c hc depth hrest) hstack)

theorem yields_walkBelow_iff (a : Nat) :
    (t.walkBelow a).Yields t items ↔ items = t.descendants a := by
  have hyields : (t.walkBelow a).Yields t (t.descendants a) := by
    have hdone : (Walk.mk []).Yields t [] := .done rfl
    have hrow := Walk.yields_row 1
      (fun c (_ : c ∈ t.children a) depth _ _ hrest => h.yields_node c depth hrest) hdone
    rw [List.append_nil, List.append_nil, ← h.below_eq] at hrow
    rw [walkBelow, Walk.push_eq, List.append_nil]
    exact hrow
  constructor
  · exact fun hitems => hitems.eq hyields
  · rintro rfl
    exact hyields

/-! ## By recursion and by the links -/

theorem descendants_eq (a : Nat) : t.descendants a =
    (t.children a).flatMap fun child =>
      (child, 1) :: (t.descendants child).map fun (x, depth) => (x, depth + 1) := by
  have hrow : ∀ ids : List NodeId, (Forest.ofList id t.below ids).preorder 1 =
      ids.flatMap fun child =>
        (child, 1) :: (t.descendants child).map fun (x, depth) => (x, depth + 1) := by
    intro ids
    induction ids with
    | nil => rfl
    | cons child ids ih =>
      rw [Forest.ofList_cons, Forest.preorder, ih, List.flatMap_cons, Forest.preorder_succ]
      rfl
  rw [descendants, h.below_eq, hrow]

theorem mem_ancestors_iff_transGen :
    a ∈ t.ancestors x ↔ Relation.TransGen (fun p c => c ∈ t.children p) a x := by
  constructor
  · intro ha
    induction x using Nat.strongRecOn with
    | _ x ih =>
      obtain ⟨p, hp, hap⟩ := h.mem_ancestors_iff.mp ha
      have hchild := h.mem_children_iff.mpr hp
      rcases hap with rfl | hap
      · exact .single hchild
      · exact .tail (ih p (h.parent_lt hp) hap) hchild
  · intro hchain
    induction hchain with
    | single hchild => exact h.mem_ancestors_of_parent (h.mem_children_iff.mp hchild)
    | tail _ hchild ih =>
      exact h.ancestors_trans ih (h.mem_ancestors_of_parent (h.mem_children_iff.mp hchild))

end Linked

/-! ## Trees -/

/-- The same tree, told by the codes in pre-order with their depths. -/
theorem same_iff_descendants (s t : CodeTree) : s.same t = true ↔
    s.totalCode = t.totalCode ∧
      ((s.descendants root).map fun (x, depth) => (depth, s.code x)) =
        (t.descendants root).map fun (x, depth) => (depth, t.code x) := by
  have hcodes : ∀ u : CodeTree, ((u.descendants root).map fun (x, depth) => (depth, u.code x)) =
      (u.content.preorder 1).map Prod.swap := by
    intro u
    rw [content, codesBelow, Forest.preorder_map, List.map_map]
    rfl
  rw [same, hcodes, hcodes, (List.map_injective_iff.mpr Prod.swap_injective).eq_iff]
  simp only [Bool.and_eq_true, decide_eq_true_iff]
  exact and_congr_right fun _ => ⟨fun h => h ▸ rfl, Forest.preorder_inj⟩

/-- **The nodes that a walk hands out are those below its start**, each once, in the order of the
recursion and with the depth that it has below the start. Trees are the same exactly when their total
codes are, and what these walks tell of codes and depths. -/
theorem Reachable.descendants_exact (ht : t.Reachable) :
    (∀ a,
      (∀ items, (t.walkBelow a).Yields t items ↔ items = t.descendants a) ∧
      (t.descendants a = (t.children a).flatMap fun child =>
        (child, 1) :: (t.descendants child).map fun (x, depth) => (x, depth + 1)) ∧
      ((t.descendants a).map Prod.fst).Nodup ∧
      (∀ x, x ∈ (t.descendants a).map Prod.fst ↔
        Relation.TransGen (fun p c => c ∈ t.children p) a x) ∧
      ∀ x depth, (x, depth) ∈ t.descendants a → t.depth x = t.depth a + depth) ∧
    ∀ s : CodeTree, s.same t = true ↔ s.totalCode = t.totalCode ∧
      ((s.descendants root).map fun (x, depth) => (depth, s.code x)) =
        (t.descendants root).map fun (x, depth) => (depth, t.code x) := by
  have h := ht.sound.toLinked
  refine ⟨fun a => ⟨fun items => h.yields_walkBelow_iff a, h.descendants_eq a, ?_, fun x => ?_,
    fun x depth hx => ?_⟩, fun s => same_iff_descendants s t⟩
  · rw [descendants, Forest.map_fst_preorder]
    exact h.nodup_labels_below a
  · rw [descendants, Forest.map_fst_preorder, h.mem_labels_below, h.mem_ancestors_iff_transGen]
  · have hdepth := h.depth_of_mem_preorder hx
    omega

/-- Two trees with the same nodes at other numbers. -/
theorem twoBranches_descendants :
    ((treeOfPaths [["A", "A1"], ["B"], ["A", "A2"]]).walkBelow root).Yields
        (treeOfPaths [["A", "A1"], ["B"], ["A", "A2"]]) [(1, 1), (2, 2), (4, 2), (3, 1)] ∧
      (treeOfPaths [["A", "A1"], ["A", "A2"], ["B"]]).same
        (treeOfPaths [["A", "A1"], ["B"], ["A", "A2"]]) = true := by
  have hexact := (reachable_treeOfPaths [["A", "A1"], ["B"], ["A", "A2"]]).descendants_exact
  exact ⟨((hexact.1 root).1 _).mpr (by decide), (hexact.2 _).mpr (by decide)⟩

end CodeTree

end Disclosure
