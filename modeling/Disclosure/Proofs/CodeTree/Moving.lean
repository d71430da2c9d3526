import Disclosure.Proofs.CodeTree.Paths

/-!
# Taking a branch out and putting it in

Detaching cuts one link, so what is below the node can no longer be reached by a path, and all else
is found where it was. The tree that is handed out is a copy with the same codes. Appending makes one
child and copies codes below it, so just the paths through that child are new, and they go on as the
paths of the appended tree do.

A branch that is taken out and put in again at its old place has only moved behind its siblings.
`moveLast` is that tree, with the very same nodes; what calls make of it has copies of them, and says
the same.
-/

namespace Disclosure

/-! ## Paths in a forest -/

/-- Whether a path of labels leads down through a forest. -/
def Forest.Leads {α : Type} : Forest α → List α → Prop
  | _, [] => True
  | .nil, _ :: _ => False
  | .cons label below next, first :: rest =>
    (label = first ∧ below.Leads rest) ∨ next.Leads (first :: rest)

theorem Forest.leads_ofList {α β : Type} {label : α → β} {below : α → Forest β} {xs : List α}
    {first : β} {rest : List β} : (ofList label below xs).Leads (first :: rest) ↔
      ∃ x ∈ xs, label x = first ∧ (below x).Leads rest := by
  induction xs with
  | nil => simp [Leads]
  | cons x xs ih => simp [Leads, ih]

namespace CodeTree

variable {t u s : CodeTree} {n p q x : Nat} {path rest : List String}

/-- Where paths from a node lead is known from the codes below it. -/
theorem Linked.isSome_follow?_iff (h : t.Linked) (x : Nat) (path : List String) :
    (t.follow? x path).isSome ↔ (t.codesBelow x).Leads path := by
  induction path generalizing x with
  | nil => simp [follow?, Forest.Leads]
  | cons code rest ih =>
    rw [h.codesBelow_eq, Forest.leads_ofList, follow?, Option.isSome_bind, Option.any_eq_true]
    constructor
    · rintro ⟨c, hchild, hrest⟩
      obtain ⟨hc, hcode⟩ := of_child?_eq_some hchild
      exact ⟨c, hc, hcode, (ih c).mp hrest⟩
    · rintro ⟨c, hc, hcode, hrest⟩
      exact ⟨c, h.child?_eq_some_iff.mpr ⟨hc, hcode⟩, (ih c).mpr hrest⟩

/-- Or below the one node, or that node itself: this is where its path begins theirs. -/
theorem Linked.pathOf_prefix_iff (h : t.Linked) (hn : t.Attached n) (hx : t.Attached x) :
    t.pathOf n <+: t.pathOf x ↔ n = x ∨ n ∈ t.ancestors x := by
  induction x using Nat.strongRecOn with
  | _ x ih =>
    rcases hx with rfl | hx
    · rw [h.pathOf_root, List.prefix_nil]
      constructor
      · intro hpath
        exact .inl (h.eq_of_pathOf_eq hn (.inl rfl) (hpath.trans h.pathOf_root.symm))
      · rintro (rfl | hnone)
        · exact h.pathOf_root
        · exact absurd (h.lt_of_mem_ancestors hnone) (Nat.not_lt_zero n)
    · obtain ⟨q, hq, hattached⟩ := h.parent_attached hx
      have hself : t.pathOf n = t.pathOf x ↔ n = x := by
        constructor
        · exact h.eq_of_pathOf_eq hn (.inr hx)
        · exact congrArg t.pathOf
      have hup : n ∈ t.ancestors x ↔ n = q ∨ n ∈ t.ancestors q := by
        rw [h.mem_ancestors_iff]
        simp [hq]
      rw [h.pathOf_of_parent hq, List.prefix_concat_iff, ← h.pathOf_of_parent hq, hself, hup,
        ih q (h.parent_lt hq) hattached]

/-! ## Taking a branch out -/

section Unlink

variable (h : t.Linked) (hp : t.parent? n = some p)

include h hp

theorem Linked.ancestors_unlink (hx : ¬ (n = x ∨ n ∈ t.ancestors x)) :
    (t.unlink p n).ancestors x = t.ancestors x := by
  induction x using Nat.strongRecOn with
  | _ x ih =>
    rw [not_or] at hx
    rw [(h.unlink hp).ancestors_eq, h.ancestors_eq, parent?_unlink, if_neg (Ne.symm hx.1)]
    cases hq : t.parent? x with
    | none => rfl
    | some q =>
      have hup : ¬ (n = q ∨ n ∈ t.ancestors q) := by
        intro habove
        exact hx.2 (h.mem_ancestors_iff.mpr ⟨q, hq, habove⟩)
      exact congrArg (q :: ·) (ih q (h.parent_lt hq) hup)

theorem Linked.pathOf_unlink (hx : ¬ (n = x ∨ n ∈ t.ancestors x)) :
    (t.unlink p n).pathOf x = t.pathOf x := by
  rw [pathOf, pathOf, h.ancestors_unlink hp hx]
  exact congrArg List.reverse (List.map_congr_left fun y _ => code_unlink y)

/-- The node and all that is below it have lost the root. -/
theorem Linked.not_attached_unlink (hx : n = x ∨ n ∈ t.ancestors x) :
    ¬ (t.unlink p n).Attached x := by
  induction x using Nat.strongRecOn with
  | _ x ih =>
    rintro (rfl | hroot)
    · rcases hx with rfl | hx
      · exact absurd (h.parent?_root.symm.trans hp) (by simp)
      · exact absurd (h.lt_of_mem_ancestors hx) (Nat.not_lt_zero n)
    · obtain ⟨q, hq, hattached⟩ := (h.unlink hp).parent_attached hroot
      rw [parent?_unlink] at hq
      split at hq
      · exact absurd hq (by simp)
      · rename_i hne
        rcases hx with rfl | hx
        · exact hne rfl
        · obtain ⟨q', hq', hup⟩ := h.mem_ancestors_iff.mp hx
          obtain rfl := Option.some.inj (hq'.symm.trans hq)
          exact ih q' (h.parent_lt hq') hup hattached

theorem Linked.attached_unlink_iff :
    (t.unlink p n).Attached x ↔ t.Attached x ∧ ¬ (n = x ∨ n ∈ t.ancestors x) := by
  by_cases hx : n = x ∨ n ∈ t.ancestors x
  · exact iff_of_false (h.not_attached_unlink hp hx) fun hboth => hboth.2 hx
  · unfold Attached
    rw [h.ancestors_unlink hp hx]
    exact (and_iff_left hx).symm

/-- A path leads to what it led to, unless that is gone. -/
theorem Linked.get?_unlink_eq_some_iff : (t.unlink p n).get? path = some x ↔
    t.get? path = some x ∧ ¬ (n = x ∨ n ∈ t.ancestors x) := by
  rw [(h.unlink hp).get?_eq_some_iff, h.get?_eq_some_iff, h.attached_unlink_iff hp]
  constructor
  · rintro ⟨⟨hattached, hx⟩, hpath⟩
    exact ⟨⟨hattached, (h.pathOf_unlink hp hx).symm.trans hpath⟩, hx⟩
  · rintro ⟨⟨hattached, hpath⟩, hx⟩
    exact ⟨⟨hattached, hx⟩, (h.pathOf_unlink hp hx).trans hpath⟩

/-- No sibling has the code of a node, so once it is gone its code is free. -/
theorem Linked.code_free_unlink :
    t.code n ∉ ((t.unlink p n).children p).map (t.unlink p n).code := by
  have hn := h.mem_children_iff.mpr hp
  rintro htaken
  obtain ⟨c, hc, hcode⟩ := List.mem_map.mp htaken
  rw [children_unlink, if_pos rfl, List.mem_filter, bne_iff_ne] at hc
  rw [code_unlink] at hcode
  exact hc.2 (List.inj_on_of_nodup_map (h.codes_nodup p) hc.1 hn hcode)

/-- **No path at or below the path of the node leads anywhere now.** -/
theorem Linked.get?_unlink_of_prefix (hn : t.Attached n) (hpath : t.pathOf n <+: path) :
    (t.unlink p n).get? path = none := by
  refine Option.eq_none_iff_forall_ne_some.mpr fun x hx => ?_
  obtain ⟨hfound, hgone⟩ := (h.get?_unlink_eq_some_iff hp).mp hx
  obtain ⟨hattached, rfl⟩ := h.of_get?_eq_some hfound
  exact hgone ((h.pathOf_prefix_iff hn hattached).mp hpath)

/-- **Every other path leads where it led.** -/
theorem Linked.get?_unlink_of_not_prefix (hn : t.Attached n) (hpath : ¬ t.pathOf n <+: path) :
    (t.unlink p n).get? path = t.get? path := by
  refine Option.ext fun x => ?_
  rw [h.get?_unlink_eq_some_iff hp]
  refine and_iff_left_of_imp fun hfound hbelow => hpath ?_
  obtain ⟨hattached, rfl⟩ := h.of_get?_eq_some hfound
  exact (h.pathOf_prefix_iff hn hattached).mpr hbelow

end Unlink

/-! ## Putting a branch in -/

namespace Appended

variable {code : String} {below : Forest String} (h : Appended t q code below u) (hl : t.Linked)
  (hq : t.Attached q)

include h

theorem parent?_new : u.parent? t.nodes.size = some q := by
  rw [← h.sound.mem_children_iff, h.children_eq]
  simp

include hl

theorem attached_iff (hx : x < t.nodes.size) : u.Attached x ↔ t.Attached x := by
  unfold Attached
  rw [h.grows.ancestors_eq hl h.sound.toLinked hx]

theorem pathOf_eq (hx : x < t.nodes.size) : u.pathOf x = t.pathOf x :=
  h.grows.pathOf_eq hl h.sound.toLinked hx

/-- A node that is new stands at or below the new child: only there did the tree grow. -/
theorem new_below (hnew : t.nodes.size ≤ x) (hx : u.Attached x) :
    t.nodes.size = x ∨ t.nodes.size ∈ u.ancestors x := by
  induction x using Nat.strongRecOn with
  | _ x ih =>
    rcases hx with rfl | hx
    · exact absurd hl.hasRoot (Nat.not_lt.mpr hnew)
    · obtain ⟨r, hr, hattached⟩ := h.sound.parent_attached hx
      have hup : ∀ a, a = r ∨ a ∈ u.ancestors r → a ∈ u.ancestors x := by
        intro a ha
        exact h.sound.mem_ancestors_iff.mpr ⟨r, hr, ha⟩
      by_cases hlt : r < t.nodes.size
      · -- a child of an old node that is new itself can only be the new child
        have hchild := h.sound.mem_children_iff.mpr hr
        by_cases hrq : r = q
        · rw [hrq, h.children_eq, List.mem_append, List.mem_singleton] at hchild
          rcases hchild with hold | hchild
          · exact absurd (hl.child_lt_size hold) (Nat.not_lt.mpr hnew)
          · exact .inl hchild.symm
        · rw [h.grows.children_eq r hlt hrq] at hchild
          exact absurd (hl.child_lt_size hchild) (Nat.not_lt.mpr hnew)
      · exact .inr (hup _ (ih r (h.sound.parent_lt hr) (Nat.not_lt.mp hlt) hattached))

include hq

theorem pathOf_new : u.Attached t.nodes.size ∧
    u.pathOf t.nodes.size = t.pathOf q ++ [code] := by
  have hlt := hl.attached_lt_size hq
  refine ⟨.inr (h.sound.attached_of_parent h.parent?_new ((h.attached_iff hl hlt).mpr hq)), ?_⟩
  rw [h.sound.pathOf_of_parent h.parent?_new, h.code_eq, h.pathOf_eq hl hlt]

/-- **Paths that do not go through the new child lead where they led.** -/
theorem get?_of_not_prefix (hpath : ¬ t.pathOf q ++ [code] <+: path) :
    u.get? path = t.get? path := by
  obtain ⟨hattached, hnew⟩ := h.pathOf_new hl hq
  refine Option.ext fun x => ?_
  rw [h.sound.get?_eq_some_iff, hl.get?_eq_some_iff]
  constructor
  · rintro ⟨hx, rfl⟩
    rcases Nat.lt_or_ge x t.nodes.size with hlt | hge
    · exact ⟨(h.attached_iff hl hlt).mp hx, (h.pathOf_eq hl hlt).symm⟩
    · have hbelow := h.new_below hl hge hx
      rw [← hnew, h.sound.pathOf_prefix_iff hattached hx] at hpath
      exact absurd hbelow hpath
  · rintro ⟨hx, rfl⟩
    have hlt := hl.attached_lt_size hx
    exact ⟨(h.attached_iff hl hlt).mpr hx, h.pathOf_eq hl hlt⟩

/-- **Paths through the new child go on as those in the forest below it.** -/
theorem isSome_get?_iff (rest : List String) :
    (u.get? (t.pathOf q ++ code :: rest)).isSome ↔ below.Leads rest := by
  obtain ⟨hattached, hnew⟩ := h.pathOf_new hl hq
  have hchild : u.get? (t.pathOf q ++ [code]) = some t.nodes.size := by
    rw [← hnew]
    exact h.sound.get?_pathOf hattached
  rw [List.append_cons, get?, follow?_append, show u.follow? root _ = _ from hchild,
    Option.bind_some, h.sound.isSome_follow?_iff, h.codesBelow_eq]

end Appended

/-! ## Out and in again -/

/-- The tree with a child of a node moved behind all its siblings. -/
def moveLast (t : CodeTree) (p n : NodeId) : CodeTree :=
  { t with
    nodes := t.nodes.modify p fun node =>
      { node with children := node.children.filter (· != n) ++ [n] } }

@[simp] theorem size_moveLast : (t.moveLast p n).nodes.size = t.nodes.size := by
  simp [moveLast]

@[simp] theorem code_moveLast (x : Nat) : (t.moveLast p n).code x = t.code x := by
  simp only [CodeTree.code, moveLast, Array.getElem?_modify]
  split <;> simp [Function.comp_def]

@[simp] theorem parent?_moveLast (x : Nat) : (t.moveLast p n).parent? x = t.parent? x := by
  simp only [parent?, moveLast, Array.getElem?_modify]
  split <;> simp [Option.bind_map]

theorem children_moveLast (hp : p < t.nodes.size) (x : Nat) : (t.moveLast p n).children x =
    if x = p then (t.children p).filter (· != n) ++ [n] else t.children x := by
  simp only [children, moveLast, Array.getElem?_modify]
  by_cases hx : x = p
  · subst hx
    simp [hp]
  · simp [hx, Ne.symm hx]

theorem Linked.moveLast (h : t.Linked) (hp : t.parent? n = some p) : (t.moveLast p n).Linked := by
  have hlt : p < t.nodes.size := (h.parent_lt hp).trans (Linked.lt_size_of_parent hp)
  have hn : n ∈ t.children p := h.mem_children_iff.mpr hp
  have hperm : ∀ q, ((t.moveLast p n).children q).Perm (t.children q) := by
    intro q
    rw [children_moveLast hlt]
    split
    · rename_i hq
      rw [hq, ← (h.children_nodup p).erase_eq_filter]
      exact List.perm_append_singleton _ _ |>.trans (List.perm_cons_erase hn).symm
    · exact List.Perm.refl _
  constructor
  · simpa using h.hasRoot
  · intro q c
    rw [(hperm q).mem_iff, parent?_moveLast]
    exact h.mem_children_iff
  · intro q
    rw [show (t.moveLast p n).code = t.code from funext code_moveLast]
    exact ((hperm q).map t.code).nodup_iff.mpr (h.codes_nodup q)
  · intro q c hq
    rw [parent?_moveLast] at hq
    exact h.parent_lt hq

section Moved

variable (h : t.Linked) (hp : t.parent? n = some p)

include h hp

theorem Linked.codesBelow_moveLast_self : (t.moveLast p n).codesBelow n = t.codesBelow n := by
  have hlt : p < t.nodes.size := (h.parent_lt hp).trans (Linked.lt_size_of_parent hp)
  refine h.codesBelow_congr (h.moveLast hp) (P := fun x => n = x ∨ n ∈ t.ancestors x) ?_ ?_
    (fun x _ => code_moveLast x) n (.inl rfl)
  · intro x hx c hc
    have hparent := h.mem_children_iff.mp hc
    exact .inr (h.mem_ancestors_iff.mpr ⟨x, hparent, hx⟩)
  · intro x hx
    -- the parent is older than the node, and so it is none of those below
    have hne : x ≠ p := by
      rintro rfl
      rcases hx with rfl | hx
      · exact absurd (h.parent_lt hp) (Nat.lt_irrefl n)
      · exact absurd (h.parent_lt hp) (h.lt_of_mem_ancestors hx).not_gt
    rw [children_moveLast hlt, if_neg hne]

/-- A copy of the branch below the new child says what the branch itself says behind its siblings.
The induction goes up from the leaves, over all nodes that have kept the root. -/
theorem Appended.codesBelow_eq_moveLast
    (hu : Appended (t.unlink p n) p (t.code n) (t.codesBelow n) u) (x : Nat)
    (hx : x < t.nodes.size) (hkept : ¬ (n = x ∨ n ∈ t.ancestors x)) :
    u.codesBelow x = (t.moveLast p n).codesBelow x := by
  have hlt : p < t.nodes.size := (h.parent_lt hp).trans (Linked.lt_size_of_parent hp)
  induction x using h.below_induction with
  | step x ih =>
    have hcode : ∀ c, c ∈ t.children x → u.code c = (t.moveLast p n).code c := by
      intro c hc
      rw [hu.grows.code_eq c (by simpa using h.child_lt_size hc), code_unlink, code_moveLast]
    have hbelow : ∀ c, c ∈ t.children x → c ≠ n →
        u.codesBelow c = (t.moveLast p n).codesBelow c := by
      intro c hc hne
      refine ih c hc (h.child_lt_size hc) ?_
      rintro (rfl | habove)
      · exact hne rfl
      · obtain ⟨y, hy, hup⟩ := h.mem_ancestors_iff.mp habove
        obtain rfl := Option.some.inj (hy.symm.trans (h.mem_children_iff.mp hc))
        exact hkept hup
    rw [hu.sound.codesBelow_eq, (h.moveLast hp).codesBelow_eq, children_moveLast hlt]
    by_cases hxp : x = p
    · subst hxp
      have hsiblings : ∀ c ∈ (t.children x).filter (· != n), c ∈ t.children x ∧ c ≠ n := by
        intro c hc
        simpa using hc
      rw [if_pos rfl, hu.children_eq, children_unlink, if_pos rfl, size_unlink,
        Forest.ofList_append, Forest.ofList_append, Forest.ofList_cons, Forest.ofList_cons]
      rw [Forest.ofList_congr (fun c hc => hcode c (hsiblings c hc).1)
        (fun c hc => hbelow c (hsiblings c hc).1 (hsiblings c hc).2)]
      have hnew := hu.code_eq
      have hcopy := hu.codesBelow_eq
      rw [size_unlink] at hnew hcopy
      rw [hnew, hcopy, code_moveLast, h.codesBelow_moveLast_self hp]
      rfl
    · have hne : ∀ c ∈ t.children x, c ≠ n := by
        rintro c hc rfl
        exact hxp (Option.some.inj ((h.mem_children_iff.mp hc).symm.trans hp))
      rw [if_neg hxp, hu.grows.children_eq x (by simpa using hx) hxp, children_unlink, if_neg hxp]
      exact Forest.ofList_congr hcode fun c hc => hbelow c hc (hne c hc)

/-- **What was taken out and put in again has moved behind its siblings.** -/
theorem Appended.same_moveLast
    (hu : Appended (t.unlink p n) p (t.code n) (t.codesBelow n) u) :
    u.same (t.moveLast p n) = true := by
  have hkept : ¬ (n = root ∨ n ∈ t.ancestors root) := by
    rintro (rfl | hn)
    · exact absurd (h.parent?_root.symm.trans hp) (by simp)
    · exact absurd (h.lt_of_mem_ancestors hn) (Nat.not_lt_zero n)
  have htotal : u.totalCode = (t.moveLast p n).totalCode := by
    rw [totalCode, totalCode, hu.grows.code_eq root (by simpa using h.hasRoot), code_unlink,
      code_moveLast]
  have hcontent : u.content = (t.moveLast p n).content :=
    hu.codesBelow_eq_moveLast h hp root h.hasRoot hkept
  simp [same, htotal, hcontent]

end Moved

/-- **Detaching takes out a branch and nothing else, and appending puts in a tree and nothing else.**
What is handed out is the branch; no path at or below its own leads anywhere any more, all others
lead where they led, and it cannot be taken out twice. Put in again below its old parent, it has moved
behind its siblings, and that is all. Whatever tree is appended anywhere, paths through its total code
go on as they do in it, and all others lead where they led. -/
theorem Reachable.detach_append_exact (h : t.Reachable) :
    (∀ n p, root ∈ t.ancestors n → t.parent? n = some p →
      ∃ rest part, t.detach n = .ok (rest, part) ∧
        (part.totalCode = t.code n ∧ part.content = t.codesBelow n) ∧
        (∀ path, t.pathOf n <+: path → rest.get? path = none) ∧
        (∀ path, ¬ t.pathOf n <+: path → rest.get? path = t.get? path) ∧
        rest.detach n = .error .detachRoot ∧
        ∃ u m, rest.append p part = .ok (u, m) ∧ u.same (t.moveLast p n) = true) ∧
    ∀ q s u m, t.Attached q → s.Reachable → t.append q s = .ok (u, m) →
      (∀ rest, (u.get? (t.pathOf q ++ s.totalCode :: rest)).isSome ↔ (s.get? rest).isSome) ∧
      ∀ path, ¬ t.pathOf q ++ [s.totalCode] <+: path → u.get? path = t.get? path := by
  have hl := h.sound.toLinked
  constructor
  · intro n p hn hp
    have htotal := hl.totalCode_copyOf n
    have hcontent := hl.content_copyOf n
    have hdetach : t.detach n = .ok (t.unlink p n, t.copyOf n) := by
      rw [detach, hp]
    have hagain : (t.unlink p n).detach n = .error .detachRoot := by
      rw [detach, parent?_unlink, if_pos rfl]
    have hlt : p < (t.unlink p n).nodes.size := by
      rw [size_unlink]
      exact (hl.parent_lt hp).trans (Linked.lt_size_of_parent hp)
    have hfree := hl.code_free_unlink hp
    refine ⟨_, _, hdetach, ⟨htotal, hcontent⟩, ?_, ?_, hagain, ?_⟩
    · intro path hpath
      exact hl.get?_unlink_of_prefix hp (.inr hn) hpath
    · intro path hpath
      exact hl.get?_unlink_of_not_prefix hp (.inr hn) hpath
    · rcases append_cases (t.unlink p n) p (t.copyOf n) with ⟨htaken, -⟩ | ⟨-, happend⟩
      · exact absurd (htotal ▸ htaken) hfree
      · refine ⟨_, _, happend, ?_⟩
        rw [htotal, hcontent]
        exact ((hl.unlink hp).appended_graft hlt hfree (hl.distinct_codesBelow n)).same_moveLast hl hp
  · intro q s u m hq hs happend
    have hsl := hs.sound.toLinked
    rcases t.append_cases q s with ⟨-, hfails⟩ | ⟨hfree, hruns⟩
    · exact absurd (hfails.symm.trans happend) (by simp)
    · obtain ⟨rfl, -⟩ := Prod.mk.inj (Except.ok.inj (hruns.symm.trans happend))
      have hu := hl.appended_tree (hl.attached_lt_size hq) hsl hfree
      constructor
      · intro rest
        exact (hu.isSome_get?_iff hl hq rest).trans (hsl.isSome_follow?_iff root rest).symm
      · intro path hpath
        exact hu.get?_of_not_prefix hl hq hpath

/-- A tree with a branch of three levels and another beside it. -/
def twoBranches : CodeTree :=
  ofRows [["A", "A1", "X"], ["A", "A2"], ["B"]] "Total"

theorem twoBranches_moved :
    (twoBranches.moveLast root 1).same
        (ofRows [["B"], ["A", "A1", "X"], ["A", "A2"]] "Total") = true ∧
      (∃ rest part, twoBranches.detach 1 = .ok (rest, part) ∧
        part.same (ofRows [["A1", "X"], ["A2"]] "A") = true ∧
        rest.get? ["A", "A1", "X"] = none ∧ rest.get? ["B"] = some 5 ∧
        rest.detach 1 = .error .detachRoot ∧
        ∃ u m, rest.append root part = .ok (u, m) ∧
          u.same (twoBranches.moveLast root 1) = true) ∧
      ∃ u m, twoBranches.append 5 (ofRows [["B", "A1"]] "A") = .ok (u, m) ∧
        (u.get? ["B", "A", "B", "A1"]).isSome = true ∧ (u.get? ["B", "A", "A1"]).isSome = false ∧
        u.get? ["A", "A1", "X"] = some 3 := by
  have htree : twoBranches.Reachable := .ofRows _ _
  have hpart := Reachable.ofRows [["B", "A1"]] "A"
  refine ⟨by decide, ?_, ?_⟩
  · obtain ⟨rest, part, hdetach, ⟨htotal, hcontent⟩, hgone, hkept, hagain, u, m, happend, hmoved⟩ :=
      htree.detach_append_exact.1 1 root (by decide) (by decide)
    refine ⟨rest, part, hdetach, ?_, hgone _ (by decide), ?_, hagain, u, m, happend, hmoved⟩
    · rw [same, htotal, hcontent]
      decide
    · rw [hkept ["B"] (by decide)]
      decide
  · obtain ⟨hgrafted, hkept⟩ :=
      htree.detach_append_exact.2 5 (ofRows [["B", "A1"]] "A") _ _ (.inr (by decide)) hpart rfl
    refine ⟨_, _, rfl, ?_, ?_, ?_⟩
    · exact (hgrafted ["B", "A1"]).mpr (by decide)
    · rw [Bool.eq_false_iff]
      exact (hgrafted ["A1"]).not.mpr (by decide)
    · rw [hkept ["A", "A1", "X"] (by decide)]
      decide

end CodeTree

end Disclosure
