import Disclosure.Proofs.CodeTree.Links
import Disclosure.Proofs.Forest
import Mathlib.Data.List.MinMax

/-!
# Walking along links that fit together

A code tree keeps every link twice, at the parent and at the child. `Linked` says that the two fit
together, and that a parent is always older than its children. From the second it follows that every
walk ends: up the numbers fall, and down they grow towards the number of nodes.

So the bound that the walks carry never cuts them short. `ancestors_eq` and `below_eq` say this:
each walk is one step and then the walk from there.
-/

namespace Disclosure.CodeTree

/-- The links of a tree fit together. -/
structure Linked (t : CodeTree) : Prop where
  /-- There is a root. -/
  hasRoot : root < t.nodes.size
  /-- Whose child a node is, and who its parent is, are the same question. -/
  mem_children_iff : ∀ {p c : Nat}, c ∈ t.children p ↔ t.parent? c = some p
  /-- Siblings have different codes. -/
  codes_nodup : ∀ p, ((t.children p).map t.code).Nodup
  /-- A parent is older than its children. -/
  parent_lt : ∀ {p c : Nat}, t.parent? c = some p → p < c

theorem linked_new (total : String) : (new total).Linked where
  hasRoot := Nat.zero_lt_one
  mem_children_iff := by simp
  codes_nodup := by simp
  parent_lt := by simp

theorem child?_eq_none_iff {t : CodeTree} {p : Nat} {code : String} :
    t.child? p code = none ↔ code ∉ (t.children p).map t.code := by
  simp [child?]

/-- A child that was found is a child, and has the code that was looked for. -/
theorem of_child?_eq_some {t : CodeTree} {p c : Nat} {code : String}
    (h : t.child? p code = some c) : c ∈ t.children p ∧ t.code c = code :=
  ⟨List.mem_of_find?_eq_some h, by simpa using List.find?_some h⟩

namespace Linked

variable {t : CodeTree} {p q c x a b : Nat}

theorem children_nodup (h : t.Linked) (p : Nat) : (t.children p).Nodup :=
  (h.codes_nodup p).of_map

theorem lt_size_of_parent (h : t.parent? c = some p) : c < t.nodes.size := by
  by_contra hc
  rw [parent?_of_size_le (Nat.le_of_not_lt hc)] at h
  exact absurd h (by simp)

theorem child_lt_size (h : t.Linked) (hc : c ∈ t.children p) : c < t.nodes.size :=
  lt_size_of_parent (h.mem_children_iff.mp hc)

theorem lt_child (h : t.Linked) (hc : c ∈ t.children p) : p < c :=
  h.parent_lt (h.mem_children_iff.mp hc)

theorem parent?_root (h : t.Linked) : t.parent? root = none := by
  cases hp : t.parent? root with
  | none => rfl
  | some p => exact absurd (h.parent_lt hp) (Nat.not_lt_zero p)

/-- A code tells which child it is. -/
theorem child?_eq_some_iff (h : t.Linked) {code : String} :
    t.child? p code = some c ↔ c ∈ t.children p ∧ t.code c = code := by
  refine ⟨of_child?_eq_some, fun ⟨hc, hcode⟩ => ?_⟩
  cases hfound : t.child? p code with
  | none => exact absurd (hcode ▸ List.mem_map_of_mem hc) (child?_eq_none_iff.mp hfound)
  | some other =>
    obtain ⟨hother, hsame⟩ := of_child?_eq_some hfound
    rw [List.inj_on_of_nodup_map (h.codes_nodup p) hother hc (hsame.trans hcode.symm)]

/-- What holds of a node as soon as it holds of its children holds of every node: children are
younger, and there are only so many nodes. -/
theorem below_induction (h : t.Linked) {P : Nat → Prop}
    (step : ∀ x, (∀ c ∈ t.children x, P c) → P x) (x : Nat) : P x := by
  induction hn : t.nodes.size - x using Nat.strongRecOn generalizing x with
  | _ n ih =>
    refine step x fun c hc => ih (t.nodes.size - c) ?_ c rfl
    have hlt := h.lt_child hc
    have hsize := h.child_lt_size hc
    omega

/-! ## The way up -/

theorem climb_congr (h : t.Linked) : ∀ (fuel fuel' : Nat) (x : Nat), x ≤ fuel → x ≤ fuel' →
    ancestors.climb t fuel x = ancestors.climb t fuel' x
  | 0, fuel', x, hx, _ => by
    obtain rfl := Nat.le_zero.mp hx
    have hroot := h.parent?_root
    cases fuel' with
    | zero => rfl
    | succ fuel' => rw [ancestors.climb, ancestors.climb, show t.parent? 0 = none from hroot]
  | fuel + 1, 0, x, _, hx => by
    obtain rfl := Nat.le_zero.mp hx
    rw [ancestors.climb, ancestors.climb, show t.parent? 0 = none from h.parent?_root]
  | fuel + 1, fuel' + 1, x, hx, hx' => by
    rw [ancestors.climb, ancestors.climb]
    cases hp : t.parent? x with
    | none => rfl
    | some p =>
      have hlt := h.parent_lt hp
      exact congrArg (p :: ·) (climb_congr h fuel fuel' p (by omega) (by omega))

/-- The way up is a step to the parent and the way up from there. -/
theorem ancestors_eq (h : t.Linked) (x : Nat) : t.ancestors x =
    match t.parent? x with
    | none => []
    | some p => p :: t.ancestors p := by
  obtain ⟨n, hn⟩ : ∃ n, t.nodes.size = n + 1 := Nat.exists_eq_succ_of_ne_zero h.hasRoot.ne'
  rw [ancestors, hn, ancestors.climb]
  cases hp : t.parent? x with
  | none => rfl
  | some p =>
    have hlt := h.parent_lt hp
    have hsize := lt_size_of_parent hp
    exact congrArg (p :: ·) (by rw [ancestors, hn]; exact h.climb_congr _ _ p (by omega) (by omega))

theorem mem_ancestors_iff (h : t.Linked) :
    a ∈ t.ancestors x ↔ ∃ p, t.parent? x = some p ∧ (a = p ∨ a ∈ t.ancestors p) := by
  rw [h.ancestors_eq x]
  cases t.parent? x <;> simp

theorem mem_ancestors_of_parent (h : t.Linked) (hp : t.parent? x = some p) : p ∈ t.ancestors x :=
  h.mem_ancestors_iff.mpr ⟨p, hp, .inl rfl⟩

theorem ancestors_trans (h : t.Linked) (hab : a ∈ t.ancestors b) (hbx : b ∈ t.ancestors x) :
    a ∈ t.ancestors x := by
  induction x using Nat.strongRecOn with
  | _ x ih =>
    obtain ⟨p, hp, hb⟩ := h.mem_ancestors_iff.mp hbx
    refine h.mem_ancestors_iff.mpr ⟨p, hp, .inr ?_⟩
    rcases hb with rfl | hb
    · exact hab
    · exact ih p (h.parent_lt hp) hb

/-- Whoever is above a node is older. -/
theorem lt_of_mem_ancestors (h : t.Linked) (ha : a ∈ t.ancestors x) : a < x := by
  induction x using Nat.strongRecOn with
  | _ x ih =>
    obtain ⟨p, hp, hap⟩ := h.mem_ancestors_iff.mp ha
    have hlt := h.parent_lt hp
    rcases hap with rfl | hap
    · exact hlt
    · exact (ih p hlt hap).trans hlt

theorem lt_size_of_mem_ancestors (h : t.Linked) (ha : a ∈ t.ancestors x) : x < t.nodes.size := by
  obtain ⟨p, hp, _⟩ := h.mem_ancestors_iff.mp ha
  exact lt_size_of_parent hp

/-! ## The way down -/

theorem forestOf_congr (h : t.Linked) : ∀ (fuel fuel' : Nat) (ids : List Nat),
    (∀ x ∈ ids, x < t.nodes.size ∧ t.nodes.size ≤ x + fuel ∧ t.nodes.size ≤ x + fuel') →
    t.forestOf fuel ids = t.forestOf fuel' ids
  | 0, fuel', ids, hids => by
    -- without fuel there is no node left to look at
    have hnil : ids = [] := List.eq_nil_iff_forall_not_mem.mpr fun x hx => by
      have := hids x hx
      omega
    subst hnil
    cases fuel' <;> rfl
  | fuel + 1, 0, ids, hids => by
    have hnil : ids = [] := List.eq_nil_iff_forall_not_mem.mpr fun x hx => by
      have := hids x hx
      omega
    subst hnil
    rfl
  | fuel + 1, fuel' + 1, ids, hids => by
    refine Forest.ofList_congr (fun x _ => rfl) fun x hx => ?_
    refine forestOf_congr h fuel fuel' _ fun c hc => ⟨h.child_lt_size hc, ?_⟩
    have hlt := h.lt_child hc
    have hbounds := hids x hx
    omega

/-- What is below a node are its children, each with what is below it. -/
theorem below_eq (h : t.Linked) (x : Nat) :
    t.below x = Forest.ofList id t.below (t.children x) := by
  obtain ⟨n, hn⟩ : ∃ n, t.nodes.size = n + 1 := Nat.exists_eq_succ_of_ne_zero h.hasRoot.ne'
  rw [below, hn]
  refine Forest.ofList_congr (fun c _ => rfl) fun c hc => ?_
  rw [below, hn]
  refine h.forestOf_congr _ _ _ fun d hd => ⟨h.child_lt_size hd, ?_⟩
  have hlt := h.lt_child hc
  have hlt' := h.lt_child hd
  omega

theorem codesBelow_eq (h : t.Linked) (x : Nat) :
    t.codesBelow x = Forest.ofList t.code t.codesBelow (t.children x) := by
  rw [codesBelow, h.below_eq, Forest.map_ofList]
  rfl

theorem mem_labels_below_of_child (h : t.Linked) (hp : p ∈ (t.below a).labels)
    (hx : x ∈ t.children p) : x ∈ (t.below a).labels := by
  induction a using h.below_induction with
  | step a ih =>
    rw [h.below_eq, Forest.mem_labels_ofList] at hp ⊢
    obtain ⟨c, hc, rfl | hp⟩ := hp
    · refine ⟨p, hc, .inr ?_⟩
      rw [h.below_eq, Forest.mem_labels_ofList]
      exact ⟨x, hx, .inl rfl⟩
    · exact ⟨c, hc, .inr (ih c hc hp)⟩

/-- A node is met on the way down from another exactly when that one is met on the way up. -/
theorem mem_labels_below (h : t.Linked) : x ∈ (t.below a).labels ↔ a ∈ t.ancestors x := by
  constructor
  · intro hx
    induction a using h.below_induction with
    | step a ih =>
      rw [h.below_eq, Forest.mem_labels_ofList] at hx
      obtain ⟨c, hc, rfl | hx⟩ := hx
      · exact h.mem_ancestors_of_parent (h.mem_children_iff.mp hc)
      · exact h.ancestors_trans (h.mem_ancestors_of_parent (h.mem_children_iff.mp hc)) (ih c hc hx)
  · intro ha
    induction x using Nat.strongRecOn with
    | _ x ih =>
      obtain ⟨p, hp, rfl | ha⟩ := h.mem_ancestors_iff.mp ha
      · rw [h.below_eq, Forest.mem_labels_ofList]
        exact ⟨x, h.mem_children_iff.mpr hp, .inl rfl⟩
      · exact h.mem_labels_below_of_child (ih p (h.parent_lt hp) ha) (h.mem_children_iff.mpr hp)

theorem distinct_codesBelow (h : t.Linked) (x : Nat) : (t.codesBelow x).Distinct := by
  induction x using h.below_induction with
  | step x ih =>
    rw [h.codesBelow_eq]
    exact Forest.distinct_ofList (h.codes_nodup x) ih

/-! ## The longest code -/

theorem longestCode_eq (t : CodeTree) :
    t.longestCode = (((t.below root).labels.map fun x => (t.code x).length).max?).getD 0 := by
  have hlabels : t.longestCode =
      ((t.below root).labels.map fun x => (t.code x).length).foldl max 0 := by
    rw [← Forest.map_fst_preorder (t.below root) 1, List.map_map]
    rfl
  rw [hlabels, List.foldl_max, Nat.zero_max]

theorem length_le_longestCode (h : t.Linked) (hx : root ∈ t.ancestors x) :
    (t.code x).length ≤ t.longestCode := by
  rw [longestCode_eq]
  exact List.le_max?_getD_of_mem (List.mem_map_of_mem (h.mem_labels_below.mpr hx))

/-- The longest code is the length of a code below the root, unless there is none. -/
theorem exists_longestCode (h : t.Linked) :
    (∃ x, root ∈ t.ancestors x ∧ (t.code x).length = t.longestCode) ∨
      t.longestCode = 0 ∧ ∀ x, root ∉ t.ancestors x := by
  rw [longestCode_eq]
  cases hmax : ((t.below root).labels.map fun x => (t.code x).length).max? with
  | none =>
    rw [List.max?_eq_none_iff, List.map_eq_nil_iff] at hmax
    refine .inr ⟨rfl, fun x hx => ?_⟩
    rw [← h.mem_labels_below, hmax] at hx
    exact absurd hx (by simp)
  | some longest =>
    obtain ⟨x, hx, hlength⟩ := List.mem_map.mp (List.max?_mem hmax)
    exact .inl ⟨x, h.mem_labels_below.mp hx, hlength⟩

end Linked

end Disclosure.CodeTree
