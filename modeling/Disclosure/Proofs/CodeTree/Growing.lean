import Disclosure.Proofs.CodeTree.Walks

/-!
# Changing a tree keeps its links

A tree is **sound** when its links fit together and the length it remembers, if it remembers one, is
the length of its longest code. Every change of a tree keeps this, as long as it is made at a node
there is: each one is a new code, a new node or a cut link, and what is remembered is forgotten
wherever it could be wrong.

Growing a tree at a node leaves all other nodes alone. `GrowsAt` is that frame, and with it `graft`
is told in full: the tree is sound, and what is below the node are the old codes and then the new
ones.
-/

namespace Disclosure.CodeTree

/-- Links that fit together, and a remembered length that is right. -/
structure Sound (t : CodeTree) : Prop extends t.Linked where
  /-- What is remembered is the length of the longest code. -/
  measured_eq : ∀ n, t.measured = some n → n = t.longestCode

variable {t t' u : CodeTree} {p q x id : Nat} {code : String}

/-- The length of codes is always right, remembered or not. -/
theorem Sound.codeLength_eq (h : t.Sound) : t.codeLength = t.longestCode := by
  rw [codeLength]
  cases hm : t.measured with
  | none => rfl
  | some n => exact h.measured_eq n hm

theorem Linked.sound (h : t.Linked) (hm : t.measured = none) : t.Sound :=
  { h with measured_eq := fun n hn => absurd (hm.symm.trans hn) (by simp) }

theorem sound_new (total : String) : (new total).Sound :=
  (linked_new total).sound rfl

/-! ## What walks look at -/

theorem Linked.of_nodes (h : t.Linked) (hnodes : u.nodes = t.nodes) : u.Linked := by
  have hcode : u.code = t.code := funext fun x => by rw [CodeTree.code, CodeTree.code, hnodes]
  have hparent : u.parent? = t.parent? := funext fun x => by rw [parent?, parent?, hnodes]
  have hchildren : u.children = t.children := funext fun x => by rw [children, children, hnodes]
  constructor
  · exact hnodes ▸ h.hasRoot
  · rw [hchildren, hparent]
    exact h.mem_children_iff
  · rw [hchildren, hcode]
    exact h.codes_nodup
  · rw [hparent]
    exact h.parent_lt

theorem forestOf_eq_of_children (hchildren : ∀ x, u.children x = t.children x) :
    ∀ (fuel : Nat) (ids : List Nat), u.forestOf fuel ids = t.forestOf fuel ids
  | 0, _ => rfl
  | fuel + 1, ids => by
    refine Forest.ofList_congr (fun x _ => rfl) fun x _ => ?_
    rw [hchildren, forestOf_eq_of_children hchildren fuel]

/-- The way down depends on the children alone. -/
theorem below_eq_of_children (hsize : u.nodes.size = t.nodes.size)
    (hchildren : ∀ x, u.children x = t.children x) (x : Nat) : u.below x = t.below x := by
  rw [below, below, hsize, hchildren, forestOf_eq_of_children hchildren]

/-- The total code does not count for the length of codes. -/
theorem Linked.longestCode_congr (h : t.Linked) (hsize : u.nodes.size = t.nodes.size)
    (hchildren : ∀ x, u.children x = t.children x)
    (hcode : ∀ x, x ≠ root → u.code x = t.code x) : u.longestCode = t.longestCode := by
  rw [longestCode_eq, longestCode_eq, below_eq_of_children hsize hchildren]
  refine congrArg (fun lengths : List Nat => lengths.max?.getD 0)
    (List.map_congr_left fun x hx => ?_)
  rw [hcode x (h.lt_of_mem_ancestors (h.mem_labels_below.mp hx)).ne']

/-- Nodes that look alike in two trees, all the way down, have the same codes below them. -/
theorem Linked.codesBelow_congr (h : t.Linked) (h' : u.Linked) {P : Nat → Prop}
    (hdown : ∀ x, P x → ∀ c ∈ t.children x, P c)
    (hchildren : ∀ x, P x → u.children x = t.children x)
    (hcode : ∀ x, P x → u.code x = t.code x) (x : Nat) (hx : P x) :
    u.codesBelow x = t.codesBelow x := by
  induction x using h.below_induction with
  | step x ih =>
    rw [h.codesBelow_eq, h'.codesBelow_eq, hchildren x hx]
    exact Forest.ofList_congr (fun c hc => hcode c (hdown x hx c hc))
      fun c hc => ih c hc (hdown x hx c hc)

/-! ## Another code -/

/-- A node can be given any code that no sibling has. -/
theorem Linked.setCode (h : t.Linked) (hid : id < t.nodes.size)
    (hfree : ∀ p, t.parent? id = some p → ∀ c ∈ t.children p, t.code c = code → c = id) :
    (t.setCode id code).Linked where
  hasRoot := by simpa using h.hasRoot
  mem_children_iff {p c} := by
    rw [children_setCode, parent?_setCode]
    exact h.mem_children_iff
  parent_lt {p c} hp := h.parent_lt ((parent?_setCode code c).symm.trans hp)
  codes_nodup p := by
    rw [children_setCode]
    refine (h.children_nodup p).map_on fun c hc d hd hsame => ?_
    rw [code_setCode hid, code_setCode hid] at hsame
    have hold := List.inj_on_of_nodup_map (h.codes_nodup p) hc hd
    -- the two are siblings, so only the node itself can have the new code
    split at hsame <;> rename_i hcid <;> split at hsame <;> rename_i hdid
    · rw [hcid, hdid]
    · exact hcid.trans (hfree p (hcid ▸ h.mem_children_iff.mp hc) d hd hsame.symm).symm
    · exact (hfree p (hdid ▸ h.mem_children_iff.mp hd) c hc hsame).trans hdid.symm
    · exact hold hsame

/-- The total code does not count for the length of codes. -/
theorem Linked.longestCode_setTotalCode (h : t.Linked) (code : String) :
    (t.setTotalCode code).longestCode = t.longestCode := by
  have hnodes : (t.setTotalCode code).nodes = (t.setCode root code).nodes := rfl
  refine h.longestCode_congr (by simp [hnodes]) (fun x => ?_) fun x hx => ?_
  · exact children_setCode code x
  · exact (code_setCode h.hasRoot code x).trans (if_neg hx)

theorem Sound.setTotalCode (h : t.Sound) (code : String) : (t.setTotalCode code).Sound where
  toLinked := by
    have hroot : (t.setCode root code).Linked := by
      refine h.toLinked.setCode h.hasRoot fun p hp => ?_
      rw [h.parent?_root] at hp
      exact absurd hp (by simp)
    exact hroot.of_nodes rfl
  measured_eq n hn := (h.measured_eq n hn).trans (h.longestCode_setTotalCode code).symm

theorem Sound.codeLength_setTotalCode (h : t.Sound) (code : String) :
    (t.setTotalCode code).codeLength = t.codeLength := by
  rw [(h.setTotalCode code).codeLength_eq, h.longestCode_setTotalCode, h.codeLength_eq]

theorem Sound.measure (h : t.Sound) : t.measure.Sound where
  toLinked := h.toLinked.of_nodes rfl
  measured_eq n hn := by
    have hlongest : t.measure.longestCode = t.longestCode :=
      h.longestCode_congr rfl (fun _ => rfl) fun _ _ => rfl
    rw [hlongest, ← h.codeLength_eq]
    exact (Option.some.inj hn).symm

/-! ## A cut link -/

theorem Linked.unlink (h : t.Linked) (hp : t.parent? id = some p) : (t.unlink p id).Linked where
  hasRoot := by simpa using h.hasRoot
  mem_children_iff {q c} := by
    rw [children_unlink, parent?_unlink]
    by_cases hc : c = id
    · subst hc
      -- a cut node has left the children of its parent, and was in no others
      have hno : q ≠ p → c ∉ t.children q := fun hq hc =>
        hq (Option.some.inj ((h.mem_children_iff.mp hc).symm.trans hp))
      by_cases hq : q = p <;> simp [hq, hno]
    · by_cases hq : q = p <;> simp [hq, hc, h.mem_children_iff]
  codes_nodup q := by
    have hsub : List.Sublist ((t.unlink p id).children q) (t.children q) := by
      rw [children_unlink]
      split
      · rename_i hq
        exact hq ▸ List.filter_sublist
      · exact List.Sublist.refl _
    have hcodes : ((t.unlink p id).children q).map (t.unlink p id).code =
        ((t.unlink p id).children q).map t.code := List.map_congr_left fun c _ => code_unlink c
    rw [hcodes]
    exact (h.codes_nodup q).sublist (hsub.map _)
  parent_lt {q c} hq := by
    rw [parent?_unlink] at hq
    split at hq
    · exact absurd hq (by simp)
    · exact h.parent_lt hq

/-! ## One more node -/

/-- All nodes but one are as they were, and that one may have more children. -/
structure GrowsAt (t : CodeTree) (p : Nat) (u : CodeTree) : Prop where
  /-- No node is gone. -/
  size_le : t.nodes.size ≤ u.nodes.size
  /-- No node has another code. -/
  code_eq : ∀ q, q < t.nodes.size → u.code q = t.code q
  /-- No node has another parent. -/
  parent?_eq : ∀ q, q < t.nodes.size → u.parent? q = t.parent? q
  /-- Other nodes have the same children. -/
  children_eq : ∀ q, q < t.nodes.size → q ≠ p → u.children q = t.children q

namespace GrowsAt

theorem refl (t : CodeTree) (p : Nat) : GrowsAt t p t :=
  ⟨Nat.le_refl _, fun _ _ => rfl, fun _ _ => rfl, fun _ _ _ => rfl⟩

/-- Growing may go on at the same node, or at a node that is new. -/
theorem trans (h : GrowsAt t p u) (h' : GrowsAt u q t') (hq : q = p ∨ t.nodes.size ≤ q) :
    GrowsAt t p t' where
  size_le := h.size_le.trans h'.size_le
  code_eq x hx := (h'.code_eq x (hx.trans_le h.size_le)).trans (h.code_eq x hx)
  parent?_eq x hx := (h'.parent?_eq x (hx.trans_le h.size_le)).trans (h.parent?_eq x hx)
  children_eq x hx hxp := by
    have hxq : x ≠ q := by
      rcases hq with rfl | hq
      · exact hxp
      · exact Nat.ne_of_lt (hx.trans_le hq)
    exact (h'.children_eq x (hx.trans_le h.size_le) hxq).trans (h.children_eq x hx hxp)

/-- What is not above the place of growth has the same codes below it. -/
theorem codesBelow_eq (hgrow : GrowsAt t p u) (h : t.Linked) (h' : u.Linked)
    (hx : x < t.nodes.size) (hxp : x ≠ p) (habove : x ∉ t.ancestors p) :
    u.codesBelow x = t.codesBelow x := by
  refine h.codesBelow_congr h' (P := fun x => x < t.nodes.size ∧ x ≠ p ∧ x ∉ t.ancestors p)
    (fun x hx c hc => ?_) (fun x hx => hgrow.children_eq x hx.1 hx.2.1)
    (fun x hx => hgrow.code_eq x hx.1) x ⟨hx, hxp, habove⟩
  have hparent := h.mem_ancestors_of_parent (h.mem_children_iff.mp hc)
  exact ⟨h.child_lt_size hc, fun hcp => hx.2.2 (hcp ▸ hparent),
    fun hcp => hx.2.2 (h.ancestors_trans hparent hcp)⟩

end GrowsAt

theorem growsAt_pushChild (hp : p < t.nodes.size) (code : String) :
    GrowsAt t p (t.pushChild p code).1 where
  size_le := by simp
  code_eq q hq := by rw [code_pushChild, if_neg (Nat.ne_of_lt hq)]
  parent?_eq q hq := by rw [parent?_pushChild, if_neg (Nat.ne_of_lt hq)]
  children_eq q hq hqp := by rw [children_pushChild hp, if_neg hqp]

/-- A node can get a child with any code that no child of it has. -/
theorem Linked.pushChild (h : t.Linked) (hp : p < t.nodes.size)
    (hfree : code ∉ (t.children p).map t.code) : (t.pushChild p code).1.Linked where
  hasRoot := by
    rw [size_pushChild]
    exact h.hasRoot.trans (Nat.lt_succ_self _)
  mem_children_iff {q c} := by
    rw [children_pushChild hp, parent?_pushChild]
    have hold : t.nodes.size ∉ t.children q := fun hc => Nat.lt_irrefl _ (h.child_lt_size hc)
    by_cases hc : c = t.nodes.size
    · by_cases hq : q = p
      · simp [hc, hq]
      · simp [hc, hq, hold, Ne.symm hq]
    · by_cases hq : q = p <;> simp [hc, hq, h.mem_children_iff]
  codes_nodup q := by
    have hcode : ∀ c ∈ t.children q, (t.pushChild p code).1.code c = t.code c := fun c hc =>
      (growsAt_pushChild hp code).code_eq c (h.child_lt_size hc)
    have hcodes := List.map_congr_left hcode
    rw [children_pushChild hp]
    split
    · rename_i hq
      subst hq
      rw [List.map_append, hcodes, List.map_singleton, code_pushChild, if_pos rfl]
      exact (h.codes_nodup q).append (List.nodup_singleton _) (by simpa using hfree)
    · rw [hcodes]
      exact h.codes_nodup q
  parent_lt {q c} hq := by
    rw [parent?_pushChild] at hq
    split at hq
    · rename_i hc
      rw [hc, ← Option.some.inj hq]
      exact hp
    · exact h.parent_lt hq

theorem Linked.sound_pushChild (h : t.Linked) (hp : p < t.nodes.size)
    (hfree : code ∉ (t.children p).map t.code) : (t.pushChild p code).1.Sound :=
  (h.pushChild hp hfree).sound rfl

/-- Walking down a path ends at a node of a sound tree. -/
theorem Sound.createUnder (h : t.Sound) (hid : id < t.nodes.size) (path : List String) :
    (t.createUnder id path).1.Sound ∧
      (t.createUnder id path).2 < (t.createUnder id path).1.nodes.size ∧
      t.nodes.size ≤ (t.createUnder id path).1.nodes.size := by
  induction path generalizing t id with
  | nil => exact ⟨h, hid, Nat.le_refl _⟩
  | cons code rest ih =>
    rw [CodeTree.createUnder]
    cases hchild : t.child? id code with
    | some child => exact ih h (h.child_lt_size (of_child?_eq_some hchild).1)
    | none =>
      have hgrown := h.sound_pushChild hid (child?_eq_none_iff.mp hchild)
      have hid' : t.nodes.size < (t.pushChild id code).1.nodes.size := by simp
      obtain ⟨hsound, hlast, hsize⟩ := ih hgrown hid'
      exact ⟨hsound, hlast, (growsAt_pushChild hid code).size_le.trans hsize⟩

/-! ## A whole forest of nodes -/

/-- What grafting a forest at a node comes to. -/
structure Grafted (t : CodeTree) (p : Nat) (f : Forest String) (u : CodeTree) : Prop where
  /-- The tree is sound. -/
  sound : u.Sound
  /-- All other nodes are as they were. -/
  grows : GrowsAt t p u
  /-- The node has the children it had, and then one for each tree of the forest. -/
  codes_eq : (u.children p).map u.code = (t.children p).map t.code ++ f.tops
  /-- Below the node are the codes there were, and then the forest. -/
  codesBelow_eq : u.codesBelow p = (t.codesBelow p).append f

/-- Forests that are grafted at one node, one after the other, come to the two together. -/
theorem Grafted.append {v : CodeTree} {f g : Forest String} (hf : Grafted t p f u)
    (hg : Grafted u p g v) : Grafted t p (f.append g) v where
  sound := hg.sound
  grows := hf.grows.trans hg.grows (.inl rfl)
  codes_eq := by
    rw [hg.codes_eq, hf.codes_eq, Forest.tops_append, List.append_assoc]
  codesBelow_eq := by
    rw [hg.codesBelow_eq, hf.codesBelow_eq, Forest.append_assoc]

/-- What a new child with a forest below it comes to. -/
structure Appended (t : CodeTree) (p : Nat) (code : String) (below : Forest String)
    (u : CodeTree) : Prop where
  /-- The tree is sound. -/
  sound : u.Sound
  /-- All other nodes are as they were. -/
  grows : GrowsAt t p u
  /-- The new child comes last. -/
  children_eq : u.children p = t.children p ++ [t.nodes.size]
  /-- It has the code. -/
  code_eq : u.code t.nodes.size = code
  /-- The forest is below it. -/
  codesBelow_eq : u.codesBelow t.nodes.size = below

theorem Linked.appended (h : t.Linked) (hp : p < t.nodes.size) {below : Forest String}
    (hfree : code ∉ (t.children p).map t.code)
    (hu : Grafted (t.pushChild p code).1 t.nodes.size below u) : Appended t p code below u := by
  have hsize : t.nodes.size < (t.pushChild p code).1.nodes.size := by simp
  refine ⟨hu.sound, (growsAt_pushChild hp code).trans hu.grows (.inr le_rfl), ?_, ?_, ?_⟩
  · rw [hu.grows.children_eq p (hp.trans hsize) hp.ne, children_pushChild hp, if_pos rfl]
  · rw [hu.grows.code_eq _ hsize, code_pushChild, if_pos rfl]
  · rw [hu.codesBelow_eq, (h.pushChild hp hfree).codesBelow_eq, children_pushChild_self hp]
    rfl

/-- A new child with a forest below it is a tree grafted at the parent. -/
theorem Appended.grafted {below : Forest String} (hu : Appended t p code below u) (h : t.Linked) :
    Grafted t p (.cons code below .nil) u := by
  have hcodes : ∀ c ∈ t.children p, u.code c = t.code c := by
    intro c hc
    exact hu.grows.code_eq c (h.child_lt_size hc)
  refine ⟨hu.sound, hu.grows, ?_, ?_⟩
  · rw [hu.children_eq, List.map_append, List.map_congr_left hcodes, List.map_singleton, hu.code_eq]
    rfl
  · -- the children that were there are not above the place of growth, but below it
    have hold : ∀ c ∈ t.children p, u.codesBelow c = t.codesBelow c := by
      intro c hc
      refine hu.grows.codesBelow_eq h hu.sound.toLinked (h.child_lt_size hc) (h.lt_child hc).ne' ?_
      exact fun habove => (h.lt_child hc).not_gt (h.lt_of_mem_ancestors habove)
    rw [hu.sound.codesBelow_eq, hu.children_eq, Forest.ofList_append, Forest.ofList_cons,
      hu.code_eq, hu.codesBelow_eq, h.codesBelow_eq]
    exact congrArg (Forest.append · _) (Forest.ofList_congr hcodes hold)

/-- The trees that come after a tree can still be grafted once that tree is there. -/
theorem Grafted.free_next {below next : Forest String} (hu : Grafted t p (.cons code below .nil) u)
    (hcode : code ∉ next.tops) (hfree : ∀ other ∈ next.tops, other ∉ (t.children p).map t.code) :
    ∀ other ∈ next.tops, other ∉ (u.children p).map u.code := by
  intro other hother
  rw [hu.codes_eq, List.mem_append, not_or]
  refine ⟨hfree other hother, fun hsame => ?_⟩
  rw [List.eq_of_mem_singleton hsame] at hother
  exact hcode hother

/-- A forest without equal siblings can be grafted at any node that has none of its top codes. -/
theorem grafted_graft {f : Forest String} (h : t.Sound) (hp : p < t.nodes.size) (hf : f.Distinct)
    (hfree : ∀ code ∈ f.tops, code ∉ (t.children p).map t.code) :
    Grafted t p f (t.graft p f) := by
  induction f generalizing t p with
  | nil => exact ⟨h, .refl t p, by simp [graft, Forest.tops], by simp [graft]⟩
  | cons code below next ihb ihn =>
    obtain ⟨hcode, hbelow, hnext⟩ := hf
    rw [Forest.tops, List.forall_mem_cons] at hfree
    have happended := h.toLinked.appended hp hfree.1 <|
      ihb (h.sound_pushChild hp hfree.1) (by simp) hbelow (by simp [children_pushChild_self hp])
    have hchild := happended.grafted h.toLinked
    have hp' := hp.trans_le hchild.grows.size_le
    exact hchild.append (ihn hchild.sound hp' hnext (hchild.free_next hcode hfree.2))

/-- A forest without equal siblings can be put below a new child of any code that is free. -/
theorem Linked.appended_graft (h : t.Linked) (hp : p < t.nodes.size) {below : Forest String}
    (hfree : code ∉ (t.children p).map t.code) (hbelow : below.Distinct) :
    Appended t p code below ((t.pushChild p code).1.graft t.nodes.size below) :=
  h.appended hp hfree <| grafted_graft (h.sound_pushChild hp hfree) (by simp) hbelow
    (by simp [children_pushChild_self hp])

/-- The first tree of a forest, before the others are grafted beside it. -/
theorem Linked.grafted_first (h : t.Linked) (hp : p < t.nodes.size) {below : Forest String}
    (hfree : code ∉ (t.children p).map t.code) (hbelow : below.Distinct) :
    Grafted t p (.cons code below .nil) ((t.pushChild p code).1.graft t.nodes.size below) :=
  (h.appended_graft hp hfree hbelow).grafted h

end Disclosure.CodeTree
