import Disclosure.Proofs.CodeTree.Preorder

/-!
# Codes taken up to a level

At a level, the nodes are visited in pre-order, and each one gives its code to all codes at it and
below it. A code that occurs in several branches is taken up again and again, and what the last node
says counts.

Where all codes are different there is one node to a code, and only one node of a level above it. Then
going up to one level and from there to another is going up to the one that is less deep.
-/

namespace Disclosure

/-! ## Levels of a forest -/

namespace Forest

variable {α β : Type}

theorem atLevel_map (g : α → β) (f : Forest α) (level : Nat) :
    (f.map g).atLevel level = (f.atLevel level).map fun (x, y) => (g x, g y) := by
  induction f generalizing level with
  | nil => rfl
  | cons label below next ihb ihn =>
    rw [map, atLevel, atLevel, ihn, ihb, labels_map, List.map_append]
    split <;> simp [Function.comp_def]

theorem atLevel_ofList (label : α → β) (below : α → Forest β) (level : Nat) (xs : List α) :
    (ofList label below xs).atLevel level = xs.flatMap fun x =>
      if level = 1 then (label x, label x) :: (below x).labels.map (·, label x)
      else (below x).atLevel (level - 1) := by
  induction xs with
  | nil => rfl
  | cons x xs ih => rw [ofList_cons, atLevel, ih, List.flatMap_cons]

end Forest

/-! ## Blocks of pairs -/

namespace Recoder

theorem lookup_pairs (keys : List String) (value key : String) :
    (keys.map (·, value)).lookup key = if keys.contains key then some value else none := by
  induction keys with
  | nil => rfl
  | cons first keys ih =>
    rw [List.map_cons, List.lookup_cons, ih, List.contains_cons]
    cases key == first <;> rfl

/-- What the last block with a key says counts. -/
theorem lookup_reverse_blocks {α : Type} (keys : α → List String) (value : α → String)
    (key : String) (xs : List α) :
    (xs.flatMap fun x => (keys x).map (·, value x)).reverse.lookup key =
      (xs.filter fun x => (keys x).contains key).getLast?.map value := by
  induction xs using List.reverseRecOn with
  | nil => rfl
  | append_singleton xs x ih =>
    rw [List.flatMap_append, List.reverse_append, List.lookup_append, ih, List.filter_append,
      List.getLast?_append, Option.map_or, List.flatMap_singleton, ← List.map_reverse, lookup_pairs,
      List.contains_reverse, List.filter_singleton]
    cases (keys x).contains key <;> rfl

end Recoder

/-! ## Levels of a tree -/

namespace CodeTree

variable {t : CodeTree} {a z : Nat} {level : Nat} {code target : String}

/-- Whether a code is that of a node or of one below it. -/
def takesIn (t : CodeTree) (code : String) (a : NodeId) : Bool :=
  ((a :: (t.below a).labels).map t.code).contains code

/-- The last node of a level, in pre-order, that has a code at it or below it. -/
def lastAtLevel (t : CodeTree) (level : Nat) (code : String) : Option NodeId :=
  ((t.below root).labels.filter fun a => t.takesIn code a && t.depth a = level).getLast?

/-- What a code becomes at a level. -/
def takenTo (t : CodeTree) (level : Nat) (code : String) : String :=
  ((Recoder.levelPairs t level).reverse.lookup code).getD code

theorem apply_level (t : CodeTree) (level : Nat) (codes : List String) :
    (Recoder.level level).apply (some t) codes = .ok (codes.map (t.takenTo level)) :=
  rfl

theorem takenTo_zero (code : String) :
    t.takenTo 0 code = if code ∈ t.content.labels then t.totalCode else code := by
  rw [takenTo, Recoder.levelPairs, if_pos rfl, ← List.map_reverse, Recoder.lookup_pairs,
    List.contains_reverse]
  simp only [List.contains_iff_mem]
  split <;> rfl

namespace Linked

variable (h : t.Linked)

include h

theorem takesIn_iff :
    t.takesIn code a = true ↔ ∃ z, (a = z ∨ a ∈ t.ancestors z) ∧ t.code z = code := by
  simp only [takesIn, List.contains_iff_mem, List.mem_map, List.mem_cons, h.mem_labels_below]
  exact exists_congr fun z => and_congr_left fun _ => or_congr_left eq_comm

/-- The pairs of a level come from its nodes, each with what is at it and below it. -/
theorem atLevel_below (a level : Nat) : (t.below a).atLevel (level + 1) =
    ((t.below a).labels.filter fun x => t.depth x = t.depth a + (level + 1)).flatMap fun x =>
      (x :: (t.below x).labels).map (·, x) := by
  induction a using h.below_induction generalizing level with
  | step a ih =>
    conv_lhs => rw [h.below_eq, Forest.atLevel_ofList]
    conv_rhs => rw [h.below_eq, Forest.labels_ofList, List.filter_flatMap, List.flatMap_assoc]
    refine List.flatMap_congr fun c hc => ?_
    have hdepth := h.depth_of_parent (h.mem_children_iff.mp hc)
    rw [id_eq]
    cases level with
    | zero =>
      -- the child itself is at the level, and what is below it is further down
      have hnone : (t.below c).labels.filter (fun x => t.depth x = t.depth a + 1) = [] := by
        refine List.filter_eq_nil_iff.mpr fun x hx => ?_
        have hlt := h.depth_lt (h.mem_labels_below.mp hx)
        rw [← hdepth, decide_eq_true_eq]
        exact hlt.ne'
      rw [if_pos rfl, List.filter_cons_of_pos (by simp [hdepth]), hnone]
      simp
    | succ level =>
      have hshift : t.depth a + (level + 1 + 1) = t.depth c + (level + 1) := by omega
      rw [if_neg (by omega), List.filter_cons_of_neg (by simp [hdepth]), hshift,
        Nat.add_sub_cancel, ih c hc]

/-! ## What a code becomes -/

theorem mem_lastAtLevel {a : Nat} (ha : t.lastAtLevel level code = some a) :
    t.depth a = level ∧ root ∈ t.ancestors a ∧
      ∃ z, (a = z ∨ a ∈ t.ancestors z) ∧ t.code z = code := by
  have hmem := List.mem_of_getLast? ha
  rw [List.mem_filter, Bool.and_eq_true, decide_eq_true_eq, h.mem_labels_below, h.takesIn_iff]
    at hmem
  exact ⟨hmem.2.2, hmem.1, hmem.2.1⟩

theorem lastAtLevel_eq_none_iff : t.lastAtLevel level code = none ↔
    ∀ a z, root ∈ t.ancestors a → (a = z ∨ a ∈ t.ancestors z) → t.code z = code →
      t.depth a ≠ level := by
  simp only [lastAtLevel, List.getLast?_eq_none_iff, List.filter_eq_nil_iff, h.mem_labels_below,
    Bool.and_eq_true, decide_eq_true_eq, h.takesIn_iff, not_and, forall_exists_index, and_imp]
  exact forall_congr' fun a => forall_comm

/-- **The last node of a level that takes a code in says what the code becomes.** -/
theorem takenTo_of_pos (hlevel : 0 < level) (code : String) :
    t.takenTo level code = ((t.lastAtLevel level code).map t.code).getD code := by
  obtain ⟨k, rfl⟩ := Nat.exists_eq_succ_of_ne_zero hlevel.ne'
  have hblocks : Recoder.levelPairs t (k + 1) =
      ((t.below root).labels.filter fun a => t.depth a = k + 1).flatMap fun a =>
        ((a :: (t.below a).labels).map t.code).map (·, t.code a) := by
    rw [Recoder.levelPairs, if_neg (Nat.succ_ne_zero k), content, codesBelow, Forest.atLevel_map,
      h.atLevel_below, h.depth_root, Nat.zero_add, List.map_flatMap]
    simp only [List.map_map, Function.comp_def]
  rw [takenTo, hblocks, Recoder.lookup_reverse_blocks, List.filter_filter]
  rfl

end Linked

/-! ## Where all codes are different -/

/-- A code goes up to the node of the level that its node is, or is below. It stays where its node is
further up, and where there is none. -/
structure TakenUp (t : CodeTree) (level : Nat) (code target : String) : Prop where
  up : ∀ z, t.Attached z → t.code z = code → level ≤ t.depth z →
    ∃ a, (a = z ∨ a ∈ t.ancestors z) ∧ t.depth a = level ∧ t.code a = target
  above : ∀ z, t.Attached z → t.code z = code → t.depth z < level → target = code
  unknown : (∀ z, t.Attached z → t.code z ≠ code) → target = code

theorem takenUp_self (hnone : ∀ z, t.Attached z → t.code z = code → t.depth z < level) :
    t.TakenUp level code code where
  up := fun z hz hcode hle => absurd hle (hnone z hz hcode).not_ge
  above := fun _ _ _ _ => rfl
  unknown := fun _ => rfl

namespace Linked

variable (h : t.Linked)

include h

/-- From a node, every level further up is met on the way to the root. -/
theorem exists_at_depth (hlevel : level ≤ t.depth z) :
    ∃ a, (a = z ∨ a ∈ t.ancestors z) ∧ t.depth a = level := by
  induction z using Nat.strongRecOn with
  | _ z ih =>
    rcases Nat.eq_or_lt_of_le hlevel with hself | hlt
    · exact ⟨z, .inl rfl, hself.symm⟩
    · cases hp : t.parent? z with
      | none =>
        rw [h.depth_eq, hp] at hlt
        exact absurd hlt (Nat.not_lt_zero level)
      | some p =>
        rw [h.depth_of_parent hp] at hlt
        obtain ⟨a, hap, hdepth⟩ := ih p (h.parent_lt hp) (Nat.le_of_lt_succ hlt)
        exact ⟨a, .inr (h.mem_ancestors_iff.mpr ⟨p, hp, hap⟩), hdepth⟩

/-- A node says where its code goes, if no other node has that code. -/
theorem takenUp_of_above (hapart : t.CodesApart) (hz : t.Attached z)
    (ha : a = z ∨ a ∈ t.ancestors z) : t.TakenUp (t.depth a) (t.code z) (t.code a) where
  up := fun y hy hcode _ => ⟨a, h.eq_of_code_eq hapart hy hz hcode ▸ ha, rfl, rfl⟩
  above := by
    intro y hy hcode hlt
    obtain rfl := h.eq_of_code_eq hapart hy hz hcode
    rcases ha with rfl | ha
    · rfl
    · exact absurd hlt (h.depth_lt ha).le.not_gt
  unknown := fun hnone => absurd rfl (hnone z hz)

theorem takenUp_zero (hapart : t.CodesApart) (code : String) :
    t.TakenUp 0 code (t.takenTo 0 code) := by
  rw [takenTo_zero]
  by_cases hmem : code ∈ t.content.labels
  · obtain ⟨z, hz, rfl⟩ := h.mem_labels_content.mp hmem
    have htaken := h.takenUp_of_above hapart (.inr hz) (.inr hz)
    rw [h.depth_root] at htaken
    rw [if_pos hmem]
    exact htaken
  · rw [if_neg hmem]
    by_cases htotal : t.code root = code
    · have htaken := h.takenUp_of_above hapart (z := root) (.inl rfl) (.inl rfl)
      rwa [h.depth_root, htotal] at htaken
    · refine takenUp_self fun z hz hcode => ?_
      rcases hz with rfl | hz
      · exact absurd hcode htotal
      · exact absurd (h.mem_labels_content.mpr ⟨z, hz, hcode⟩) hmem

theorem takenUp_of_pos (hapart : t.CodesApart) (hlevel : 0 < level) (code : String) :
    t.TakenUp level code (t.takenTo level code) := by
  rw [h.takenTo_of_pos hlevel]
  cases hlast : t.lastAtLevel level code with
  | some a =>
    obtain ⟨rfl, hroot, z, haz, rfl⟩ := h.mem_lastAtLevel hlast
    have hz : t.Attached z := by
      rcases haz with rfl | haz
      · exact .inr hroot
      · exact .inr (h.ancestors_trans hroot haz)
    exact h.takenUp_of_above hapart hz haz
  | none =>
    -- a node at or below the level has one of the level above it, and that one takes the code in
    refine takenUp_self fun z hz hcode => Nat.lt_of_not_le fun hle => ?_
    obtain ⟨a, haz, hdepth⟩ := h.exists_at_depth hle
    rcases h.attached_of_above hz haz with rfl | hroot
    · exact absurd (h.depth_root.symm.trans hdepth) hlevel.ne
    · exact h.lastAtLevel_eq_none_iff.mp hlast a z hroot haz hcode hdepth

/-- **Where all codes are different, a code goes up to the level, or stays.** -/
theorem takenUp (hapart : t.CodesApart) (level : Nat) (code : String) :
    t.TakenUp level code (t.takenTo level code) := by
  rcases Nat.eq_zero_or_pos level with rfl | hlevel
  · exact h.takenUp_zero hapart code
  · exact h.takenUp_of_pos hapart hlevel code

end Linked

/-! ## One level and then another -/

namespace TakenUp

variable {m n : Nat} {between : String}

theorem unique (h : t.Linked) (hfirst : t.TakenUp level code target)
    (hsecond : t.TakenUp level code between) : target = between := by
  by_cases hz : ∃ z, t.Attached z ∧ t.code z = code
  · obtain ⟨z, hz, hcode⟩ := hz
    rcases Nat.lt_or_ge (t.depth z) level with hlt | hle
    · exact (hfirst.above z hz hcode hlt).trans (hsecond.above z hz hcode hlt).symm
    · obtain ⟨a, haz, hdepth, rfl⟩ := hfirst.up z hz hcode hle
      obtain ⟨b, hbz, hdepth', rfl⟩ := hsecond.up z hz hcode hle
      rw [h.eq_of_depth_eq haz hbz (hdepth.trans hdepth'.symm)]
  · simp only [not_exists, not_and] at hz
    exact (hfirst.unknown hz).trans (hsecond.unknown hz).symm

/-- Of two levels, the one further up is where a code ends. -/
theorem trans (h : t.Linked) (hfirst : t.TakenUp m code between)
    (hsecond : t.TakenUp n between target) : t.TakenUp (min m n) code target where
  up := by
    intro z hz hcode hle
    rcases Nat.lt_or_ge (t.depth z) m with hlt | hm
    · -- the code is above the first level, and so below the second
      obtain rfl := hfirst.above z hz hcode hlt
      have hmin : min m n = n := by omega
      rw [hmin] at hle ⊢
      exact hsecond.up z hz hcode hle
    · obtain ⟨a, haz, rfl, rfl⟩ := hfirst.up z hz hcode hm
      have ha := h.attached_of_above hz haz
      rcases Nat.lt_or_ge (t.depth a) n with hlt | hn
      · obtain rfl := hsecond.above a ha rfl hlt
        exact ⟨a, haz, (Nat.min_eq_left hlt.le).symm, rfl⟩
      · obtain ⟨b, hba, hdepth, hb⟩ := hsecond.up a ha rfl hn
        refine ⟨b, ?_, hdepth.trans (Nat.min_eq_right hn).symm, hb⟩
        rcases hba with rfl | hba
        · exact haz
        · rcases haz with rfl | haz
          · exact .inr hba
          · exact .inr (h.ancestors_trans hba haz)
  above := by
    intro z hz hcode hlt
    obtain rfl := hfirst.above z hz hcode (hlt.trans_le (Nat.min_le_left m n))
    exact hsecond.above z hz hcode (hlt.trans_le (Nat.min_le_right m n))
  unknown := by
    intro hnone
    obtain rfl := hfirst.unknown hnone
    exact hsecond.unknown hnone

end TakenUp

theorem Linked.takenTo_takenTo (h : t.Linked) (hapart : t.CodesApart) (m n : Nat) (code : String) :
    t.takenTo n (t.takenTo m code) = t.takenTo (min m n) code :=
  ((h.takenUp hapart m code).trans h (h.takenUp hapart n _)).unique h (h.takenUp hapart _ code)

/-- **Recoding by a level takes each code to the code of the last node of the level that has it.**
Where all codes are different, each one goes up to the level or stays, and recoding by two levels in
turn is recoding by the one further up. -/
theorem Reachable.recode_level (h : t.Reachable) :
    (∀ codes, (Recoder.level 0).apply (some t) codes =
      .ok (codes.map fun code => if code ∈ t.content.labels then t.totalCode else code)) ∧
    (∀ level codes, 0 < level → (Recoder.level level).apply (some t) codes =
      .ok (codes.map fun code => ((t.lastAtLevel level code).map t.code).getD code)) ∧
    (t.CodesApart →
      (∀ level codes, ∃ results, (Recoder.level level).apply (some t) codes = .ok results ∧
        List.Forall₂ (t.TakenUp level) codes results) ∧
      ∀ m n codes, ((Recoder.level m).apply (some t) codes >>= (Recoder.level n).apply (some t)) =
        (Recoder.level (min m n)).apply (some t) codes) := by
  have hlinked := h.sound.toLinked
  refine ⟨fun codes => ?_, fun level codes hlevel => ?_, fun hapart => ⟨fun level codes => ?_,
    fun m n codes => ?_⟩⟩
  · rw [apply_level]
    exact congrArg _ (List.map_congr_left fun code _ => takenTo_zero code)
  · rw [apply_level]
    exact congrArg _ (List.map_congr_left fun code _ => hlinked.takenTo_of_pos hlevel code)
  · refine ⟨_, apply_level t level codes, ?_⟩
    rw [List.forall₂_map_right_iff, List.forall₂_same]
    exact fun code _ => hlinked.takenUp hapart level code
  · rw [apply_level, apply_level]
    show (Recoder.level n).apply (some t) (codes.map (t.takenTo m)) = _
    rw [apply_level, List.map_map]
    exact congrArg _ (List.map_congr_left fun code _ => hlinked.takenTo_takenTo hapart m n code)

/-- A code in two branches, and one branch deeper than the other. -/
def branchesTree : CodeTree :=
  ofRows [["A", "X", "A1"], ["B", "X"], ["C"]] "Total"

/-- The same without the code that comes twice. -/
def apartTree : CodeTree :=
  ofRows [["A", "X", "A1"], ["B", "Y"], ["C"]] "Total"

theorem branchesTree_recode_level :
    (Recoder.level 1).apply (some branchesTree) ["A1", "X", "C", "?"] = .ok ["A", "B", "C", "?"] ∧
      (Recoder.level 0).apply (some branchesTree) ["A1", "Total", "?"] =
        .ok ["Total", "Total", "?"] ∧
      apartTree.CodesApart ∧
      (Recoder.level 1).apply (some apartTree) ["A1", "X", "?"] = .ok ["A", "A", "?"] ∧
      ((Recoder.level 2).apply (some apartTree) ["A1", "Y", "?"] >>=
        (Recoder.level 1).apply (some apartTree)) = .ok ["A", "B", "?"] := by
  have hbranches : branchesTree.Reachable := .ofRows _ _
  have hreach : apartTree.Reachable := .ofRows _ _
  have hapart : apartTree.CodesApart := by decide
  refine ⟨(hbranches.recode_level.2.1 1 _ (by decide)).trans ?_,
    (hbranches.recode_level.1 _).trans ?_, hapart,
    (hreach.recode_level.2.1 1 _ (by decide)).trans ?_,
    ((hreach.recode_level.2.2 hapart).2 2 1 _).trans ?_⟩
  all_goals rfl

end CodeTree

end Disclosure
