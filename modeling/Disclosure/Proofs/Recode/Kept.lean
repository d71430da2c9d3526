import Disclosure.Proofs.CodeTree.Preorder

/-!
# Codes taken in by listed codes

Listed codes are mapped to themselves first. Then the pairs of a tree are gone through in pre-order,
and a code that is not mapped yet takes over what the code above it is mapped to. Nobody looks for the
nearest listed code; it comes down the tree, one pair at a time.

Whatever the pairs are, a mapping made in this way keeps the listed codes and maps to listed codes
only (`Mapped`), so going through it a second time changes nothing. Where all codes are different, an
entry of the mapping belongs to one node, and it is the nearest listed node on the way up (`Inherits`).
-/

namespace Disclosure

namespace Recoder

variable {kept : List String} {mapping : List (String × String)}

/-- A code that is mapped stays as it is, and one that is not takes over from the code above. -/
theorem lookup_inherit (mapping : List (String × String)) (child parent code : String) :
    (inherit mapping (child, parent)).lookup code =
      (mapping.lookup code).or (if code = child then mapping.lookup parent else none) := by
  rw [inherit]
  by_cases hcode : code = child
  · subst hcode
    rw [if_pos rfl]
    cases hchild : mapping.lookup code with
    | some target => simpa using hchild
    | none =>
      cases hparent : mapping.lookup parent with
      | some target => simp
      | none => simpa using hchild
  · rw [if_neg hcode, Option.or_none]
    cases mapping.lookup child <;> cases mapping.lookup parent <;>
      simp [List.lookup_cons, beq_eq_false_iff_ne.mpr hcode]

theorem lookup_listed (kept : List String) (code : String) :
    (kept.map fun listed => (listed, listed)).lookup code =
      if code ∈ kept then some code else none := by
  induction kept with
  | nil => rfl
  | cons listed kept ih =>
    rw [List.map_cons, List.lookup_cons, ih]
    by_cases hcode : code = listed
    · subst hcode
      simp
    · simp [hcode, beq_eq_false_iff_ne.mpr hcode]

/-- Listed codes are mapped to themselves, and nothing is mapped to a code that is not listed. -/
structure Mapped (kept : List String) (mapping : List (String × String)) : Prop where
  listed : ∀ code ∈ kept, mapping.lookup code = some code
  target : ∀ code target, mapping.lookup code = some target → target ∈ kept

theorem mapped_listed (kept : List String) :
    Mapped kept (kept.map fun listed => (listed, listed)) where
  listed := fun code hcode => by rw [lookup_listed, if_pos hcode]
  target := by
    intro code target htarget
    rw [lookup_listed, Option.ite_none_right_eq_some] at htarget
    obtain ⟨hcode, heq⟩ := htarget
    exact Option.some.inj heq ▸ hcode

namespace Mapped

theorem inherit (h : Mapped kept mapping) (pair : String × String) :
    Mapped kept (Recoder.inherit mapping pair) where
  listed := fun code hcode => by rw [lookup_inherit, h.listed code hcode, Option.some_or]
  target := by
    intro code target htarget
    rw [lookup_inherit, Option.or_eq_some_iff] at htarget
    rcases htarget with hold | ⟨_, hnew⟩
    · exact h.target code target hold
    · rw [Option.ite_none_right_eq_some] at hnew
      exact h.target pair.2 target hnew.2

theorem foldl (h : Mapped kept mapping) (pairs : List (String × String)) :
    Mapped kept (pairs.foldl Recoder.inherit mapping) := by
  induction pairs generalizing mapping with
  | nil => exact h
  | cons pair pairs ih => exact ih (h.inherit pair)

end Mapped

end Recoder

namespace CodeTree

variable {t : CodeTree} {kept : List String} {mapping : List (String × String)} {before : List Nat}
  {p x z : Nat} {code target : String}

/-- What a code becomes when the listed codes take in what is below them. -/
def takenIn (t : CodeTree) (kept : List String) (code : String) : String :=
  ((Recoder.leafPairs t kept).lookup code).getD code

theorem apply_leaves (t : CodeTree) (kept codes : List String) :
    (Recoder.leaves kept).apply (some t) codes = .ok (codes.map (t.takenIn kept)) :=
  rfl

/-! ## Whatever the tree is -/

theorem mapped_leafPairs (t : CodeTree) (kept : List String) :
    Recoder.Mapped kept (Recoder.leafPairs t kept) :=
  (Recoder.mapped_listed kept).foldl _

theorem takenIn_of_mem (hcode : code ∈ kept) : t.takenIn kept code = code := by
  rw [takenIn, (t.mapped_leafPairs kept).listed code hcode, Option.getD_some]

theorem takenIn_mem_or_eq (t : CodeTree) (kept : List String) (code : String) :
    t.takenIn kept code ∈ kept ∨ t.takenIn kept code = code := by
  cases hlookup : (Recoder.leafPairs t kept).lookup code with
  | some target =>
    rw [takenIn, hlookup]
    exact .inl ((t.mapped_leafPairs kept).target code target hlookup)
  | none =>
    rw [takenIn, hlookup]
    exact .inr rfl

theorem takenIn_takenIn (t : CodeTree) (kept : List String) (code : String) :
    t.takenIn kept (t.takenIn kept code) = t.takenIn kept code := by
  rcases t.takenIn_mem_or_eq kept code with hmem | heq
  · exact takenIn_of_mem hmem
  · rw [heq, heq]

/-! ## Where all codes are different -/

/-- The first listed node on the way up from a node, which is itself on that way. -/
def nearestKept (t : CodeTree) (kept : List String) (z : NodeId) : Option NodeId :=
  (z :: t.ancestors z).find? fun a => t.code a ∈ kept

/-- A code goes to the nearest listed code on the way up. It stays where there is none, and where it
is not in the tree. -/
structure TakenIn (t : CodeTree) (kept : List String) (code target : String) : Prop where
  nearest : ∀ z, t.Attached z → t.code z = code →
    target = ((t.nearestKept kept z).map t.code).getD code
  unknown : (∀ z, t.Attached z → t.code z ≠ code) → target = code

/-- What a mapping says when some nodes of the tree have been seen, and the root with them. -/
structure Inherits (t : CodeTree) (kept : List String) (before : List Nat)
    (mapping : List (String × String)) : Prop where
  attached : ∀ z ∈ before, root ∈ t.ancestors z
  seen : ∀ z, z = root ∨ z ∈ before →
    mapping.lookup (t.code z) = (t.nearestKept kept z).map t.code
  unseen : ∀ code, (∀ z, z = root ∨ z ∈ before → t.code z ≠ code) →
    mapping.lookup code = if code ∈ kept then some code else none

namespace Linked

variable (h : t.Linked)

include h

theorem nearestKept_root (kept : List String) : t.nearestKept kept root =
    if t.code root ∈ kept then some root else none := by
  rw [nearestKept, h.ancestors_eq, h.parent?_root, List.find?_singleton]
  simp only [decide_eq_true_eq]

theorem nearestKept_of_parent (hp : t.parent? x = some p) : t.nearestKept kept x =
    if t.code x ∈ kept then some x else t.nearestKept kept p := by
  rw [nearestKept, h.ancestors_eq, hp]
  by_cases hx : t.code x ∈ kept
  · rw [if_pos hx, List.find?_cons_of_pos (by simpa using hx)]
  · rw [if_neg hx, List.find?_cons_of_neg (by simpa using hx)]
    rfl

theorem inherits_nil (kept : List String) :
    t.Inherits kept [] (kept.map fun listed => (listed, listed)) where
  attached := fun _ hz => absurd hz List.not_mem_nil
  seen := by
    intro z hz
    obtain rfl := hz.resolve_right List.not_mem_nil
    rw [Recoder.lookup_listed, h.nearestKept_root]
    split <;> rfl
  unseen := fun code _ => Recoder.lookup_listed kept code

/-- One node more. Its parent has been seen, and its code is not the code of a node seen before. -/
theorem inherits_concat (hapart : t.CodesApart) (hinherits : t.Inherits kept before mapping)
    (hx : root ∈ t.ancestors x) (hfresh : x ∉ before) (hp : t.parent? x = some p)
    (hseen : p = root ∨ p ∈ before) :
    t.Inherits kept (before ++ [x]) (Recoder.inherit mapping (t.pairOf x)) := by
  have hnew : ∀ z, z = root ∨ z ∈ before → t.code z ≠ t.code x := by
    intro z hz hcode
    have hattached : t.Attached z := hz.imp_right (hinherits.attached z)
    obtain rfl := h.eq_of_code_eq hapart hattached (.inr hx) hcode
    rcases hz with rfl | hz
    · exact Nat.lt_irrefl _ (h.lt_of_mem_ancestors hx)
    · exact hfresh hz
  rw [pairOf_of_parent hp]
  refine ⟨fun z hz => ?_, fun z hz => ?_, fun code hcode => ?_⟩
  · rcases List.mem_append.mp hz with hz | hz
    · exact hinherits.attached z hz
    · exact List.mem_singleton.mp hz ▸ hx
  · rw [List.mem_append, List.mem_singleton, ← or_assoc] at hz
    rw [Recoder.lookup_inherit]
    rcases hz with hz | rfl
    · rw [if_neg (hnew z hz), Option.or_none]
      exact hinherits.seen z hz
    · rw [if_pos rfl, hinherits.unseen _ hnew, hinherits.seen p hseen, h.nearestKept_of_parent hp]
      split <;> rfl
  · have hx : t.code x ≠ code := hcode x (.inr (by simp))
    rw [Recoder.lookup_inherit, if_neg hx.symm, Option.or_none]
    exact hinherits.unseen code fun z hz => hcode z (hz.imp_right (List.mem_append_left [x]))

theorem inherits_leafPairs (hapart : t.CodesApart) (kept : List String) :
    t.Inherits kept (t.below root).labels (Recoder.leafPairs t kept) := by
  have hpairs : t.content.relations t.totalCode = (t.below root).labels.map t.pairOf :=
    h.toRelations_eq
  rw [Recoder.leafPairs, hpairs]
  refine h.preorder_induction (motive := fun before => t.Inherits kept before
    ((before.map t.pairOf).foldl Recoder.inherit (kept.map fun listed => (listed, listed)))) root
    (h.inherits_nil kept) fun before x p hinherits hx hfresh hp hseen => ?_
  rw [List.map_append, List.foldl_append]
  exact h.inherits_concat hapart hinherits hx hfresh hp hseen

/-- **Where all codes are different, a code goes to the nearest listed code on the way up.** -/
theorem takenIn (hapart : t.CodesApart) (kept : List String) (code : String) :
    t.TakenIn kept code (t.takenIn kept code) := by
  have hinherits := h.inherits_leafPairs hapart kept
  refine ⟨fun z hz hcode => ?_, fun hnone => ?_⟩
  · have hseen := hinherits.seen z (hz.imp_right h.mem_labels_below.mpr)
    rw [CodeTree.takenIn, ← hcode, hseen]
  · have hunseen := hinherits.unseen code fun z hz => hnone z (hz.imp_right h.mem_labels_below.mp)
    rw [CodeTree.takenIn, hunseen]
    split <;> rfl

end Linked

/-- **Recoding by listed codes takes each code of a tree to its nearest listed code.** Whatever the
codes are, listed codes stay, a code becomes a listed one or stays, and recoding again changes
nothing. -/
theorem Reachable.recode_leaves (h : t.Reachable) (kept : List String) :
    (t.CodesApart → ∀ codes, ∃ results,
      (Recoder.leaves kept).apply (some t) codes = .ok results ∧
        List.Forall₂ (t.TakenIn kept) codes results) ∧
    ∀ codes, ∃ results, (Recoder.leaves kept).apply (some t) codes = .ok results ∧
      List.Forall₂ (fun code target => (code ∈ kept → target = code) ∧
        (target ∈ kept ∨ target = code)) codes results ∧
      (Recoder.leaves kept).apply (some t) results = .ok results := by
  refine ⟨fun hapart codes => ⟨_, apply_leaves t kept codes, ?_⟩,
    fun codes => ⟨_, apply_leaves t kept codes, ?_, ?_⟩⟩
  · rw [List.forall₂_map_right_iff, List.forall₂_same]
    exact fun code _ => h.sound.toLinked.takenIn hapart kept code
  · rw [List.forall₂_map_right_iff, List.forall₂_same]
    exact fun code _ => ⟨takenIn_of_mem, t.takenIn_mem_or_eq kept code⟩
  · rw [apply_leaves, List.map_map]
    exact congrArg _ (List.map_congr_left fun code _ => t.takenIn_takenIn kept code)

/-- Two branches, one of them deep. -/
def deepTree : CodeTree :=
  ofRows [["A", "A1", "A11"], ["B", "B1"]] "Total"

/-- The same with a code under two others. -/
def crossedTree : CodeTree :=
  ofRows [["A", "X", "A11"], ["B", "X"]] "Total"

theorem deepTree_recode_leaves : deepTree.CodesApart ∧
    (∃ results, (Recoder.leaves ["A1", "A", "?"]).apply (some deepTree) ["A11", "A", "B1", "-"] =
        .ok results ∧
      List.Forall₂ (deepTree.TakenIn ["A1", "A", "?"]) ["A11", "A", "B1", "-"] results ∧
      results = ["A1", "A", "B1", "-"]) ∧
    ∃ results, (Recoder.leaves ["B", "A"]).apply (some crossedTree) ["X", "A11", "B", "Total"] =
        .ok results ∧
      (Recoder.leaves ["B", "A"]).apply (some crossedTree) results = .ok results ∧
      results = ["A", "A", "B", "Total"] := by
  have hdeep : deepTree.Reachable := .ofRows _ _
  have hcrossed : crossedTree.Reachable := .ofRows _ _
  have hapart : deepTree.CodesApart := by decide
  obtain ⟨results, hrun, htaken⟩ :=
    (hdeep.recode_leaves ["A1", "A", "?"]).1 hapart ["A11", "A", "B1", "-"]
  obtain ⟨others, hothers, _, hagain⟩ :=
    (hcrossed.recode_leaves ["B", "A"]).2 ["X", "A11", "B", "Total"]
  exact ⟨hapart, ⟨results, hrun, htaken, (Except.ok.inj hrun).symm⟩,
    ⟨others, hothers, hagain, (Except.ok.inj hothers).symm⟩⟩

end CodeTree

end Disclosure
