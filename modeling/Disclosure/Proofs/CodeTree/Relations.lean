import Disclosure.Proofs.CodeTree.RowPaths

/-!
# Pairs in and pairs out

A tree is built from pairs one by one, each of a code and the code above it. A code stands for the
node that was made for it last, and that is where the next code below it goes.

The pairs of a tree name every parent before its children, so a parent always stands for some node,
and no pair makes more than one (`Linking.Follows`). If all codes are different, a parent stands for
the right node, and adding the pairs of a forest grafts the forest. The other way round, the tree that
is built from pairs has just these pairs, if they name parents first (`Linking.Tells`): one node more
is one pair more, wherever it is put.
-/

namespace Disclosure.CodeTree

variable {t u : CodeTree} {l : Linking} {p x id depth : Nat}
  {code parent total : String} {pairs : List (String × String)}

/-! ## One pair -/

/-- The node that a code stands for when it is given as a parent. -/
def Linking.above? (l : Linking) (parent : String) : Option NodeId :=
  if parent = "" || parent = l.tree.totalCode then some root else l.known.lookup parent

theorem Linking.above?_total (l : Linking) : l.above? l.tree.totalCode = some root := by
  simp [above?]

theorem Linking.add_of_above (h : l.above? (Text.trim parent) = some p) (code : String) :
    l.add (code, parent) = (l.place p (Text.trim code)).1 := by
  rw [above?] at h
  rw [add]
  dsimp only
  split at h
  · rename_i htop
    rw [if_pos htop, ← Option.some.inj h]
  · rename_i hbelow
    rw [if_neg hbelow, h]

/-- A code that is new below a node is that of a new node. -/
theorem Linking.place_of_free (hfree : code ∉ (l.tree.children p).map l.tree.code) :
    (l.place p code).1 =
      ⟨(l.tree.pushChild p code).1, (code, l.tree.nodes.size) :: l.known⟩ := by
  rw [place, createUnder_cons_of_free hfree]
  rfl

/-- The tree is sound and has its total, and a code that stands for a node stands for one of the
tree. -/
structure Linking.Rooted (total : String) (l : Linking) : Prop where
  /-- The tree is sound. -/
  sound : l.tree.Sound
  /-- The total code is the one that was given. -/
  totalCode_eq : l.tree.totalCode = total
  /-- A known node is in the tree. -/
  attached : ∀ {code id}, l.known.lookup code = some id → l.tree.Attached id

theorem Linked.lt_size_of_attached (h : t.Linked) (hx : t.Attached x) : x < t.nodes.size := by
  rcases hx with rfl | hx
  · exact h.hasRoot
  · exact h.lt_size_of_mem_ancestors hx

theorem Linked.placed_createUnder (h : t.Linked) (hp : t.Attached p) (code : String) :
    Placed t (t.depth p) code (t.createUnder p [code]).1 := by
  cases hchild : t.child? p code with
  | some child =>
    rw [createUnder_cons_of_child hchild]
    exact .merged
  | none =>
    have hfree := child?_eq_none_iff.mp hchild
    rw [createUnder_cons_of_free hfree]
    exact .added (h.lt_size_of_attached hp) hp rfl hfree

theorem Placed.attached (hu : Placed t depth code u) (h : t.Linked) (hx : t.Attached x) :
    u.Attached x := by
  cases hu with
  | merged => exact hx
  | added hp hattached _ hfree =>
    exact hx.imp_right fun hx => (h.root_mem_ancestors_pushChild hp hfree hattached).mpr (.inr hx)

namespace Linking.Rooted

theorem start (total : String) : Linking.Rooted total ⟨new total, []⟩ :=
  ⟨sound_new total, rfl, fun hlookup => absurd hlookup (by simp)⟩

variable (h : l.Rooted total)

include h

theorem attached_of_above (hp : l.above? parent = some p) : l.tree.Attached p := by
  rw [above?] at hp
  split at hp
  · exact .inl (Option.some.inj hp).symm
  · exact h.attached hp

/-- A pair makes one node at most. -/
theorem place (hp : l.tree.Attached p) (code : String) :
    (l.place p code).1.Rooted total ∧ (l.place p code).1.tree.size ≤ l.tree.size + 1 := by
  have hl := h.sound.toLinked
  have hlt := hl.lt_size_of_attached hp
  have hplaced := hl.placed_createUnder hp code
  refine ⟨⟨(h.sound.createUnder hlt [code]).1, (hplaced.totalCode_eq hl).trans h.totalCode_eq,
    fun {other id} hlookup => ?_⟩, (hplaced.counts hl).1⟩
  rw [Linking.place, List.lookup_cons] at hlookup
  split at hlookup
  · rw [← Option.some.inj hlookup]
    have hchild := hl.child?_createUnder_singleton hlt code
    have hl' := hplaced.linked hl
    exact .inr (hl'.attached_of_parent (hl'.mem_children_iff.mp (of_child?_eq_some hchild).1)
      (hplaced.attached hl hp))
  · exact hplaced.attached hl (h.attached hlookup)

/-- A code that stood for a node still does, and so does the one that was placed. -/
theorem above_place (hp : l.tree.Attached p) {other : String}
    (hother : other = code ∨ (l.above? other).isSome) :
    ((l.place p code).1.above? other).isSome := by
  have htotal : (l.place p code).1.tree.totalCode = l.tree.totalCode :=
    (h.place hp code).1.totalCode_eq.trans h.totalCode_eq.symm
  rw [above?] at hother ⊢
  rw [htotal]
  split
  · rfl
  · rename_i hbelow
    rw [if_neg hbelow] at hother
    rw [Linking.place, List.lookup_cons]
    split
    · rfl
    · rename_i hne
      exact hother.resolve_left (by simpa using hne)

end Linking.Rooted

/-! ## Pairs of a tree -/

/-- What the pairs of the nodes so far have come to. -/
structure Linking.Follows (t : CodeTree) (before : List Nat) (l : Linking) : Prop where
  rooted : l.Rooted t.totalCode
  size_le : l.tree.size ≤ before.length
  above : ∀ x ∈ before, (l.above? (Text.trim (t.code x))).isSome

/-- The pair of a node comes behind that of its parent, so the parent stands for a node by then. -/
theorem Linking.Follows.add {before : List Nat} (h : Linking.Follows t before l)
    (htotal : Text.IsTrimmed t.totalCode) (hp : t.parent? x = some p)
    (hbefore : p = root ∨ p ∈ before) :
    Linking.Follows t (before ++ [x]) (l.add (t.pairOf x)) := by
  have habove : (l.above? (Text.trim (t.code p))).isSome := by
    rcases hbefore with rfl | hbefore
    · have hself : Text.trim (t.code root) = t.totalCode := htotal
      rw [hself, ← h.rooted.totalCode_eq, l.above?_total]
      rfl
    · exact h.above p hbefore
  obtain ⟨q, hq⟩ := Option.isSome_iff_exists.mp habove
  have hattached := h.rooted.attached_of_above hq
  obtain ⟨hrooted, hsize⟩ := h.rooted.place hattached (Text.trim (t.code x))
  rw [pairOf_of_parent hp, Linking.add_of_above hq]
  refine ⟨hrooted, ?_, fun y hy => ?_⟩
  · have hle := h.size_le
    rw [List.length_append, List.length_singleton]
    omega
  · refine h.rooted.above_place hattached ?_
    rcases List.mem_append.mp hy with hy | hy
    · exact .inr (h.above y hy)
    · rw [List.mem_singleton.mp hy]
      exact .inl rfl

/-- **A tree that is built from the pairs of another has no more nodes.** -/
theorem Linked.follows_relations (h : t.Linked) (htotal : Text.IsTrimmed t.totalCode) :
    Linking.Follows t (t.below root).labels
      (((t.below root).labels.map t.pairOf).foldl Linking.add ⟨new t.totalCode, []⟩) := by
  refine h.preorder_induction root (motive := fun before => Linking.Follows t before
    ((before.map t.pairOf).foldl Linking.add ⟨new t.totalCode, []⟩)) ?_ ?_
  · exact ⟨.start _, by simp [size_new_content], by simp⟩
  · intro before x p hfollows _ _ hp hbefore
    rw [List.map_append, List.foldl_append, List.map_singleton, List.foldl_cons, List.foldl_nil]
    exact hfollows.add htotal hp hbefore

/-- Codes that can be read back from pairs: trimmed, with something to see, and not the total. -/
structure IsPairCode (total code : String) : Prop where
  trimmed : Text.IsTrimmed code
  ne_empty : code ≠ ""
  ne_total : code ≠ total

/-- **Adding the pairs of a forest grafts the forest**, if no code comes twice. What other codes stand
for is left alone. -/
theorem Linking.foldl_relations {f : Forest String} (hf : f.Distinct) (hnodup : f.labels.Nodup)
    (hcodes : ∀ code ∈ f.labels, IsPairCode l.tree.totalCode code)
    (hparent : Text.IsTrimmed parent) (habove : l.above? parent = some p)
    (hself : parent ∉ f.labels) (h : l.tree.Sound) (hp : p < l.tree.nodes.size)
    (hfree : ∀ code ∈ f.tops, code ∉ (l.tree.children p).map l.tree.code) :
    ∃ known, (∀ other, other ∉ f.labels → known.lookup other = l.known.lookup other) ∧
      (f.relations parent).foldl Linking.add l = ⟨l.tree.graft p f, known⟩ := by
  induction f generalizing l p parent with
  | nil => exact ⟨l.known, fun _ _ => rfl, rfl⟩
  | cons code below next ihb ihn =>
    obtain ⟨hcode, hbelow, hnext⟩ := hf
    rw [Forest.tops, List.forall_mem_cons] at hfree
    rw [Forest.labels_cons, List.forall_mem_cons, List.forall_mem_append] at hcodes
    rw [Forest.labels_cons, List.mem_cons, List.mem_append, not_or, not_or] at hself
    rw [Forest.labels_cons, List.nodup_cons, List.mem_append, not_or, List.nodup_append] at hnodup
    have hchild := h.sound_pushChild hp hfree.1
    have hsize : l.tree.nodes.size < (l.tree.pushChild p code).1.nodes.size := by simp
    have hnone := children_pushChild_self hp code
    have hgrafted := h.toLinked.grafted_first hp hfree.1 hbelow
    have htotal : (l.tree.pushChild p code).1.totalCode = l.tree.totalCode :=
      (growsAt_pushChild hp code).code_eq root h.hasRoot
    have htotal' : ((l.tree.pushChild p code).1.graft l.tree.nodes.size below).totalCode =
      l.tree.totalCode := hgrafted.grows.code_eq root h.hasRoot
    have hplace : l.add (code, parent) =
        ⟨(l.tree.pushChild p code).1, (code, l.tree.nodes.size) :: l.known⟩ := by
      have htrim : Text.trim code = code := hcodes.1.trimmed
      rw [← place_of_free hfree.1, add_of_above (hparent.symm ▸ habove), htrim]
    -- the code that was placed stands for the new node
    obtain ⟨knownb, hknownb, hrunb⟩ := ihb hbelow hnodup.2.1
      (l := ⟨(l.tree.pushChild p code).1, (code, l.tree.nodes.size) :: l.known⟩)
      (p := l.tree.nodes.size) (by rw [htotal]; exact hcodes.2.1)
      hcodes.1.trimmed
      (by simp [above?, hcodes.1.ne_empty, htotal, hcodes.1.ne_total])
      hnodup.1.1 hchild hsize (by simp [hnone])
    -- and the parent still stands for the node that it stood for
    obtain ⟨known, hknown, hrun⟩ := ihn hnext hnodup.2.2.1
      (l := ⟨(l.tree.pushChild p code).1.graft l.tree.nodes.size below, knownb⟩)
      (p := p) (by rw [htotal']; exact hcodes.2.2) hparent
      (by
        rw [above?] at habove ⊢
        rw [htotal', hknownb parent hself.2.1, List.lookup_cons,
          beq_eq_false_iff_ne.mpr hself.1]
        exact habove)
      hself.2.2 hgrafted.sound (hp.trans_le hgrafted.grows.size_le)
      (hgrafted.free_next hcode hfree.2)
    refine ⟨known, fun other hother => ?_, ?_⟩
    · rw [Forest.labels_cons, List.mem_cons, List.mem_append, not_or, not_or] at hother
      rw [hknown other hother.2.2, hknownb other hother.2.1, List.lookup_cons,
        beq_eq_false_iff_ne.mpr hother.1]
    · rw [Forest.relations, List.foldl_cons, hplace, List.foldl_append, hrunb, hrun]
      rfl

/-- The pairs of a tree build it again, if its codes are all different and stay as they are. -/
theorem Linked.ofRelations_toRelations (h : t.Linked) (htotal : Text.IsTrimmed t.totalCode)
    (hapart : t.CodesApart)
    (hcodes : ∀ x, root ∈ t.ancestors x → t.code x ≠ "" ∧ Text.IsTrimmed (t.code x)) :
    ofRelations t.toRelations t.totalCode = t.copyOf root := by
  have hpairCodes : ∀ code ∈ t.content.labels, IsPairCode t.totalCode code := by
    intro code hcode
    obtain ⟨x, hx, hsame⟩ := h.mem_labels_content.mp hcode
    refine ⟨hsame ▸ (hcodes x hx).2, hsame ▸ (hcodes x hx).1, ?_⟩
    exact fun htop => (List.nodup_cons.mp hapart).1 (htop ▸ hcode)
  obtain ⟨known, -, hrun⟩ := Linking.foldl_relations (l := ⟨new t.totalCode, []⟩)
    (h.distinct_codesBelow root) (List.nodup_cons.mp hapart).2 hpairCodes htotal (p := root)
    (Linking.above?_total _)
    (fun hin => (hpairCodes _ hin).ne_total rfl) (sound_new _) Nat.zero_lt_one (by simp)
  rw [ofRelations, toRelations, content, hrun]
  rfl

/-! ## Pairs that name parents first -/

/-- Pairs in which every parent is named before. -/
structure ParentsFirst (total : String) (pairs : List (String × String)) : Prop where
  /-- No code is named twice. -/
  nodup : (pairs.map Prod.fst).Nodup
  /-- Codes are trimmed, not empty, and not the total. -/
  codes : ∀ code ∈ pairs.map Prod.fst, IsPairCode total code
  /-- A parent is empty, the total, or a code that was named before. -/
  parents : ∀ i (hi : i < pairs.length), pairs[i].2 = "" ∨ pairs[i].2 = total ∨
    pairs[i].2 ∈ (pairs.take i).map Prod.fst

/-- A pair with the total in place of an empty parent. -/
def named (total : String) (pair : String × String) : String × String :=
  (pair.1, if pair.2 = "" then total else pair.2)

/-- What pairs have come to: the tree has just these pairs, and their codes stand for its nodes. -/
structure Linking.Tells (total : String) (pairs : List (String × String)) (l : Linking) : Prop where
  rooted : l.Rooted total
  known : ∀ code ∈ pairs.map Prod.fst, ∃ id, l.known.lookup code = some id ∧ l.tree.code id = code
  perm : l.tree.toRelations.Perm (pairs.map (named total))

theorem ParentsFirst.front {more : List (String × String)}
    (h : ParentsFirst total (pairs ++ more)) : ParentsFirst total pairs where
  nodup := by
    have hnodup := h.nodup
    rw [List.map_append] at hnodup
    exact hnodup.of_append_left
  codes code hcode := h.codes code (by rw [List.map_append]; exact List.mem_append_left _ hcode)
  parents i hi := by
    have hi' : i < (pairs ++ more).length := by
      rw [List.length_append]
      omega
    have hparent := h.parents i hi'
    rwa [List.getElem_append_left hi, List.take_append_of_le_length hi.le] at hparent

/-- One more node is one more pair. -/
theorem Linked.toRelations_pushChild (h : t.Linked) (hp : t.Attached p)
    (hfree : code ∉ (t.children p).map t.code) :
    (t.pushChild p code).1.toRelations.Perm ((code, t.code p) :: t.toRelations) := by
  have hlt := h.lt_size_of_attached hp
  have hgrows := growsAt_pushChild hlt code
  rw [(h.pushChild hlt hfree).toRelations_eq, h.toRelations_eq]
  refine ((h.perm_labels_pushChild hlt hfree hp).map _).trans ?_
  have hold : (t.below root).labels.map (t.pushChild p code).1.pairOf =
      (t.below root).labels.map t.pairOf := by
    refine List.map_congr_left fun x hx => ?_
    have hx := h.mem_labels_below.mp hx
    obtain ⟨q, hq, -⟩ := h.parent_attached hx
    have hltx := h.lt_size_of_mem_ancestors hx
    have hq' := (hgrows.parent?_eq x hltx).trans hq
    rw [pairOf_of_parent hq, pairOf_of_parent hq', hgrows.code_eq x hltx,
      hgrows.code_eq q ((h.parent_lt hq).trans hltx)]
  have hnew : (t.pushChild p code).1.pairOf t.nodes.size = (code, t.code p) := by
    have hparent : (t.pushChild p code).1.parent? t.nodes.size = some p := by
      rw [parent?_pushChild, if_pos rfl]
    rw [pairOf_of_parent hparent, code_pushChild, if_pos rfl, hgrows.code_eq p hlt]
  rw [List.map_cons, hold, hnew]

theorem Linking.Tells.code_mem (h : l.Tells total pairs) (hx : root ∈ l.tree.ancestors x) :
    l.tree.code x ∈ pairs.map Prod.fst := by
  have hl := h.rooted.sound.toLinked
  have hcodes := h.perm.map Prod.fst
  rw [hl.toRelations_eq, List.map_map, List.map_map] at hcodes
  have hmem := hcodes.mem_iff.mp (List.mem_map_of_mem (hl.mem_labels_below.mpr hx))
  exact hmem

/-- A parent that was named stands for the node with its code. -/
theorem Linking.Tells.exists_above (h : l.Tells total pairs) (htotal : Text.IsTrimmed total)
    (hcodes : ∀ code ∈ pairs.map Prod.fst, IsPairCode total code)
    (hparent : parent = "" ∨ parent = total ∨ parent ∈ pairs.map Prod.fst) (code : String) :
    ∃ p, l.above? (Text.trim parent) = some p ∧ l.tree.code p = (named total (code, parent)).2 := by
  have hroot : l.tree.code root = total := h.rooted.totalCode_eq
  rcases hparent with rfl | rfl | hparent
  · exact ⟨root, rfl, hroot⟩
  · have htrim : Text.trim parent = l.tree.totalCode := htotal.trans hroot.symm
    refine ⟨root, ?_, ?_⟩
    · rw [htrim, l.above?_total]
    · rw [hroot, named, ite_self]
  · have hcode := hcodes parent hparent
    have htrim : Text.trim parent = parent := hcode.trimmed
    obtain ⟨id, hlookup, hid⟩ := h.known parent hparent
    refine ⟨id, ?_, ?_⟩
    · rw [htrim, above?, if_neg (by simp [hcode.ne_empty, h.rooted.totalCode_eq, hcode.ne_total]),
        hlookup]
    · rw [hid, named, if_neg hcode.ne_empty]

theorem toRelations_new (total : String) : (new total).toRelations = [] := by
  rw [(linked_new total).toRelations_eq, (linked_new total).below_eq, children_new]
  rfl

/-- One more pair with a new code below a parent that was named. -/
theorem Linking.Tells.add (h : l.Tells total pairs) (htotal : Text.IsTrimmed total)
    (hcodes : ∀ code ∈ pairs.map Prod.fst, IsPairCode total code) (hcode : IsPairCode total code)
    (hfresh : code ∉ pairs.map Prod.fst)
    (hparent : parent = "" ∨ parent = total ∨ parent ∈ pairs.map Prod.fst) :
    (l.add (code, parent)).Tells total (pairs ++ [(code, parent)]) := by
  obtain ⟨p, habove, hname⟩ := h.exists_above htotal hcodes hparent code
  have hl := h.rooted.sound.toLinked
  have hattached := h.rooted.attached_of_above habove
  have hfree : code ∉ (l.tree.children p).map l.tree.code := by
    intro hin
    obtain ⟨c, hc, hsame⟩ := List.mem_map.mp hin
    exact hfresh (hsame ▸
      h.code_mem (hl.attached_of_parent (hl.mem_children_iff.mp hc) hattached))
  have hrooted := (h.rooted.place hattached code).1
  have htrim : Text.trim code = code := hcode.trimmed
  rw [Linking.place_of_free hfree] at hrooted
  rw [Linking.add_of_above habove, htrim, Linking.place_of_free hfree]
  refine ⟨hrooted, fun other hother => ?_, ?_⟩
  · rcases eq_or_ne other code with rfl | hne
    · refine ⟨l.tree.nodes.size, List.lookup_cons_self, ?_⟩
      rw [code_pushChild, if_pos rfl]
    · have hold : other ∈ pairs.map Prod.fst := by
        rw [List.map_append, List.mem_append] at hother
        exact hother.resolve_right fun hnew => hne (List.mem_singleton.mp hnew)
      obtain ⟨id, hlookup, hid⟩ := h.known other hold
      have hlt := hl.lt_size_of_attached (h.rooted.attached hlookup)
      refine ⟨id, ?_, ?_⟩
      · rw [List.lookup_cons, beq_eq_false_iff_ne.mpr hne]
        exact hlookup
      · rw [code_pushChild, if_neg hlt.ne, hid]
  · refine (hl.toRelations_pushChild hattached hfree).trans ?_
    rw [hname, List.map_append]
    exact (h.perm.cons _).trans (List.perm_append_singleton _ _).symm

/-- **Pairs that name parents first are what the tree that is built from them says.** -/
theorem ParentsFirst.tells (h : ParentsFirst total pairs) (htotal : Text.IsTrimmed total) :
    (pairs.foldl Linking.add ⟨new total, []⟩).Tells total pairs := by
  induction pairs using List.reverseRecOn with
  | nil => exact ⟨.start total, by simp, by simp [toRelations_new]⟩
  | append_singleton pairs pair ih =>
    have hcode := h.codes pair.1 (by simp)
    have hfresh : pair.1 ∉ pairs.map Prod.fst := by
      have hnodup := h.nodup
      rw [List.map_append, List.nodup_append] at hnodup
      exact fun hin => hnodup.2.2 pair.1 hin pair.1 (by simp) rfl
    have hparent := h.parents pairs.length (by simp)
    rw [List.getElem_concat_length rfl, List.take_left] at hparent
    rw [List.foldl_append, List.foldl_cons, List.foldl_nil]
    exact (ih h.front).add htotal h.front.codes hcode hfresh hparent

/-! ## Pairs and trees -/

/-- **A tree has the pairs that it is given, and gives them back.** Built from the pairs of a tree, it
has no more nodes than that tree, and it is the same tree if all codes are different, trimmed and not
empty. And pairs that name parents first come out as they went in, in some order, with the total in
place of empty parents. -/
theorem ofRelations_exact :
    (∀ t : CodeTree, t.Reachable → Text.IsTrimmed t.totalCode →
      (ofRelations t.toRelations t.totalCode).size ≤ t.size ∧
      (t.CodesApart →
        (∀ x, root ∈ t.ancestors x → t.code x ≠ "" ∧ Text.IsTrimmed (t.code x)) →
        (ofRelations t.toRelations t.totalCode).same t = true)) ∧
    ∀ (total : String) (pairs : List (String × String)), Text.IsTrimmed total →
      ParentsFirst total pairs →
      (ofRelations pairs total).toRelations.Perm
        (pairs.map fun (code, parent) => (code, if parent = "" then total else parent)) := by
  refine ⟨fun t ht htotal => ?_, fun total pairs htotal hpairs => (hpairs.tells htotal).perm⟩
  have hl := ht.sound.toLinked
  refine ⟨?_, fun hapart hcodes => ?_⟩
  · rw [ofRelations, hl.toRelations_eq, size_eq_length_labels t]
    exact (hl.follows_relations htotal).size_le
  · rw [hl.ofRelations_toRelations htotal hapart hcodes]
    exact hl.same_copyOf

/-- A tree with a code below itself: its pairs name the inner one last, and then all that is below the
outer one goes there too. -/
def nestedCodeTree : CodeTree :=
  ofRows [["A", "A", "B"], ["A", "B"]] "Total"

theorem nestedCodeTree_exact :
    ((ofRelations nestedCodeTree.toRelations "Total").size = 3 ∧ nestedCodeTree.size = 4 ∧
      (ofRelations nestedCodeTree.toRelations "Total").size ≤ nestedCodeTree.size) ∧
    (ofRelations paddedTree.toRelations "Total").same paddedTree = true ∧
    (ofRelations [("A", ""), ("B", "Total"), ("A1", "A"), ("A2", "A")] "Total").toRelations.Perm
      [("A", "Total"), ("B", "Total"), ("A1", "A"), ("A2", "A")] := by
  have hnested : nestedCodeTree.Reachable := .ofRows _ _
  have hpadded : paddedTree.Reachable := .ofRows _ _
  have hcodes : ∀ x < 6, root ∈ paddedTree.ancestors x →
      paddedTree.code x ≠ "" ∧ Text.IsTrimmed (paddedTree.code x) := by decide
  have hpairs : ParentsFirst "Total" [("A", ""), ("B", "Total"), ("A1", "A"), ("A2", "A")] := by
    have hpairCodes : ∀ code ∈ ["A", "B", "A1", "A2"],
        Text.IsTrimmed code ∧ code ≠ "" ∧ code ≠ "Total" := by decide
    refine ⟨by decide, fun code hcode => ?_, by decide⟩
    obtain ⟨htrimmed, hempty, htotal⟩ := hpairCodes code hcode
    exact ⟨htrimmed, hempty, htotal⟩
  refine ⟨⟨by decide, by decide, (ofRelations_exact.1 _ hnested (by decide)).1⟩, ?_,
    ofRelations_exact.2 _ _ (by decide) hpairs⟩
  exact (ofRelations_exact.1 _ hpadded (by decide)).2 (by decide) fun x hx =>
    hcodes x (hpadded.sound.lt_size_of_mem_ancestors hx) hx

end Disclosure.CodeTree
