import Disclosure.Proofs.CodeTree.Depths
import Disclosure.Proofs.CodeTree.Indented

/-!
# What a tree from rows has in it

A tree that is given as rows has the codes of the rows, and the total it was given. A walk down a
path makes the nodes that are missing, each below the one it has come to, so what it goes by is
always the root or below it.
-/

namespace Disclosure.CodeTree

variable {t u : CodeTree} {id : Nat} {path : List String} {total code : String}

/-- What walking down a path, and making what is missing, comes to. -/
structure Walked (t : CodeTree) (path : List String) (u : CodeTree) : Prop where
  /-- The links are kept in step. -/
  linked : u.Linked
  /-- The total code is as it was. -/
  totalCode_eq : u.totalCode = t.totalCode
  /-- The codes are those there were, and those of the path. -/
  mem_labels_iff : ∀ code, code ∈ u.content.labels ↔ code ∈ t.content.labels ∨ code ∈ path

theorem walked_createUnder (h : t.Linked) (hid : id < t.nodes.size) (hattached : t.Attached id) :
    Walked t path (t.createUnder id path).1 := by
  induction path generalizing t id with
  | nil => exact ⟨h, rfl, fun code => by simp [createUnder]⟩
  | cons code rest ih =>
    rw [createUnder]
    cases hchild : t.child? id code with
    | some child =>
      obtain ⟨hmem, hcode⟩ := of_child?_eq_some hchild
      have hroot : root ∈ t.ancestors child :=
        h.mem_ancestors_iff.mpr ⟨id, h.mem_children_iff.mp hmem, hattached.imp_left Eq.symm⟩
      have hrest := ih h (h.child_lt_size hmem) (.inr hroot)
      refine ⟨hrest.linked, hrest.totalCode_eq, fun other => ?_⟩
      -- the first code of the path is there already
      have hold : code ∈ t.content.labels := h.mem_labels_content.mpr ⟨child, hroot, hcode⟩
      rw [hrest.mem_labels_iff, List.mem_cons]
      constructor
      · exact Or.imp_right .inr
      · rintro (hother | rfl | hother)
        · exact .inl hother
        · exact .inl hold
        · exact .inr hother
    | none =>
      have hfree := child?_eq_none_iff.mp hchild
      have hgrown := h.pushChild hid hfree
      have hlt : t.nodes.size < (t.pushChild id code).1.nodes.size := by simp
      have hroot : root ∈ (t.pushChild id code).1.ancestors t.nodes.size :=
        (h.root_mem_ancestors_pushChild hid hfree hattached).mpr (.inl rfl)
      have hrest := ih hgrown hlt (.inr hroot)
      have htotal := (growsAt_pushChild hid code).code_eq root h.hasRoot
      refine ⟨hrest.linked, hrest.totalCode_eq.trans htotal, fun other => ?_⟩
      refine (hrest.mem_labels_iff other).trans ?_
      rw [h.mem_labels_pushChild hid hfree hattached, List.mem_cons, or_left_comm, or_assoc]

/-- A row after the rows before it. -/
theorem Linked.walked_row (h : t.Linked) (row : List String) :
    Walked t (cleanRow row) (t.createUnder root (cleanRow row)).1 :=
  walked_createUnder h h.hasRoot (.inl rfl)

theorem content_new (total : String) : (new total).content.labels = [] := by
  rw [content, (linked_new total).codesBelow_eq, children_new]
  rfl

theorem walked_rows (h : t.Linked) (rows : List (List String)) :
    Walked t (rows.flatMap cleanRow)
      (rows.foldl (fun t row => (t.createUnder root (cleanRow row)).1) t) := by
  induction rows generalizing t with
  | nil => exact ⟨h, rfl, fun code => by simp⟩
  | cons row rest ih =>
    have hrow := h.walked_row row
    have hrest := ih hrow.linked
    refine ⟨hrest.linked, hrest.totalCode_eq.trans hrow.totalCode_eq, fun code => ?_⟩
    rw [List.foldl_cons, hrest.mem_labels_iff, hrow.mem_labels_iff, List.flatMap_cons,
      List.mem_append, or_assoc]

theorem totalCode_ofRows (rows : List (List String)) (total : String) :
    (ofRows rows total).totalCode = total :=
  (walked_rows (linked_new total) rows).totalCode_eq

/-- **The codes of a tree from rows are those in the rows.** -/
theorem mem_labels_ofRows (rows : List (List String)) (total : String) :
    code ∈ (ofRows rows total).content.labels ↔ ∃ row ∈ rows, code ∈ cleanRow row := by
  rw [ofRows, (walked_rows (linked_new total) rows).mem_labels_iff, content_new,
    List.mem_flatMap]
  simp

/-- A cell of a row can stand at the end of a line, unless it has a line feed in it. -/
theorem endsLine_of_mem_cleanRow {row : List String} (h : code ∈ cleanRow row)
    (hfeed : '\n' ∉ code.toList) : EndsLine code := by
  rw [cleanRow, List.mem_filter, List.mem_map] at h
  obtain ⟨⟨cell, _, rfl⟩, hcode⟩ := h
  exact ⟨by simpa using hcode, Text.isTrimmed_trim cell, hfeed⟩

/-- A total code that is set again changes nothing. -/
theorem setTotalCode_totalCode (t : CodeTree) : t.setTotalCode t.totalCode = t := by
  have hnodes : t.nodes.modify root (fun node => { node with code := t.totalCode }) = t.nodes := by
    refine Array.ext (Array.size_modify ..) fun i _ hi => ?_
    rw [Array.getElem_modify]
    split
    · rename_i hroot
      subst hroot
      have hcode : t.totalCode = t.nodes[root].code := by
        rw [totalCode, CodeTree.code, Array.getElem?_eq_getElem hi]
        rfl
      simp only [hcode]
    · rfl
  rw [setTotalCode, hnodes]

end Disclosure.CodeTree
