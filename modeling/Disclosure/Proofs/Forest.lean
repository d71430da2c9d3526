import Disclosure.Recode.Mapping
import Mathlib.Data.List.Nodup

/-!
# Forests from lists

Walks over a code tree turn a list of nodes into a forest, one tree for each node. `ofList` is that
step, and the lemmas here say what it does to the labels: those on top are the ones that were
listed, and all others come from what is put below them.

A forest is **distinct** when siblings have different labels, at every level. This is what lets a
reader that merges equal siblings build the forest again.
-/

namespace Disclosure.Forest

variable {α β γ : Type}

/-- The labels of the trees themselves, without what is below them. -/
def tops : Forest α → List α
  | nil => []
  | cons label _ next => label :: next.tops

/-- The trees of one forest and then those of another. -/
def append : Forest α → Forest α → Forest α
  | nil, g => g
  | cons label below next, g => cons label below (next.append g)

/-- A tree for each value of a list. -/
def ofList (label : α → β) (below : α → Forest β) (xs : List α) : Forest β :=
  xs.foldr (fun x next => .cons (label x) (below x) next) .nil

/-- Siblings have different labels, at every level. -/
def Distinct : Forest α → Prop
  | nil => True
  | cons label below next => label ∉ next.tops ∧ below.Distinct ∧ next.Distinct

@[simp] theorem append_nil (f : Forest α) : f.append nil = f := by
  induction f with
  | nil => rfl
  | cons label below next _ ihn => rw [append, ihn]

theorem append_assoc (f g k : Forest α) : (f.append g).append k = f.append (g.append k) := by
  induction f with
  | nil => rfl
  | cons label below next _ ihn => rw [append, append, append, ihn]

theorem tops_append (f g : Forest α) : (f.append g).tops = f.tops ++ g.tops := by
  induction f with
  | nil => rfl
  | cons label below next _ ihn => rw [append, tops, tops, ihn, List.cons_append]

/-! ## Labels -/

/-- The labels come in the same order, whatever the depths are counted from. -/
theorem map_fst_preorder (f : Forest α) (depth : Nat) :
    (f.preorder depth).map Prod.fst = f.labels := by
  have hdepths : ∀ d e, (f.preorder d).map Prod.fst = (f.preorder e).map Prod.fst := by
    induction f with
    | nil => exact fun d e => rfl
    | cons label below next ihb ihn =>
      intro d e
      simp [preorder, ihb (d + 1) (e + 1), ihn d e]
  exact hdepths depth 1

@[simp] theorem labels_nil : (nil : Forest α).labels = [] :=
  rfl

@[simp] theorem labels_cons (label : α) (below next : Forest α) :
    (cons label below next).labels = label :: (below.labels ++ next.labels) := by
  rw [← map_fst_preorder below 2, labels, labels, preorder]
  simp

theorem preorder_map (g : α → β) (f : Forest α) (depth : Nat) :
    (f.map g).preorder depth = (f.preorder depth).map fun (label, d) => (g label, d) := by
  induction f generalizing depth with
  | nil => rfl
  | cons label below next ihb ihn => simp [map, preorder, ihb, ihn]

theorem labels_map (g : α → β) (f : Forest α) : (f.map g).labels = f.labels.map g := by
  rw [labels, labels, preorder_map, List.map_map, List.map_map]
  rfl

/-- One level further down, everything is one level further down. -/
theorem preorder_succ (f : Forest α) (depth : Nat) :
    f.preorder (depth + 1) = (f.preorder depth).map fun (label, d) => (label, d + 1) := by
  induction f generalizing depth with
  | nil => rfl
  | cons label below next ihb ihn => simp [preorder, ihb, ihn]

/-! ## Forests from lists -/

@[simp] theorem ofList_nil (label : α → β) (below : α → Forest β) : ofList label below [] = nil :=
  rfl

@[simp] theorem ofList_cons (label : α → β) (below : α → Forest β) (x : α) (xs : List α) :
    ofList label below (x :: xs) = cons (label x) (below x) (ofList label below xs) :=
  rfl

theorem ofList_append (label : α → β) (below : α → Forest β) (xs ys : List α) :
    ofList label below (xs ++ ys) = (ofList label below xs).append (ofList label below ys) := by
  induction xs with
  | nil => rfl
  | cons x xs ih => simp [append, ih]

theorem ofList_congr {label label' : α → β} {below below' : α → Forest β} {xs : List α}
    (hlabel : ∀ x ∈ xs, label x = label' x) (hbelow : ∀ x ∈ xs, below x = below' x) :
    ofList label below xs = ofList label' below' xs := by
  induction xs with
  | nil => rfl
  | cons x xs ih =>
    rw [List.forall_mem_cons] at hlabel hbelow
    rw [ofList_cons, ofList_cons, hlabel.1, hbelow.1, ih hlabel.2 hbelow.2]

theorem map_ofList (g : β → γ) (label : α → β) (below : α → Forest β) (xs : List α) :
    (ofList label below xs).map g = ofList (g ∘ label) (fun x => (below x).map g) xs := by
  induction xs with
  | nil => rfl
  | cons x xs ih => simp [map, ih]

@[simp] theorem tops_ofList (label : α → β) (below : α → Forest β) (xs : List α) :
    (ofList label below xs).tops = xs.map label := by
  induction xs with
  | nil => rfl
  | cons x xs ih => simp [tops, ih]

theorem mem_labels_ofList {label : α → β} {below : α → Forest β} {xs : List α} {b : β} :
    b ∈ (ofList label below xs).labels ↔ ∃ x ∈ xs, b = label x ∨ b ∈ (below x).labels := by
  induction xs with
  | nil => simp
  | cons x xs ih => simp [ih, or_assoc]

theorem labels_ofList (label : α → β) (below : α → Forest β) (xs : List α) :
    (ofList label below xs).labels = xs.flatMap fun x => label x :: (below x).labels := by
  induction xs with
  | nil => rfl
  | cons x xs ih => simp [ih]

theorem mem_preorder_ofList {label : α → β} {below : α → Forest β} {xs : List α} {depth : Nat}
    {node : β × Nat} :
    node ∈ (ofList label below xs).preorder depth ↔
      ∃ x ∈ xs, node = (label x, depth) ∨ node ∈ (below x).preorder (depth + 1) := by
  induction xs with
  | nil => simp [preorder]
  | cons x xs ih => simp [preorder, ih, or_assoc]

@[simp] theorem isEmpty_ofList (label : α → β) (below : α → Forest β) (xs : List α) :
    (ofList label below xs).isEmpty = xs.isEmpty := by
  cases xs <;> rfl

theorem leaves_ofList (label : α → β) (below : α → Forest β) (xs : List α) :
    (ofList label below xs).leaves =
      xs.flatMap fun x => if (below x).isEmpty then [label x] else (below x).leaves := by
  induction xs with
  | nil => rfl
  | cons x xs ih => rw [ofList_cons, leaves, ih, List.flatMap_cons]

theorem rows_ofList (label : α → β) (below : α → Forest β) (xs : List α) :
    (ofList label below xs).rows = xs.flatMap fun x =>
      if (below x).isEmpty then [[label x]] else (below x).rows.map (label x :: ·) := by
  induction xs with
  | nil => rfl
  | cons x xs ih => rw [ofList_cons, rows, ih, List.flatMap_cons]

theorem relations_ofList (label : α → β) (below : α → Forest β) (parent : β) (xs : List α) :
    (ofList label below xs).relations parent =
      xs.flatMap fun x => (label x, parent) :: (below x).relations (label x) := by
  induction xs with
  | nil => rfl
  | cons x xs ih => rw [ofList_cons, relations, ih, List.flatMap_cons, List.cons_append]

theorem distinct_ofList {label : α → β} {below : α → Forest β} {xs : List α}
    (hlabel : (xs.map label).Nodup) (hbelow : ∀ x ∈ xs, (below x).Distinct) :
    (ofList label below xs).Distinct := by
  induction xs with
  | nil => trivial
  | cons x xs ih =>
    rw [List.map_cons, List.nodup_cons] at hlabel
    rw [List.forall_mem_cons] at hbelow
    refine ⟨?_, hbelow.1, ih hlabel.2 hbelow.2⟩
    show label x ∉ (ofList label below xs).tops
    rw [tops_ofList]
    exact hlabel.1

end Disclosure.Forest
