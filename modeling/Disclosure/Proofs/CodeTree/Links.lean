import Disclosure.CodeTree.Basic
import Mathlib.Data.List.Nodup

/-!
# What a change does to codes and links

A code tree is seen through three questions about a node: its code, its parent and its children.
Every change of a tree is put together from four small ones, and this file says what each of those
does to the three answers. Nothing after it looks into the store of nodes.
-/

namespace Disclosure.CodeTree

variable {t : CodeTree} {id p c : Nat}

/-! ## Numbers that are not in use -/

theorem parent?_of_size_le (h : t.nodes.size ≤ id) : t.parent? id = none := by
  simp [parent?, Array.getElem?_eq_none h]

theorem children_of_size_le (h : t.nodes.size ≤ id) : t.children id = [] := by
  simp [children, Array.getElem?_eq_none h]

/-! ## A tree with a root only -/

@[simp] theorem size_new (total : String) : (new total).nodes.size = 1 := rfl

@[simp] theorem parent?_new (total : String) (id : Nat) : (new total).parent? id = none := by
  rw [parent?, new]
  cases id <;> rfl

@[simp] theorem children_new (total : String) (id : Nat) : (new total).children id = [] := by
  rw [children, new]
  cases id <;> rfl

/-! ## Another code -/

@[simp] theorem size_setCode (code : String) : (t.setCode id code).nodes.size = t.nodes.size := by
  simp [setCode]

@[simp] theorem parent?_setCode (code : String) (q : Nat) :
    (t.setCode id code).parent? q = t.parent? q := by
  simp only [parent?, setCode, Array.getElem?_modify]
  split <;> cases t.nodes[q]? <;> rfl

@[simp] theorem children_setCode (code : String) (q : Nat) :
    (t.setCode id code).children q = t.children q := by
  simp only [children, setCode, Array.getElem?_modify]
  split <;> simp [Function.comp_def]

theorem code_setCode (h : id < t.nodes.size) (code : String) (q : Nat) :
    (t.setCode id code).code q = if q = id then code else t.code q := by
  simp only [CodeTree.code, setCode, Array.getElem?_modify]
  by_cases hq : q = id
  · subst hq
    simp [h]
  · simp [hq, Ne.symm hq]

/-! ## One more node -/

@[simp] theorem size_pushChild (code : String) :
    (t.pushChild p code).1.nodes.size = t.nodes.size + 1 := by
  simp [pushChild]

theorem code_pushChild (code : String) (q : Nat) :
    (t.pushChild p code).1.code q = if q = t.nodes.size then code else t.code q := by
  simp only [CodeTree.code, pushChild, Array.getElem?_push, Array.size_modify,
    Array.getElem?_modify]
  by_cases hq : q = t.nodes.size
  · simp [hq]
  · rw [if_neg hq, if_neg hq]
    split <;> simp [Function.comp_def]

theorem parent?_pushChild (code : String) (q : Nat) :
    (t.pushChild p code).1.parent? q = if q = t.nodes.size then some p else t.parent? q := by
  simp only [parent?, pushChild, Array.getElem?_push, Array.size_modify, Array.getElem?_modify]
  by_cases hq : q = t.nodes.size
  · simp [hq]
  · rw [if_neg hq, if_neg hq]
    split <;> cases t.nodes[q]? <;> rfl

theorem children_pushChild (hp : p < t.nodes.size) (code : String) (q : Nat) :
    (t.pushChild p code).1.children q =
      if q = p then t.children p ++ [t.nodes.size] else t.children q := by
  simp only [children, pushChild, Array.getElem?_push, Array.size_modify, Array.getElem?_modify]
  by_cases hq : q = t.nodes.size
  · have hqp : q ≠ p := hq ▸ Nat.ne_of_gt hp
    simp [hq, hq ▸ hqp]
  · rw [if_neg hq]
    by_cases hqp : q = p
    · subst hqp
      simp [hp]
    · simp [hqp, Ne.symm hqp]

theorem children_pushChild_self (hp : p < t.nodes.size) (code : String) :
    (t.pushChild p code).1.children t.nodes.size = [] := by
  rw [children_pushChild hp, if_neg (Nat.ne_of_gt hp), children_of_size_le (Nat.le_refl _)]

/-! ## A cut link -/

@[simp] theorem size_unlink : (t.unlink p id).nodes.size = t.nodes.size := by
  simp [unlink]

@[simp] theorem code_unlink (q : Nat) : (t.unlink p id).code q = t.code q := by
  simp only [CodeTree.code, unlink, Array.getElem?_modify]
  split <;> split <;> simp [Function.comp_def]

theorem parent?_unlink (q : Nat) :
    (t.unlink p id).parent? q = if q = id then none else t.parent? q := by
  simp only [parent?, unlink, Array.getElem?_modify]
  by_cases hq : q = id
  · subst hq
    rw [if_pos rfl, if_pos rfl]
    split <;> cases t.nodes[q]? <;> rfl
  · rw [if_neg (Ne.symm hq), if_neg hq]
    split <;> cases t.nodes[q]? <;> rfl

theorem children_unlink (q : Nat) :
    (t.unlink p id).children q =
      if q = p then (t.children p).filter (· != id) else t.children q := by
  simp only [children, unlink, Array.getElem?_modify]
  by_cases hq : q = p
  · subst hq
    split <;> cases t.nodes[q]? <;> simp
  · rw [if_neg (Ne.symm hq), if_neg hq]
    split <;> simp [Function.comp_def]

end Disclosure.CodeTree
