import Disclosure.Step
import Mathlib.Data.List.Forall2

/-!
# Reading a long piece of work off its parts

A long piece of work is put together from short ones, in a row or over a list. What it does is
decided by what they do, and this file says how: once for work that comes to its end, and once for
work that may stop at a fault.

`Done` is the first view. It names the value and the files that a step ends with, so that a row of
steps reads as a chain of states. The second view asks only that something holds wherever the work
stops: each part may be the last one.
-/

namespace Disclosure.Step

variable {α β : Type}

/-- The step came to its end, with this value and these files. -/
structure Done (s : Step α) (value : α) (files : FileSystem) : Prop where
  /-- What was worked on, as it is now. -/
  value : s.value = value
  /-- The files as they are now. -/
  files : s.files = files
  /-- Nothing went wrong. -/
  fault : s.fault = none

theorem done_of_fault_none {s : Step α} (h : s.fault = none) : s.Done s.value s.files :=
  ⟨rfl, rfl, h⟩

theorem done_done (value : α) (files : FileSystem) (events : List Event) :
    (done value files events).Done value files :=
  ⟨rfl, rfl, rfl⟩

theorem map_done {f : α → β} {s : Step α} {a : α} {fs : FileSystem} (h : s.Done a fs) :
    (s.map f).Done (f a) fs :=
  ⟨congrArg f h.value, h.files, h.fault⟩

theorem of_map_done {f : α → β} {s : Step α} {b : β} {fs : FileSystem} (h : (s.map f).Done b fs) :
    ∃ a, s.Done a fs ∧ f a = b :=
  ⟨s.value, ⟨rfl, h.files, h.fault⟩, h.value⟩

/-- The step of a file that was written. -/
theorem of_ofSaving_done {before : α} {fs : FileSystem} {event : α → Event}
    {saved : Except Fault (α × FileSystem)} {a : α} {fs' : FileSystem}
    (h : (ofSaving before fs event saved).Done a fs') : saved = .ok (a, fs') := by
  cases saved with
  | error fault => exact absurd h.fault (by simp [ofSaving, failed])
  | ok pair =>
    obtain ⟨after, written⟩ := pair
    have hv : after = a := h.value
    have hf : written = fs' := h.files
    rw [hv, hf]

/-- Where a file could not be written, nothing is noted. -/
theorem map_ofSaving_of_fault {before : α} {fs : FileSystem} {event : α → Event}
    {saved : Except Fault (α × FileSystem)} {fault : Fault} {f : α → β}
    (h : ((ofSaving before fs event saved).map f).fault = some fault) :
    ((ofSaving before fs event saved).map f).value = f before := by
  cases saved with
  | error fault => rfl
  | ok pair => exact absurd h (by simp [ofSaving, map, done])

/-! ## Work in a row -/

theorem andThen_of_done (next : Work α) {s : Step α} {a : α} {fs : FileSystem} (h : s.Done a fs) :
    (s.andThen next).value = (next a fs).value ∧ (s.andThen next).files = (next a fs).files ∧
      (s.andThen next).fault = (next a fs).fault := by
  obtain ⟨hv, hf, hn⟩ := h
  subst hv; subst hf
  unfold andThen
  rw [hn]
  exact ⟨rfl, rfl, rfl⟩

theorem andThen_of_fault {s : Step α} {next : Work α} {fault : Fault} (h : s.fault = some fault) :
    s.andThen next = s := by
  unfold andThen
  rw [h]

theorem andThen_done {s : Step α} {next : Work α} {a b : α} {fs fs' : FileSystem}
    (h : s.Done a fs) (hn : (next a fs).Done b fs') : (s.andThen next).Done b fs' := by
  obtain ⟨hv, hf, hfault⟩ := andThen_of_done next h
  exact ⟨hv.trans hn.value, hf.trans hn.files, hfault.trans hn.fault⟩

/-- Work in a row comes to its end through a state in between. -/
theorem of_andThen_done {s : Step α} {next : Work α} {b : α} {fs' : FileSystem}
    (h : (s.andThen next).Done b fs') : ∃ a fs, s.Done a fs ∧ (next a fs).Done b fs' := by
  cases hs : s.fault with
  | some fault =>
    -- the row would have stopped here
    have hfault := h.fault
    rw [andThen_of_fault hs, hs] at hfault
    exact absurd hfault (by simp)
  | none =>
    have hd := done_of_fault_none hs
    obtain ⟨hv, hf, hfault⟩ := andThen_of_done next hd
    exact ⟨s.value, s.files, hd, hv.symm.trans h.value, hf.symm.trans h.files,
      hfault.symm.trans h.fault⟩

/-- It does not matter where a row is taken apart. -/
theorem andThen_assoc (s : Step α) (next last : Work α) :
    (s.andThen next).andThen last = s.andThen fun a fs => (next a fs).andThen last := by
  cases hs : s.fault with
  | some fault => rw [andThen_of_fault hs, andThen_of_fault hs, andThen_of_fault hs]
  | none =>
    cases hn : (next s.value s.files).fault with
    | some fault => simp only [andThen, hs, hn]
    | none => simp only [andThen, hs, hn, List.append_assoc]

theorem inOrder_append (works more : List (Work α)) (a : α) (fs : FileSystem) :
    inOrder (works ++ more) a fs = (inOrder works a fs).andThen (inOrder more) := by
  induction works generalizing a fs with
  | nil => rfl
  | cons work rest ih =>
    show (work a fs).andThen (inOrder (rest ++ more)) =
      ((work a fs).andThen (inOrder rest)).andThen (inOrder more)
    rw [andThen_assoc, funext fun b => funext fun fs => ih b fs]

theorem of_inOrder_cons_done {work : Work α} {rest : List (Work α)} {a b : α}
    {fs fs' : FileSystem} (h : (inOrder (work :: rest) a fs).Done b fs') :
    ∃ a' fs₁, (work a fs).Done a' fs₁ ∧ (inOrder rest a' fs₁).Done b fs' :=
  of_andThen_done h

theorem of_inOrder_nil_done {a b : α} {fs fs' : FileSystem}
    (h : (inOrder [] a fs).Done b fs') : b = a ∧ fs' = fs :=
  ⟨h.value.symm, h.files.symm⟩

/-- A fault comes from a piece of work that was reached. -/
theorem of_andThen_fault {s : Step α} {next : Work α} {fault : Fault}
    (h : (s.andThen next).fault = some fault) :
    s.fault = some fault ∨ ∃ a fs, s.Done a fs ∧ (next a fs).fault = some fault := by
  cases hs : s.fault with
  | some other =>
    rw [andThen_of_fault hs, hs] at h
    exact Or.inl h
  | none =>
    have hd := done_of_fault_none hs
    rw [(andThen_of_done next hd).2.2] at h
    exact Or.inr ⟨s.value, s.files, hd, h⟩

/-- What holds after every piece of work, and is handed on from one to the next, holds wherever a
row of them stops. -/
theorem inOrder_preserves {P : α → FileSystem → Prop} {works : List (Work α)}
    (hw : ∀ work ∈ works, ∀ a fs, P a fs → P (work a fs).value (work a fs).files) :
    ∀ (a : α) (fs : FileSystem), P a fs → P (inOrder works a fs).value (inOrder works a fs).files := by
  induction works with
  | nil => exact fun a fs h => h
  | cons work rest ih =>
    intro a fs h
    have hfirst := hw work List.mem_cons_self a fs h
    have hrest := ih (fun w hm => hw w (List.mem_cons_of_mem _ hm))
    show P ((work a fs).andThen (inOrder rest)).value ((work a fs).andThen (inOrder rest)).files
    -- a fault ends the row after this piece, and this piece has handed the property on
    cases hs : (work a fs).fault with
    | some fault => rw [andThen_of_fault hs]; exact hfirst
    | none =>
      obtain ⟨hv, hf, _⟩ := andThen_of_done (inOrder rest) (done_of_fault_none hs)
      rw [hv, hf]
      exact hrest _ _ hfirst

/-! ## Work over a list -/

theorem each_cons_of_fault {work : Work α} {x : α} {rest : List α} {fs : FileSystem} {fault : Fault}
    (h : (work x fs).fault = some fault) :
    each work (x :: rest) fs = (work x fs).map (· :: rest) := by
  simp only [each, h]

theorem each_cons_of_done (rest : List α) {work : Work α} {x y : α} {fs fs₁ : FileSystem}
    (h : (work x fs).Done y fs₁) :
    (each work (x :: rest) fs).value = y :: (each work rest fs₁).value ∧
      (each work (x :: rest) fs).files = (each work rest fs₁).files ∧
      (each work (x :: rest) fs).fault = (each work rest fs₁).fault := by
  obtain ⟨hv, hf, hn⟩ := h
  subst hv; subst hf
  simp only [each, hn]
  exact ⟨trivial, trivial, trivial⟩

theorem of_each_cons_done {work : Work α} {x : α} {rest ys : List α} {fs fs' : FileSystem}
    (h : (each work (x :: rest) fs).Done ys fs') :
    ∃ y fs₁ ys', (work x fs).Done y fs₁ ∧ (each work rest fs₁).Done ys' fs' ∧ ys = y :: ys' := by
  cases hs : (work x fs).fault with
  | some fault =>
    have hfault := h.fault
    rw [each_cons_of_fault hs] at hfault
    exact absurd (hs.symm.trans hfault) (by simp)
  | none =>
    have hd := done_of_fault_none hs
    obtain ⟨hv, hf, hfault⟩ := each_cons_of_done rest hd
    exact ⟨_, _, _, hd, ⟨rfl, hf.symm.trans h.files, hfault.symm.trans h.fault⟩,
      (hv.symm.trans h.value).symm⟩

/-- Work that leaves every value of a list and the files alone leaves the list alone. -/
theorem each_idle {work : Work α} {fs : FileSystem} :
    ∀ {xs : List α}, (∀ x ∈ xs, (work x fs).Done x fs) → (each work xs fs).Done xs fs
  | [], _ => ⟨rfl, rfl, rfl⟩
  | x :: rest, h => by
    have hrest : (each work rest fs).Done rest fs :=
      each_idle fun y hy => h y (List.mem_cons_of_mem _ hy)
    obtain ⟨hv, hf, hfault⟩ := each_cons_of_done rest (h x List.mem_cons_self)
    exact ⟨by rw [hv, hrest.value], hf.trans hrest.files, hfault.trans hrest.fault⟩

/-- What holds of every value, and is kept by the work on it, holds wherever work over a list
stops. -/
theorem each_forall₂ {work : Work α} {R : β → α → Prop}
    (hw : ∀ x a fs, R x a → R x (work a fs).value) :
    ∀ {xs : List β} {as : List α} (fs : FileSystem), List.Forall₂ R xs as →
      List.Forall₂ R xs (each work as fs).value
  | [], [], _, _ => .nil
  | x :: xs, a :: as, fs, .cons h hrest => by
    cases hs : (work a fs).fault with
    | some fault =>
      -- what comes after the fault is as it was
      rw [each_cons_of_fault hs]
      exact .cons (hw x a fs h) hrest
    | none =>
      rw [(each_cons_of_done as (done_of_fault_none hs)).1]
      exact .cons (hw x a fs h) (each_forall₂ hw _ hrest)

/-- What the work keeps of a value holds of every value of a list, wherever work over it stops. -/
theorem each_all {work : Work α} {P : α → Prop} (hw : ∀ x fs, P x → P (work x fs).value) :
    ∀ {xs : List α} (fs : FileSystem), (∀ x ∈ xs, P x) → ∀ y ∈ (each work xs fs).value, P y
  | [], _, h => h
  | x :: rest, fs, h => by
    obtain ⟨hx, hrest⟩ := List.forall_mem_cons.mp h
    cases hs : (work x fs).fault with
    | some fault =>
      rw [each_cons_of_fault hs]
      exact List.forall_mem_cons.mpr ⟨hw x fs hx, hrest⟩
    | none =>
      rw [(each_cons_of_done rest (done_of_fault_none hs)).1]
      exact List.forall_mem_cons.mpr ⟨hw x fs hx, each_all hw _ hrest⟩

/-- What every piece of work keeps of the files is kept wherever work over a list stops. -/
theorem each_files {work : Work α} {P : FileSystem → Prop} :
    ∀ {xs : List α} {fs : FileSystem}, (∀ x ∈ xs, ∀ fs, P fs → P (work x fs).files) → P fs →
      P (each work xs fs).files
  | [], _, _, h => h
  | x :: rest, fs, hw, h => by
    have hx := hw x List.mem_cons_self fs h
    cases hs : (work x fs).fault with
    | some fault => rw [each_cons_of_fault hs]; exact hx
    | none =>
      rw [(each_cons_of_done rest (done_of_fault_none hs)).2.1]
      exact each_files (fun y hy => hw y (List.mem_cons_of_mem _ hy)) hx

/-- A fault of work over a list is a fault of the work on one of its values. -/
theorem of_each_fault {work : Work α} {fault : Fault} :
    ∀ {xs : List α} {fs : FileSystem}, (each work xs fs).fault = some fault →
      ∃ x ∈ xs, ∃ fs, (work x fs).fault = some fault
  | [], _, h => absurd h (by simp [each, done])
  | x :: rest, fs, h => by
    cases hs : (work x fs).fault with
    | some other =>
      rw [each_cons_of_fault hs] at h
      exact ⟨x, List.mem_cons_self, fs, h⟩
    | none =>
      rw [(each_cons_of_done rest (done_of_fault_none hs)).2.2] at h
      obtain ⟨y, hy, found⟩ := of_each_fault h
      exact ⟨y, List.mem_cons_of_mem _ hy, found⟩

end Disclosure.Step
