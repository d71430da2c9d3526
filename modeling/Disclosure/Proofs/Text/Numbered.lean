import Disclosure.Proofs.Fault
import Disclosure.Proofs.Text.Line
import Mathlib.Data.List.Forall2

/-!
# Files read line by line

Some files are read one line after the other. Blank lines are skipped, though they count, and the
first line that cannot be read ends it. What comes out is then known from the lines themselves: all
that is read from them in order, or the number of the line that is refused and what it lacks.
-/

namespace Disclosure.Text

variable {δ ε α : Type}

/-- Reads one row after the other, skips blank ones and stops at the first that is refused. -/
def readRows (read : String → Except δ α) (refuse : Nat → String → δ → ε) :
    List (Nat × String) → Except ε (List α)
  | [] => .ok []
  | (number, line) :: rest =>
    if trim line = "" then readRows read refuse rest
    else
      match read line with
      | .error defect => .error (refuse number line defect)
      | .ok x => (readRows read refuse rest).map (x :: ·)

/-- A line that stops no reader: it is blank, or something is read from it. -/
def Passes (read : String → Except δ α) (line : String) : Prop :=
  trim line = "" ∨ ∃ x, read line = .ok x

/-- Among the lines, the first that stops the reader is the one behind `before`. -/
structure FirstRefused (read : String → Except δ α) (ls before : List String) (line : String)
    (defect : δ) : Prop where
  stands : ∃ after, ls = before ++ line :: after
  passes : ∀ l ∈ before, Passes read l
  not_blank : trim line ≠ ""
  refused : read line = .error defect

variable {read : String → Except δ α} {refuse : Nat → String → δ → ε}

/-- All that is read stands in the lines that are not blank, one after the other. -/
theorem readRows_eq_ok_iff {rows : List (Nat × String)} {xs : List α} :
    readRows read refuse rows = .ok xs ↔
      List.Forall₂ (fun line x => read line = .ok x)
        ((rows.map Prod.snd).filter (trim · != "")) xs := by
  induction rows generalizing xs with
  | nil =>
    rw [readRows, Except.ok.injEq, List.map_nil, List.filter_nil, List.forall₂_nil_left_iff]
    exact eq_comm
  | cons row rows ih =>
    obtain ⟨number, line⟩ := row
    rw [readRows]
    by_cases hblank : trim line = ""
    · simp [hblank, ih]
    · rw [if_neg hblank, List.map_cons, List.filter_cons_of_pos (by simpa using hblank),
        List.forall₂_cons_left_iff]
      cases hread : read line with
      | error defect => simp
      | ok x =>
        simp only [Fault.map_eq_ok_iff, ih, Except.ok.injEq]
        constructor
        · rintro ⟨ys, hys, rfl⟩
          exact ⟨x, ys, rfl, hys, rfl⟩
        · rintro ⟨_, ys, rfl, hys, rfl⟩
          exact ⟨ys, hys, rfl⟩

/-- The fault is that of the first row that is neither blank nor readable. -/
def StopsWith (read : String → Except δ α) (refuse : Nat → String → δ → ε)
    (rows : List (Nat × String)) (fault : ε) : Prop :=
  ∃ before row after defect, rows = before ++ row :: after ∧ (∀ r ∈ before, Passes read r.2) ∧
    trim row.2 ≠ "" ∧ read row.2 = .error defect ∧ fault = refuse row.1 row.2 defect

/-- Behind a row that passes, the first one that does not is that of the others. -/
theorem stopsWith_cons_of_passes {row : Nat × String} {rows : List (Nat × String)} {fault : ε}
    (hrow : Passes read row.2) :
    StopsWith read refuse (row :: rows) fault ↔ StopsWith read refuse rows fault := by
  constructor
  · rintro ⟨before, bad, after, defect, hrows, hbefore, hblank, hrefused, hfault⟩
    rcases List.cons_eq_append_iff.mp hrows with ⟨rfl, hhead⟩ | ⟨before, rfl, rfl⟩
    · obtain ⟨rfl, -⟩ := List.cons.inj hhead
      rcases hrow with hline | ⟨x, hread⟩
      · exact absurd hline hblank
      · exact absurd (hread.symm.trans hrefused) (by simp)
    · exact ⟨before, bad, after, defect, rfl, (List.forall_mem_cons.mp hbefore).2, hblank,
        hrefused, hfault⟩
  · rintro ⟨before, bad, after, defect, rfl, hbefore, hbad⟩
    exact ⟨row :: before, bad, after, defect, rfl, List.forall_mem_cons.mpr ⟨hrow, hbefore⟩, hbad⟩

theorem stopsWith_cons_of_refused {row : Nat × String} {rows : List (Nat × String)} {fault : ε}
    {defect : δ} (hblank : trim row.2 ≠ "") (hread : read row.2 = .error defect) :
    StopsWith read refuse (row :: rows) fault ↔ fault = refuse row.1 row.2 defect := by
  constructor
  · rintro ⟨before, bad, after, defect', hrows, hbefore, -, hrefused, rfl⟩
    rcases List.cons_eq_append_iff.mp hrows with ⟨rfl, hhead⟩ | ⟨before, rfl, -⟩
    · obtain ⟨rfl, -⟩ := List.cons.inj hhead
      rw [Except.error.inj (hread.symm.trans hrefused)]
    · rcases (List.forall_mem_cons.mp hbefore).1 with hline | ⟨x, hx⟩
      · exact absurd hline hblank
      · exact absurd (hread.symm.trans hx) (by simp)
  · rintro rfl
    exact ⟨[], row, rows, defect, rfl, by simp, hblank, hread, rfl⟩

theorem readRows_eq_error_iff {rows : List (Nat × String)} {fault : ε} :
    readRows read refuse rows = .error fault ↔ StopsWith read refuse rows fault := by
  induction rows with
  | nil => simp [readRows, StopsWith]
  | cons row rows ih =>
    rw [readRows]
    by_cases hblank : trim row.2 = ""
    · rw [if_pos hblank, ih, stopsWith_cons_of_passes (.inl hblank)]
    · rw [if_neg hblank]
      cases hread : read row.2 with
      | error defect =>
        rw [stopsWith_cons_of_refused hblank hread, Except.error.injEq]
        exact eq_comm
      | ok x =>
        rw [Fault.map_eq_error_iff, ih, stopsWith_cons_of_passes (.inr ⟨x, hread⟩)]

/-! ## Numbers -/

/-- Lines with their numbers, when there were `start` lines before. -/
def numberedFrom (start : Nat) (ls : List α) : List (Nat × α) :=
  (ls.zipIdx start).map fun (line, index) => (index + 1, line)

theorem map_snd_numberedFrom (start : Nat) (ls : List α) :
    (numberedFrom start ls).map Prod.snd = ls := by
  rw [numberedFrom, List.map_map]
  exact List.zipIdx_map_fst start ls

theorem numberedFrom_append_cons (start : Nat) (before : List α) (line : α) (after : List α) :
    ∃ behind, numberedFrom start (before ++ line :: after) =
      numberedFrom start before ++ (start + before.length + 1, line) :: behind := by
  simp [numberedFrom, List.zipIdx_append]

/-- The number of a row is its place. -/
theorem of_numberedFrom_eq {start : Nat} {ls : List α} {before after : List (Nat × α)}
    {row : Nat × α} (h : numberedFrom start ls = before ++ row :: after) :
    ls = before.map Prod.snd ++ row.2 :: after.map Prod.snd ∧
      row.1 = start + before.length + 1 := by
  constructor
  · rw [← map_snd_numberedFrom start ls, h, List.map_append, List.map_cons]
  · have hrow : (numberedFrom start ls)[before.length]? = some row := by simp [h]
    rw [numberedFrom, List.getElem?_map, List.getElem?_zipIdx] at hrow
    obtain ⟨x, hx, rfl⟩ := Option.map_eq_some_iff.mp hrow
    obtain ⟨line, -, rfl⟩ := Option.map_eq_some_iff.mp hx
    rfl

/-- **Lines are refused for the first one that stops the reader, and with its number.** -/
theorem readRows_numberedFrom_eq_error_iff {start : Nat} {ls : List String} {fault : ε} :
    readRows read refuse (numberedFrom start ls) = .error fault ↔ ∃ before line defect,
      FirstRefused read ls before line defect ∧
        fault = refuse (start + before.length + 1) line defect := by
  rw [readRows_eq_error_iff]
  constructor
  · rintro ⟨before, row, after, defect, hrows, hbefore, hblank, hrefused, rfl⟩
    obtain ⟨hls, hnumber⟩ := of_numberedFrom_eq hrows
    refine ⟨before.map Prod.snd, row.2, defect, ⟨⟨_, hls⟩, ?_, hblank, hrefused⟩, ?_⟩
    · intro l hl
      obtain ⟨r, hr, rfl⟩ := List.mem_map.mp hl
      exact hbefore r hr
    · rw [hnumber, List.length_map]
  · rintro ⟨before, line, defect, ⟨⟨after, rfl⟩, hbefore, hblank, hrefused⟩, rfl⟩
    obtain ⟨behind, hrows⟩ := numberedFrom_append_cons start before line after
    refine ⟨_, _, behind, defect, hrows, ?_, hblank, hrefused, rfl⟩
    intro r hr
    refine hbefore _ ?_
    rw [← map_snd_numberedFrom start before]
    exact List.mem_map_of_mem hr

end Disclosure.Text
