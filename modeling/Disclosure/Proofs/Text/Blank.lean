import Disclosure.Text.Blank
import Mathlib.Data.List.DropRight

/-!
# What trimming takes away

Trimming takes blanks from both ends and nothing else. So a trimmed text stays as it is, and a text
that was filled up with blanks comes out as it was before.
-/

namespace Disclosure.Text

theorem trimEnd_isPrefix (cs : List Char) : trimEnd cs <+: cs :=
  List.rdropWhile_prefix isBlank cs

/-- What trimming leaves was there before. -/
theorem of_mem_trimChars {c : Char} {cs : List Char} (h : c ∈ trimChars cs) : c ∈ cs :=
  (List.dropWhile_sublist isBlank).mem ((trimEnd_isPrefix _).mem h)

theorem trimStart_of_isPrefix {cs ds : List Char} (h : ds <+: trimStart cs) :
    trimStart ds = ds := by
  refine List.dropWhile_eq_self_iff.mpr fun hpos => ?_
  -- the first character that is left is no blank, and it is still the first one
  have hself : trimStart (trimStart cs) = trimStart cs := List.dropWhile_idempotent isBlank cs
  rw [h.getElem hpos]
  exact List.dropWhile_eq_self_iff.mp hself _

theorem trimChars_trimChars (cs : List Char) : trimChars (trimChars cs) = trimChars cs := by
  have hstart : trimStart (trimChars cs) = trimChars cs :=
    trimStart_of_isPrefix (trimEnd_isPrefix _)
  rw [trimChars, hstart]
  exact List.rdropWhile_idempotent isBlank _

theorem toList_trim (s : String) : (trim s).toList = trimChars s.toList :=
  String.toList_ofList

/-- A text that was trimmed is trimmed. -/
theorem isTrimmed_trim (s : String) : IsTrimmed (trim s) := by
  rw [IsTrimmed, trim, toList_trim, trimChars_trimChars, trim]

theorem IsTrimmed.trimChars_eq {s : String} (h : IsTrimmed s) : trimChars s.toList = s.toList := by
  rw [← String.toList_ofList (l := trimChars s.toList)]
  exact congrArg String.toList h

/-- A trimmed text does not end in a blank. -/
theorem IsTrimmed.getLast?_isBlank {s : String} (h : IsTrimmed s) {c : Char}
    (hc : s.toList.getLast? = some c) : isBlank c = false := by
  rw [← h.trimChars_eq] at hc
  obtain ⟨hne, rfl⟩ := List.mem_getLast?_eq_getLast hc
  exact Bool.eq_false_iff.mpr (List.rdropWhile_last_not isBlank (trimStart s.toList) hne)

theorem toList_ne_nil {s : String} (h : s ≠ "") : s.toList ≠ [] :=
  fun hnil => h (String.toList_eq_nil_iff.mp hnil)

/-- A text with a trimmed one at its end does not end in a blank either. -/
theorem IsTrimmed.getLast?_append_ne {s : String} (h : IsTrimmed s) (hs : s ≠ "") {c : Char}
    (hc : isBlank c = true) (front : List Char) : (front ++ s.toList).getLast? ≠ some c := by
  intro hlast
  rw [List.getLast?_append_of_ne_nil _ (toList_ne_nil hs)] at hlast
  exact absurd ((h.getLast?_isBlank hlast).symm.trans hc) (by simp)

/-- Blanks in front go, however many there are. -/
theorem trimChars_replicate_append (n : Nat) (cs : List Char) :
    trimChars (List.replicate n ' ' ++ cs) = trimChars cs := by
  have hblank : ∀ c ∈ List.replicate n ' ', isBlank c = true := by
    intro c hc
    rw [List.eq_of_mem_replicate hc]
    decide
  rw [trimChars, trimStart, List.dropWhile_append_of_pos hblank]
  rfl

theorem trimChars_of_not_isBlank {cs : List Char} (h : ∀ c ∈ cs, isBlank c = false) :
    trimChars cs = cs := by
  have hstart : trimStart cs = cs :=
    List.dropWhile_eq_self_iff.mpr fun hpos => by simp [h _ (List.getElem_mem hpos)]
  rw [trimChars, hstart]
  refine List.rdropWhile_eq_self_iff.mpr fun hne => ?_
  simp [h _ (List.getLast_mem hne)]

/-- A text without blanks is trimmed. -/
theorem isTrimmed_of_not_isBlank {s : String} (h : ∀ c ∈ s.toList, isBlank c = false) :
    IsTrimmed s := by
  rw [IsTrimmed, trim, trimChars_of_not_isBlank h, String.ofList_toList]

/-- A text with a character in it that is no blank is not blank. -/
theorem trim_ne_empty {s : String} {c : Char} (hc : c ∈ s.toList) (hblank : isBlank c = false) :
    trim s ≠ "" := by
  intro hempty
  have hnil : trimEnd (trimStart s.toList) = [] := String.ofList_eq_empty_iff.mp hempty
  have hrest : trimStart s.toList = [] := by
    -- what is left at the start begins with a character that is no blank, so it cannot go at the end
    by_contra hne
    have hall := List.rdropWhile_eq_nil_iff.mp hnil _ (List.head_mem hne)
    exact Bool.false_ne_true ((List.head_dropWhile_not isBlank hne).symm.trans hall)
  have hall := List.dropWhile_eq_nil_iff.mp hrest c hc
  rw [hblank] at hall
  exact absurd hall (by decide)

/-! ## Around a character that is no blank -/

section Around

variable {c : Char} {front back : List Char}

theorem trimStart_append_cons (h : isBlank c = false) :
    trimStart (front ++ c :: back) = trimStart front ++ c :: back := by
  have hc : trimStart (c :: back) = c :: back := List.dropWhile_cons_of_neg (by simp [h])
  unfold trimStart at hc ⊢
  rw [List.dropWhile_append]
  split
  · rename_i hempty
    rw [hc, List.isEmpty_iff.mp hempty, List.nil_append]
  · rfl

theorem trimEnd_append_cons (h : isBlank c = false) :
    trimEnd (front ++ c :: back) = front ++ c :: trimEnd back := by
  have hreverse : (front ++ c :: back).reverse = back.reverse ++ c :: front.reverse := by simp
  have hstart : (back.reverse ++ c :: front.reverse).dropWhile isBlank =
      back.reverse.dropWhile isBlank ++ c :: front.reverse := trimStart_append_cons h
  rw [trimEnd, hreverse, hstart]
  simp [trimEnd]

/-- A character inside that is no blank keeps both ends apart. -/
theorem trimChars_append_cons (h : isBlank c = false) :
    trimChars (front ++ c :: back) = trimStart front ++ c :: trimEnd back := by
  rw [trimChars, trimStart_append_cons h, trimEnd_append_cons h]

theorem trimChars_trimStart (cs : List Char) : trimChars (trimStart cs) = trimChars cs := by
  rw [trimChars, trimChars]
  exact congrArg trimEnd (List.dropWhile_idempotent isBlank cs)

/-- Blanks at the end go. -/
theorem trimChars_append_of_isBlank {blanks : List Char} (h : ∀ b ∈ blanks, isBlank b = true)
    (cs : List Char) : trimChars (cs ++ blanks) = trimChars cs := by
  have hend : ∀ front, trimEnd (front ++ blanks) = trimEnd front := by
    intro front
    rw [trimEnd, List.reverse_append, List.dropWhile_append_of_pos (by simpa using h)]
    rfl
  rw [trimChars, trimChars, trimStart, trimStart, List.dropWhile_append]
  split
  · rename_i hempty
    rw [List.dropWhile_eq_nil_iff.mpr h, List.isEmpty_iff.mp hempty]
  · exact hend _

theorem exists_trimEnd_append (cs : List Char) :
    ∃ blanks, (∀ b ∈ blanks, isBlank b = true) ∧ trimEnd cs ++ blanks = cs :=
  ⟨cs.rtakeWhile isBlank, fun _ hb => List.mem_rtakeWhile_imp hb,
    List.rdropWhile_append_rtakeWhile⟩

theorem trimChars_trimEnd (cs : List Char) : trimChars (trimEnd cs) = trimChars cs := by
  obtain ⟨blanks, hblanks, hcs⟩ := exists_trimEnd_append cs
  rw [← trimChars_append_of_isBlank hblanks, hcs]

end Around

/-! ## Words -/

/-- A text without blanks. -/
def IsWord (s : String) : Prop :=
  ∀ c ∈ s.toList, isBlank c = false

instance (s : String) : Decidable (IsWord s) :=
  decidable_of_iff ((s.toList.all fun c => !isBlank c) = true) (by simp [IsWord])

theorem IsWord.not_mem {s : String} (h : IsWord s) {c : Char} (hc : isBlank c = true) :
    c ∉ s.toList :=
  fun hmem => absurd ((h c hmem).symm.trans hc) (by simp)

end Disclosure.Text
