import Disclosure.Proofs.Text.Blank
import Disclosure.Text.Justify
import Disclosure.Text.Line

/-!
# Lines written and read

Lines that are written one below the other are read again as they were, as long as none has a line
feed inside or a carriage return at its end. The second would be taken for a part of the line end.
-/

namespace Disclosure.Text

/-- A character that ends no line is put in front of the line it stands in. -/
theorem linesOf_cons {c : Char} {cs : List Char} (hfeed : c ≠ '\n')
    (hreturn : ∀ rest, c = '\r' → cs ≠ '\n' :: rest) :
    linesOf (c :: cs) = consLine c (linesOf cs) := by
  rw [linesOf]
  · exact hfeed
  · exact hreturn

theorem linesOf_append_feed {line : List Char} (hfeed : '\n' ∉ line)
    (hreturn : line.getLast? ≠ some '\r') (rest : List Char) :
    linesOf (line ++ '\n' :: rest) = line :: linesOf rest := by
  induction line with
  | nil => rfl
  | cons c line ih =>
    rw [List.mem_cons, not_or] at hfeed
    have hinside : ∀ after, c = '\r' → line ++ '\n' :: rest ≠ '\n' :: after := by
      intro after hc heq
      cases line with
      | nil => exact hreturn (congrArg some hc)
      | cons d line =>
        rw [List.cons_append, List.cons.injEq] at heq
        exact hfeed.2 (heq.1 ▸ List.mem_cons_self)
    have hlast : line.getLast? ≠ some '\r' := by
      intro hline
      rw [List.getLast?_cons, hline] at hreturn
      exact hreturn rfl
    rw [List.cons_append, linesOf_cons (Ne.symm hfeed.1) hinside, ih hfeed.2 hlast]
    rfl

theorem linesOf_append_return_feed {line : List Char} (hfeed : '\n' ∉ line) (rest : List Char) :
    linesOf (line ++ '\r' :: '\n' :: rest) = line :: linesOf rest := by
  induction line with
  | nil => rfl
  | cons c line ih =>
    rw [List.mem_cons, not_or] at hfeed
    have hinside : ∀ after, c = '\r' → line ++ '\r' :: '\n' :: rest ≠ '\n' :: after := by
      intro after _ heq
      cases line with
      | nil => exact absurd (List.cons.inj heq).1 (by decide)
      | cons d line => exact hfeed.2 ((List.cons.inj heq).1 ▸ List.mem_cons_self)
    rw [List.cons_append, linesOf_cons (Ne.symm hfeed.1) hinside, ih hfeed.2]
    rfl

/-- A part of a line without a carriage return is still in it when the line has been read. -/
theorem exists_line_of_infix {part line : List Char} (hreturn : '\r' ∉ part) (hne : part ≠ [])
    (hfeed : '\n' ∉ line) (hpart : part <:+: line) (cs rest : List Char) :
    ∃ before last, linesOf (cs ++ (line ++ '\n' :: rest)) = before ++ last :: linesOf rest ∧
      part <:+: last := by
  fun_induction linesOf cs with
  | case1 =>
    by_cases hlast : line.getLast? = some '\r'
    · -- the carriage return goes with the line end, and the part stands before it
      obtain ⟨line, rfl⟩ := List.getLast?_eq_some_iff.mp hlast
      have hkept : '\n' ∉ line := fun hmem => hfeed (List.mem_append_left _ hmem)
      refine ⟨[], line, by simp [linesOf_append_return_feed hkept], ?_⟩
      refine (List.infix_concat_iff.mp hpart).resolve_left fun ⟨front, hfront⟩ => ?_
      have hend : (front ++ part).getLast? = some '\r' := by simp [hfront]
      rw [List.getLast?_append_of_ne_nil _ hne] at hend
      exact hreturn (List.mem_of_getLast? hend)
    · exact ⟨[], line, by simp [linesOf_append_feed hfeed hlast], hpart⟩
  | case2 cs ih =>
    obtain ⟨before, last, hlines, hlast⟩ := ih
    exact ⟨[] :: before, last, by simp [linesOf, hlines], hlast⟩
  | case3 cs ih =>
    obtain ⟨before, last, hlines, hlast⟩ := ih
    exact ⟨[] :: before, last, by simp [linesOf, hlines], hlast⟩
  | case4 c cs hc hcs ih =>
    obtain ⟨before, last, hlines, hlast⟩ := ih
    have hinside : ∀ after, c = '\r' → cs ++ (line ++ '\n' :: rest) ≠ '\n' :: after := by
      intro after hcr heq
      cases cs with
      | nil =>
        cases line with
        | nil => exact hne (List.infix_nil.mp hpart)
        | cons d line => exact hfeed ((List.cons.inj heq).1 ▸ List.mem_cons_self)
      | cons d cs => exact hcs cs hcr ((List.cons.inj heq).1 ▸ rfl)
    rw [List.cons_append, linesOf_cons hc hinside, hlines]
    -- the character goes to the first line, which may be the one with the part in it
    cases before with
    | nil => exact ⟨[], c :: last, rfl, List.infix_cons hlast⟩
    | cons first before => exact ⟨(c :: first) :: before, last, rfl, hlast⟩

/-- Lines come back as they were written. -/
theorem lines_unlines {ls : List String}
    (h : ∀ l ∈ ls, '\n' ∉ l.toList ∧ l.toList.getLast? ≠ some '\r') : lines (unlines ls) = ls := by
  rw [lines, unlines, String.toList_join]
  induction ls with
  | nil => rfl
  | cons l ls ih =>
    rw [List.forall_mem_cons] at h
    have hline : (l ++ "\n").toList = l.toList ++ ['\n'] := String.toList_append
    rw [List.map_cons, List.flatMap_cons, hline, List.append_assoc, List.singleton_append,
      linesOf_append_feed h.1.1 h.1.2, List.map_cons, ih h.2, String.ofList_toList]

theorem feed_not_mem_of_mem_consLine {c : Char} (hc : c ≠ '\n') {ls : List (List Char)}
    (h : ∀ line ∈ ls, '\n' ∉ line) : ∀ line ∈ consLine c ls, '\n' ∉ line := by
  cases ls with
  | nil => simpa [consLine] using Ne.symm hc
  | cons first rest =>
    rw [List.forall_mem_cons] at h
    simpa [consLine, h.1, Ne.symm hc] using h.2

theorem feed_not_mem_linesOf (cs : List Char) : ∀ line ∈ linesOf cs, '\n' ∉ line := by
  fun_induction linesOf cs with
  | case1 => simp
  | case2 rest ih => simpa using ih
  | case3 rest ih => simpa using ih
  | case4 c rest hfeed _ ih => exact feed_not_mem_of_mem_consLine hfeed ih

/-- No line has a line feed in it. -/
theorem feed_not_mem_of_mem_lines {s line : String} (h : line ∈ lines s) : '\n' ∉ line.toList := by
  obtain ⟨cs, hcs, rfl⟩ := List.mem_map.mp h
  rw [String.toList_ofList]
  exact feed_not_mem_linesOf _ cs hcs

theorem map_snd_numbered {α : Type} (ls : List α) : (numbered ls).map Prod.snd = ls := by
  rw [numbered, List.map_map]
  exact List.zipIdx_map_fst 0 ls

/-! ## Texts lined up -/

@[simp] theorem toList_justifyRight (width : Nat) (s : String) :
    (justifyRight width s).toList = List.replicate (width - s.length) ' ' ++ s.toList := by
  rw [justifyRight, String.toList_ofList, String.length_toList]

theorem length_justifyRight {width : Nat} {s : String} (h : s.length ≤ width) :
    (justifyRight width s).length = width := by
  rw [← String.length_toList, toList_justifyRight, List.length_append, List.length_replicate,
    String.length_toList]
  omega

/-- Trimming undoes lining up. -/
theorem trim_justifyRight (width : Nat) {s : String} (h : IsTrimmed s) :
    trim (justifyRight width s) = s := by
  rw [trim, toList_justifyRight, trimChars_replicate_append, h.trimChars_eq, String.ofList_toList]

/-- A trimmed text that is lined up is a line that comes back. -/
theorem justifyRight_isLine {s : String} (hs : s ≠ "") (h : IsTrimmed s) (hfeed : '\n' ∉ s.toList)
    (width : Nat) : '\n' ∉ (justifyRight width s).toList ∧
      (justifyRight width s).toList.getLast? ≠ some '\r' := by
  rw [toList_justifyRight]
  constructor
  · rw [List.mem_append, not_or]
    exact ⟨fun hmem => absurd (List.eq_of_mem_replicate hmem) (by decide), hfeed⟩
  · exact h.getLast?_append_ne hs (by decide) _

@[simp] theorem toList_repeatText (count : Nat) (s : String) :
    (repeatText count s).toList = (List.replicate count s.toList).flatten := by
  rw [repeatText, String.toList_join, List.flatMap, List.map_replicate]

end Disclosure.Text
