import Disclosure.Proofs.Text.Blank
import Disclosure.Text.Split
import Mathlib.Data.List.TakeDrop

/-!
# Cutting a text that was put together

What is cut at a character was often written one part behind the other before. `piecesAt_append`
says what becomes of the parts: the last piece of the first part and the first piece of the second
grow into one, and all others stay as they are.
-/

namespace Disclosure.Text

theorem piecesAt_ne_nil (sep : Char) (cs : List Char) : piecesAt sep cs ≠ [] := by
  cases cs with
  | nil => simp [piecesAt]
  | cons c rest =>
    rw [piecesAt]
    split
    · simp
    · split <;> simp

theorem piecesAt_cons_self (sep : Char) (cs : List Char) :
    piecesAt sep (sep :: cs) = [] :: piecesAt sep cs := by
  rw [piecesAt, if_pos rfl]

theorem piecesAt_cons_of_ne {sep c : Char} (h : c ≠ sep) {cs piece : List Char}
    {more : List (List Char)} (hp : piecesAt sep cs = piece :: more) :
    piecesAt sep (c :: cs) = (c :: piece) :: more := by
  rw [piecesAt, if_neg h, hp]

/-- What is in a piece was in the text. -/
theorem of_mem_piecesAt {sep c : Char} : ∀ {cs piece : List Char},
    piece ∈ piecesAt sep cs → c ∈ piece → c ∈ cs
  | [], piece, hp, hc => by
    rw [piecesAt, List.mem_singleton] at hp
    exact hp ▸ hc
  | d :: rest, piece, hp, hc => by
    by_cases hd : d = sep
    · subst hd
      rw [piecesAt_cons_self, List.mem_cons] at hp
      rcases hp with rfl | hp
      · exact absurd hc (by simp)
      · exact List.mem_cons_of_mem _ (of_mem_piecesAt hp hc)
    · obtain ⟨head, tail, hrest⟩ := List.exists_cons_of_ne_nil (piecesAt_ne_nil sep rest)
      rw [piecesAt_cons_of_ne hd hrest, List.mem_cons] at hp
      rcases hp with rfl | hp
      · rcases List.mem_cons.mp hc with rfl | hc
        · exact List.mem_cons_self
        · exact List.mem_cons_of_mem _ (of_mem_piecesAt (hrest ▸ List.mem_cons_self) hc)
      · exact List.mem_cons_of_mem _
          (of_mem_piecesAt (hrest ▸ List.mem_cons_of_mem _ hp) hc)

theorem piecesAt_of_not_mem {sep : Char} : ∀ {cs : List Char}, sep ∉ cs → piecesAt sep cs = [cs]
  | [], _ => rfl
  | c :: cs, h => by
    rw [List.mem_cons, not_or] at h
    exact piecesAt_cons_of_ne (Ne.symm h.1) (piecesAt_of_not_mem h.2)

theorem piecesAt_append_sep {sep : Char} {cs : List Char} (rest : List Char) (h : sep ∉ cs) :
    piecesAt sep (cs ++ sep :: rest) = cs :: piecesAt sep rest := by
  induction cs with
  | nil => exact piecesAt_cons_self sep rest
  | cons c cs ih =>
    rw [List.mem_cons, not_or] at h
    exact piecesAt_cons_of_ne (Ne.symm h.1) (ih h.2)

/-- What is left of a text that is cut is all but the separators. -/
theorem flatten_piecesAt (sep : Char) (cs : List Char) :
    (piecesAt sep cs).flatten = cs.filter (· != sep) := by
  induction cs with
  | nil => rfl
  | cons c cs ih =>
    by_cases hc : c = sep
    · subst hc
      rw [piecesAt_cons_self, List.flatten_cons, List.nil_append, ih]
      simp
    · obtain ⟨piece, more, hp⟩ := List.exists_cons_of_ne_nil (piecesAt_ne_nil sep cs)
      rw [piecesAt_cons_of_ne hc hp, List.flatten_cons, List.cons_append, ← List.flatten_cons,
        ← hp, ih]
      simp [hc]

/-- No piece has the character in it that the text is cut at. -/
theorem not_mem_of_mem_piecesAt {sep : Char} : ∀ {cs piece : List Char},
    piece ∈ piecesAt sep cs → sep ∉ piece
  | [], piece, hp => by
    rw [piecesAt, List.mem_singleton] at hp
    simp [hp]
  | d :: rest, piece, hp => by
    by_cases hd : d = sep
    · subst hd
      rw [piecesAt_cons_self, List.mem_cons] at hp
      rcases hp with rfl | hp
      · simp
      · exact not_mem_of_mem_piecesAt hp
    · obtain ⟨head, tail, hrest⟩ := List.exists_cons_of_ne_nil (piecesAt_ne_nil sep rest)
      rw [piecesAt_cons_of_ne hd hrest, List.mem_cons] at hp
      rcases hp with rfl | hp
      · have hhead : sep ∉ head := not_mem_of_mem_piecesAt (hrest ▸ List.mem_cons_self)
        simp [hhead, Ne.symm hd]
      · exact not_mem_of_mem_piecesAt (hrest ▸ List.mem_cons_of_mem _ hp)

/-- Pieces that were put together with a character between them come apart again. -/
theorem piecesAt_intercalate {sep : Char} : ∀ {pieces : List (List Char)},
    (∀ piece ∈ pieces, sep ∉ piece) → pieces ≠ [] → piecesAt sep ([sep].intercalate pieces) = pieces
  | [], _, hne => absurd rfl hne
  | [piece], h, _ => by
    rw [List.intercalate_singleton, piecesAt_of_not_mem (h piece List.mem_cons_self)]
  | piece :: next :: rest, h, _ => by
    rw [List.intercalate_cons_cons, List.append_assoc, List.singleton_append,
      piecesAt_append_sep _ (h piece List.mem_cons_self),
      piecesAt_intercalate (fun p hp => h p (List.mem_cons_of_mem _ hp)) (by simp)]

theorem piecesAt_append_of_not_mem {sep : Char} {cs ys head : List Char} {tail : List (List Char)}
    (h : sep ∉ cs) (hy : piecesAt sep ys = head :: tail) :
    piecesAt sep (cs ++ ys) = (cs ++ head) :: tail := by
  induction cs with
  | nil => exact hy
  | cons c cs ih =>
    rw [List.mem_cons, not_or] at h
    exact piecesAt_cons_of_ne (Ne.symm h.1) (ih h.2)

/-- Two texts in a row are cut like the first one, but that its last piece goes on. -/
theorem exists_pieces_append {sep : Char} {ys head : List Char} {tail : List (List Char)}
    (hy : piecesAt sep ys = head :: tail) : ∀ xs : List Char,
    ∃ init last, piecesAt sep xs = init ++ [last] ∧
      piecesAt sep (xs ++ ys) = init ++ (last ++ head) :: tail
  | [] => ⟨[], [], rfl, hy⟩
  | c :: xs => by
    obtain ⟨init, last, hx, hxy⟩ := exists_pieces_append hy xs
    by_cases hc : c = sep
    · subst hc
      refine ⟨[] :: init, last, ?_, ?_⟩
      · rw [piecesAt_cons_self, hx]; rfl
      · rw [List.cons_append, piecesAt_cons_self, hxy]; rfl
    · -- the character goes to the first piece, which is also the last one if there are no others
      cases init with
      | nil => exact ⟨[], c :: last, piecesAt_cons_of_ne hc hx, piecesAt_cons_of_ne hc hxy⟩
      | cons piece more =>
        exact ⟨(c :: piece) :: more, last, piecesAt_cons_of_ne hc hx, piecesAt_cons_of_ne hc hxy⟩

/-- The piece that a text breaks off with. -/
def lastPiece (sep : Char) (cs : List Char) : List Char :=
  (piecesAt sep cs).getLast (piecesAt_ne_nil sep cs)

theorem lastPiece_of_pieces {sep : Char} {cs last : List Char} {init : List (List Char)}
    (h : piecesAt sep cs = init ++ [last]) : lastPiece sep cs = last := by
  simp [lastPiece, h]

/-- What follows a text goes on with its last piece. -/
theorem piecesAt_append (sep : Char) (ys : List Char) {head : List Char} {tail : List (List Char)}
    (hy : piecesAt sep ys = head :: tail) (xs : List Char) :
    ∃ init, piecesAt sep xs = init ++ [lastPiece sep xs] ∧
      piecesAt sep (xs ++ ys) = init ++ (lastPiece sep xs ++ head) :: tail := by
  obtain ⟨init, last, hx, hxy⟩ := exists_pieces_append hy xs
  rw [lastPiece_of_pieces hx]
  exact ⟨init, hx, hxy⟩

theorem lastPiece_append_sep {sep : Char} (xs : List Char) : lastPiece sep (xs ++ [sep]) = [] := by
  have hy : piecesAt sep [sep] = [] :: [[]] := piecesAt_cons_self sep []
  obtain ⟨init, _, hxy⟩ := piecesAt_append sep [sep] hy xs
  have hsplit : piecesAt sep (xs ++ [sep]) = (init ++ [lastPiece sep xs ++ []]) ++ [[]] := by
    rw [hxy, List.append_assoc]; rfl
  exact lastPiece_of_pieces hsplit

/-- Blanks at the end of a text are blanks at the end of its last piece. -/
theorem map_trimChars_piecesAt_trimEnd {sep : Char} (hsep : isBlank sep = false) (cs : List Char) :
    (piecesAt sep (trimEnd cs)).map trimChars = (piecesAt sep cs).map trimChars := by
  obtain ⟨blanks, hblanks, hcs⟩ := exists_trimEnd_append cs
  have hnone : sep ∉ blanks := by
    intro hmem
    exact absurd (hblanks sep hmem) (by simp [hsep])
  obtain ⟨init, hpieces, hall⟩ :=
    piecesAt_append sep blanks (piecesAt_of_not_mem hnone) (trimEnd cs)
  rw [hcs] at hall
  rw [hpieces, hall, List.map_append, List.map_append, List.map_singleton, List.map_singleton,
    trimChars_append_of_isBlank hblanks]

/-! ## The first separator -/

theorem cutAt?_append {sep : Char} {before : List Char} (after : List Char) (h : sep ∉ before) :
    cutAt? sep (before ++ sep :: after) = some (before, after) := by
  have hbefore : ∀ c ∈ before, (c != sep) = true := by
    intro c hc
    exact bne_iff_ne.mpr (ne_of_mem_of_not_mem hc h)
  rw [cutAt?, List.span_eq_takeWhile_dropWhile, List.takeWhile_append_of_pos hbefore,
    List.dropWhile_append_of_pos hbefore]
  simp

theorem cutAt?_eq_none_iff {sep : Char} {cs : List Char} : cutAt? sep cs = none ↔ sep ∉ cs := by
  constructor
  · intro hnone hmem
    obtain ⟨before, after, rfl, hbefore⟩ := List.eq_append_cons_of_mem hmem
    exact absurd (hnone.symm.trans (cutAt?_append after hbefore)) (by simp)
  · intro hmem
    have hdrop : cs.dropWhile (· != sep) = [] := by
      refine List.dropWhile_eq_nil_iff.mpr fun c hc => ?_
      exact bne_iff_ne.mpr (ne_of_mem_of_not_mem hc hmem)
    rw [cutAt?, List.span_eq_takeWhile_dropWhile, hdrop]

/-! ## What is in front -/

theorem dropLead?_eq_some_iff {lead cs rest : List Char} :
    dropLead? lead cs = some rest ↔ cs = lead ++ rest := by
  induction lead generalizing cs with
  | nil => simp [dropLead?]
  | cons l lead ih =>
    cases cs with
    | nil => simp [dropLead?]
    | cons c cs =>
      rw [dropLead?, List.cons_append, List.cons.injEq]
      split
      · rename_i hl
        simp [ih, hl]
      · rename_i hl
        simp [Ne.symm hl]

theorem dropLead?_eq_none_iff {lead cs : List Char} :
    dropLead? lead cs = none ↔ ¬ lead <+: cs := by
  constructor
  · rintro hnone ⟨rest, rfl⟩
    have hsome : dropLead? lead (lead ++ rest) = some rest := dropLead?_eq_some_iff.mpr rfl
    exact absurd (hnone.symm.trans hsome) (by simp)
  · intro hlead
    refine Option.eq_none_iff_forall_ne_some.mpr fun rest hrest => hlead ⟨rest, ?_⟩
    exact (dropLead?_eq_some_iff.mp hrest).symm

/-- A part occurs where it stands behind something and in front of something. -/
theorem occursIn_iff {part cs : List Char} : occursIn part cs = true ↔ part <:+: cs := by
  rw [occursIn]
  induction cs with
  | nil =>
    rw [cutOnText?, Option.isSome_map, List.infix_nil, ← List.prefix_nil]
    exact Option.isSome_iff_ne_none.trans (not_iff_comm.mp dropLead?_eq_none_iff.symm)
  | cons c cs ih =>
    rw [cutOnText?, List.infix_cons_iff, ← ih]
    cases hlead : dropLead? part (c :: cs) with
    | none => simp [dropLead?_eq_none_iff.mp hlead]
    | some rest => simp [dropLead?_eq_some_iff.mp hlead]

theorem hasPart_iff {s part : String} : hasPart s part = true ↔ part.toList <:+: s.toList :=
  occursIn_iff

/-! ## Separators of one character -/

theorem cutOnText?_of_not_mem {sep : Char} : ∀ {cs : List Char}, sep ∉ cs →
    cutOnText? [sep] cs = none
  | [], _ => rfl
  | c :: cs, h => by
    rw [List.mem_cons, not_or] at h
    rw [cutOnText?, dropLead?, if_neg h.1, cutOnText?_of_not_mem h.2]
    rfl

theorem cutOnText?_append {sep : Char} {before : List Char} (after : List Char)
    (h : sep ∉ before) : cutOnText? [sep] (before ++ sep :: after) = some (before, after) := by
  induction before with
  | nil => simp [cutOnText?, dropLead?]
  | cons c before ih =>
    rw [List.mem_cons, not_or] at h
    rw [List.cons_append, cutOnText?, dropLead?, if_neg h.1, ih h.2]
    rfl

/-- A text is parted in one way at the first separator in it. -/
theorem append_sep_inj {sep : Char} {before other after rest : List Char} (hbefore : sep ∉ before)
    (hother : sep ∉ other) (h : before ++ sep :: after = other ++ sep :: rest) :
    before = other ∧ after = rest := by
  have hcut : some (before, after) = some (other, rest) := by
    rw [← cutOnText?_append after hbefore, ← cutOnText?_append rest hother, h]
  exact Prod.mk.inj (Option.some.inj hcut)

/-- A text is parted in one way at the last separator in it. -/
theorem append_last_sep_inj {sep : Char} {before other after rest : List Char}
    (hafter : sep ∉ after) (hrest : sep ∉ rest) (h : before ++ sep :: after = other ++ sep :: rest) :
    before = other ∧ after = rest := by
  have hreverse :
      after.reverse ++ sep :: before.reverse = rest.reverse ++ sep :: other.reverse := by
    simpa using congrArg List.reverse h
  obtain ⟨hlast, hfirst⟩ := append_sep_inj (by simpa using hafter) (by simpa using hrest) hreverse
  exact ⟨List.reverse_inj.mp hfirst, List.reverse_inj.mp hlast⟩

theorem piecesOnFrom_singleton {sep : Char} : ∀ {fuel : Nat} {cs : List Char},
    cs.length ≤ fuel → piecesOnFrom [sep] fuel cs = piecesAt sep cs
  | 0, cs, h => by
    rw [List.eq_nil_of_length_eq_zero (Nat.le_zero.mp h)]
    rfl
  | fuel + 1, cs, h => by
    rw [piecesOnFrom]
    by_cases hsep : sep ∈ cs
    · obtain ⟨before, after, rfl, hbefore⟩ := List.eq_append_cons_of_mem hsep
      rw [List.length_append, List.length_cons] at h
      rw [cutOnText?_append after hbefore, piecesAt_append_sep after hbefore]
      simp only [piecesOnFrom_singleton (show after.length ≤ fuel by omega)]
    · rw [cutOnText?_of_not_mem hsep, piecesAt_of_not_mem hsep]

/-- A separator of one character cuts like the character. -/
theorem splitOnText_singleton (sep : Char) (s : String) :
    splitOnText (String.singleton sep) s = splitAt sep s := by
  have hpieces : piecesOn [sep] s.toList = piecesAt sep s.toList :=
    piecesOnFrom_singleton (Nat.le_refl _)
  rw [splitOnText, splitAt, String.toList_singleton, hpieces]

theorem toList_intercalate_singleton (sep : Char) (fields : List String) :
    ((String.singleton sep).intercalate fields).toList =
      [sep].intercalate (fields.map String.toList) := by
  rw [String.toList_intercalate, String.toList_singleton]

/-- Fields that were put together with a separator between them come apart again. -/
theorem splitOnText_intercalate {sep : Char} {fields : List String}
    (hsep : ∀ field ∈ fields, sep ∉ field.toList) (hne : fields ≠ []) :
    splitOnText (String.singleton sep) ((String.singleton sep).intercalate fields) = fields := by
  have hpieces : ∀ piece ∈ fields.map String.toList, sep ∉ piece := by
    simpa [List.forall_mem_map] using hsep
  rw [splitOnText_singleton, splitAt, toList_intercalate_singleton,
    piecesAt_intercalate hpieces (by simpa using hne), List.map_map]
  simp

/-- No field has the separator in it. -/
theorem not_mem_of_mem_splitOnText {sep : Char} {s field : String}
    (h : field ∈ splitOnText (String.singleton sep) s) : sep ∉ field.toList := by
  rw [splitOnText_singleton, splitAt] at h
  obtain ⟨piece, hpiece, rfl⟩ := List.mem_map.mp h
  rw [String.toList_ofList]
  exact not_mem_of_mem_piecesAt hpiece

/-- What is in a field was in the text. -/
theorem of_mem_splitOnText {sep c : Char} {s field : String}
    (h : field ∈ splitOnText (String.singleton sep) s) (hc : c ∈ field.toList) : c ∈ s.toList := by
  rw [splitOnText_singleton, splitAt] at h
  obtain ⟨piece, hpiece, rfl⟩ := List.mem_map.mp h
  rw [String.toList_ofList] at hc
  exact of_mem_piecesAt hpiece hc

/-- The last part comes last. -/
theorem suffix_intercalate (sep last : List Char) (init : List (List Char)) :
    last <:+ sep.intercalate (init ++ [last]) := by
  induction init with
  | nil => exact ⟨[], by simp⟩
  | cons part init ih =>
    cases init with
    | nil => exact ⟨part ++ sep, by simp [List.intercalate_cons_cons]⟩
    | cons next init =>
      rw [List.cons_append, List.cons_append, List.intercalate_cons_cons]
      exact List.IsSuffix.trans ih (List.suffix_append _ _)

theorem intercalate_concat (sep last : List Char) {init : List (List Char)} (h : init ≠ []) :
    sep.intercalate (init ++ [last]) = sep.intercalate init ++ sep ++ last := by
  induction init with
  | nil => exact absurd rfl h
  | cons part init ih =>
    cases init with
    | nil => simp [List.intercalate_cons_cons]
    | cons next init =>
      rw [List.cons_append, List.cons_append, List.intercalate_cons_cons,
        List.intercalate_cons_cons, ← List.cons_append, ih (by simp)]
      simp

/-- What stands at the end of the last part stands at the end. -/
theorem intercalate_concat_append (sep last more : List Char) (init : List (List Char)) :
    sep.intercalate (init ++ [last ++ more]) = sep.intercalate (init ++ [last]) ++ more := by
  rcases eq_or_ne init [] with rfl | h
  · simp
  · simp [intercalate_concat sep _ h]

/-- What is in a text put together is in the separator or in a part. -/
theorem of_mem_intercalate {sep : List Char} {c : Char} : ∀ {parts : List (List Char)},
    c ∈ sep.intercalate parts → c ∈ sep ∨ ∃ part ∈ parts, c ∈ part
  | [], h => by simp at h
  | [part], h => .inr ⟨part, List.mem_cons_self, by rwa [List.intercalate_singleton] at h⟩
  | part :: next :: rest, h => by
    rw [List.intercalate_cons_cons, List.append_assoc, List.mem_append, List.mem_append] at h
    rcases h with h | h | h
    · exact .inr ⟨part, List.mem_cons_self, h⟩
    · exact .inl h
    · rcases of_mem_intercalate h with h | ⟨p, hp, hc⟩
      · exact .inl h
      · exact .inr ⟨p, List.mem_cons_of_mem _ hp, hc⟩

end Disclosure.Text
