import Disclosure.Proofs.Text.Split
import Disclosure.Text.Line

/-!
# Texts put together in one way

A text that is put together from parts loses nothing if the parts can be told from it. Where each
part ends is decided by a character that none of them has: the line feed behind a line, a separator
between fields, a quote at the end of what is quoted. Lines that begin with keywords need no such
character, as long as no keyword begins another.
-/

namespace Disclosure.Text

/-! ## Lines -/

theorem unlines_cons (l : String) (ls : List String) :
    unlines (l :: ls) = l ++ "\n" ++ unlines ls := by
  simp [unlines, String.join_cons]

theorem unlines_append (ls ms : List String) :
    unlines (ls ++ ms) = unlines ls ++ unlines ms := by
  simp [unlines, String.join_append]

theorem toList_unlines_cons (l : String) (ls : List String) :
    (unlines (l :: ls)).toList = l.toList ++ '\n' :: (unlines ls).toList := by
  simp [unlines_cons]

/-- Lines are told from the text they make. -/
theorem unlines_inj : ∀ {ls ms : List String}, (∀ l ∈ ls, '\n' ∉ l.toList) →
    (∀ m ∈ ms, '\n' ∉ m.toList) → unlines ls = unlines ms → ls = ms
  | [], [], _, _, _ => rfl
  | [], m :: ms, _, _, h => by
    have hlists := congrArg String.toList h
    rw [toList_unlines_cons] at hlists
    simp [unlines] at hlists
  | l :: ls, [], _, _, h => by
    have hlists := congrArg String.toList h
    rw [toList_unlines_cons] at hlists
    simp [unlines] at hlists
  | l :: ls, m :: ms, hls, hms, h => by
    rw [List.forall_mem_cons] at hls hms
    have hlists := congrArg String.toList h
    rw [toList_unlines_cons, toList_unlines_cons] at hlists
    obtain ⟨hline, hrest⟩ := append_sep_inj hls.1 hms.1 hlists
    rw [String.toList_inj.mp hline, unlines_inj hls.2 hms.2 (String.toList_inj.mp hrest)]

/-- A row of what has a property is told from the rest if the rest begins with what has not. -/
theorem append_inj_of_begin {α : Type} {p : α → Bool} {xs ys rest more : List α}
    (hxs : ∀ x ∈ xs, p x = true) (hys : ∀ y ∈ ys, p y = true)
    (hrest : ∀ x ∈ rest.head?, p x = false) (hmore : ∀ x ∈ more.head?, p x = false)
    (h : xs ++ rest = ys ++ more) : xs = ys ∧ rest = more := by
  have hrow : ∀ {zs tail : List α}, (∀ z ∈ zs, p z = true) → (∀ x ∈ tail.head?, p x = false) →
      (zs ++ tail).takeWhile p = zs := by
    intro zs tail hzs htail
    rw [List.takeWhile_append_of_pos hzs]
    cases tail with
    | nil => simp
    | cons x tail => simp [htail x rfl]
  have hsame : xs = ys := by rw [← hrow hxs hrest, h, hrow hys hmore]
  exact ⟨hsame, List.append_cancel_left (hsame ▸ h)⟩

/-! ## Fields -/

theorem intercalate_ne_empty {sep : String} {field : String} {rest : List String}
    (h : field ≠ "") : sep.intercalate (field :: rest) ≠ "" := by
  cases rest with
  | nil => simpa using h
  | cons next rest => simp [String.intercalate_cons_cons, h]

/-- Fields that are not empty are told from the text they make. -/
theorem intercalate_inj {sep : Char} {fields others : List String}
    (hfields : ∀ field ∈ fields, sep ∉ field.toList ∧ field ≠ "")
    (hothers : ∀ field ∈ others, sep ∉ field.toList ∧ field ≠ "")
    (h : (String.singleton sep).intercalate fields = (String.singleton sep).intercalate others) :
    fields = others := by
  cases fields with
  | nil =>
    cases others with
    | nil => rfl
    | cons field rest =>
      exact absurd h.symm (intercalate_ne_empty (hothers field List.mem_cons_self).2)
  | cons field rest =>
    cases others with
    | nil => exact absurd h (intercalate_ne_empty (hfields field List.mem_cons_self).2)
    | cons other more =>
      rw [← splitOnText_intercalate (fun f hf => (hfields f hf).1) (by simp), h,
        splitOnText_intercalate (fun f hf => (hothers f hf).1) (by simp)]

theorem not_mem_intercalate {c : Char} {sep : String} {fields : List String}
    (hsep : c ∉ sep.toList) (h : ∀ field ∈ fields, c ∉ field.toList) :
    c ∉ (sep.intercalate fields).toList := by
  intro hmem
  rw [String.toList_intercalate] at hmem
  rcases of_mem_intercalate hmem with hc | ⟨part, hpart, hc⟩
  · exact hsep hc
  · obtain ⟨field, hfield, rfl⟩ := List.mem_map.mp hpart
    exact h field hfield hc

theorem not_mem_join {c : Char} {parts : List String} (h : ∀ part ∈ parts, c ∉ part.toList) :
    c ∉ (String.join parts).toList := by
  intro hmem
  rw [String.toList_join] at hmem
  obtain ⟨part, hpart, hc⟩ := List.mem_flatMap.mp hmem
  exact h part hpart hc

/-! ## Quotes -/

/-- What is quoted ends at the first quote. -/
theorem quoted_append_inj {text other rest more : List Char} (htext : '"' ∉ text)
    (hother : '"' ∉ other) (h : '"' :: (text ++ '"' :: rest) = '"' :: (other ++ '"' :: more)) :
    text = other ∧ rest = more :=
  append_sep_inj htext hother (List.tail_eq_of_cons_eq h)

/-- Values in quotes, with blanks between them. -/
def quotedRow (values : List String) : String :=
  " ".intercalate (values.map fun value => "\"" ++ value ++ "\"")

theorem toList_quotedRow_cons (value : String) (values : List String) :
    (quotedRow (value :: values)).toList = '"' :: (value.toList ++ '"' ::
      (if values = [] then [] else ' ' :: (quotedRow values).toList)) := by
  cases values with
  | nil => simp [quotedRow]
  | cons next rest => simp [quotedRow, String.intercalate_cons_cons]

theorem quotedRow_inj : ∀ {values others : List String}, (∀ v ∈ values, '"' ∉ v.toList) →
    (∀ v ∈ others, '"' ∉ v.toList) → quotedRow values = quotedRow others → values = others
  | [], [], _, _, _ => rfl
  | [], other :: more, _, _, h => by
    have hlists := congrArg String.toList h
    rw [toList_quotedRow_cons] at hlists
    simp [quotedRow] at hlists
  | value :: rest, [], _, _, h => by
    have hlists := congrArg String.toList h
    rw [toList_quotedRow_cons] at hlists
    simp [quotedRow] at hlists
  | value :: rest, other :: more, hvalues, hothers, h => by
    rw [List.forall_mem_cons] at hvalues hothers
    have hlists := congrArg String.toList h
    rw [toList_quotedRow_cons, toList_quotedRow_cons] at hlists
    obtain ⟨hvalue, htails⟩ := quoted_append_inj hvalues.1 hothers.1 hlists
    have hrows : quotedRow rest = quotedRow more := by
      by_cases hrest : rest = []
      · by_cases hmore : more = []
        · rw [hrest, hmore]
        · simp [hrest, hmore] at htails
      · by_cases hmore : more = []
        · simp [hrest, hmore] at htails
        · exact String.toList_inj.mp (by simpa [hrest, hmore] using htails)
    rw [String.toList_inj.mp hvalue, quotedRow_inj hvalues.2 hothers.2 hrows]

theorem not_mem_quotedRow {c : Char} {values : List String} (hc : c ∉ ['"', ' '])
    (h : ∀ v ∈ values, c ∉ v.toList) : c ∉ (quotedRow values).toList := by
  have hmarks : c ≠ '"' ∧ c ≠ ' ' := by simpa using hc
  refine not_mem_intercalate (by simpa using hmarks.2) fun field hfield => ?_
  obtain ⟨value, hvalue, rfl⟩ := List.mem_map.mp hfield
  simpa [hmarks.1] using h value hvalue

/-! ## Keywords -/

/-- Lines that begin with keywords. An argument that is absent has no line. -/
def keywordLines (keywords : List String) (arguments : List (Option String)) : List String :=
  (keywords.zip arguments).filterMap fun (keyword, argument) => argument.map (keyword ++ ·)

/-- Neither of two keywords begins the other. -/
def BeginApart (keyword other : String) : Prop :=
  ¬ keyword.toList <+: other.toList ∧ ¬ other.toList <+: keyword.toList

instance (keyword other : String) : Decidable (BeginApart keyword other) :=
  inferInstanceAs (Decidable (_ ∧ _))

@[simp] theorem keywordLines_nil : keywordLines [] [] = [] :=
  rfl

@[simp] theorem keywordLines_cons_none (keyword : String) (keywords : List String)
    (arguments : List (Option String)) :
    keywordLines (keyword :: keywords) (none :: arguments) = keywordLines keywords arguments :=
  rfl

@[simp] theorem keywordLines_cons_some (keyword argument : String) (keywords : List String)
    (arguments : List (Option String)) :
    keywordLines (keyword :: keywords) (some argument :: arguments) =
      (keyword ++ argument) :: keywordLines keywords arguments :=
  rfl

theorem keywordLines_append {keywords others : List String}
    {arguments more : List (Option String)} (h : keywords.length = arguments.length) :
    keywordLines (keywords ++ others) (arguments ++ more) =
      keywordLines keywords arguments ++ keywordLines others more := by
  rw [keywordLines, List.zip_append h, List.filterMap_append]
  rfl

theorem exists_of_mem_keywordLines {keywords : List String} {arguments : List (Option String)}
    {line : String} (h : line ∈ keywordLines keywords arguments) :
    ∃ keyword ∈ keywords, ∃ argument, some argument ∈ arguments ∧ line = keyword ++ argument := by
  obtain ⟨⟨keyword, argument⟩, hzip, hline⟩ := List.mem_filterMap.mp h
  obtain ⟨argument, rfl, rfl⟩ := Option.map_eq_some_iff.mp hline
  exact ⟨keyword, (List.of_mem_zip hzip).1, argument, (List.of_mem_zip hzip).2, rfl⟩

/-- A line with one keyword is no line with another. -/
theorem not_mem_keywordLines {keyword : String} {keywords : List String}
    (h : ∀ other ∈ keywords, BeginApart keyword other) (argument : String)
    (arguments : List (Option String)) :
    (keyword ++ argument) ∉ keywordLines keywords arguments := by
  intro hmem
  obtain ⟨other, hother, text, _, hline⟩ := exists_of_mem_keywordLines hmem
  have hlists : keyword.toList ++ argument.toList = other.toList ++ text.toList := by
    simpa using congrArg String.toList hline
  have hbegins : keyword.toList <+: other.toList ++ text.toList := ⟨_, hlists⟩
  exact (List.prefix_or_prefix_of_prefix hbegins (List.prefix_append _ _)).elim
    (h other hother).1 (h other hother).2

/-- Arguments are told from the lines they make. -/
theorem keywordLines_inj : ∀ {keywords : List String} {arguments others : List (Option String)},
    keywords.Pairwise BeginApart → arguments.length = keywords.length →
    others.length = keywords.length →
    keywordLines keywords arguments = keywordLines keywords others → arguments = others
  | [], [], [], _, _, _, _ => rfl
  | keyword :: keywords, argument :: arguments, other :: others, hapart, hlength, hlength', h => by
    obtain ⟨hfirst, hapart⟩ := List.pairwise_cons.mp hapart
    have hrest : keywordLines keywords arguments = keywordLines keywords others →
        arguments = others :=
      keywordLines_inj hapart (by simpa using hlength) (by simpa using hlength')
    cases argument with
    | none =>
      cases other with
      | none => rw [hrest h]
      | some text =>
        rw [keywordLines_cons_none, keywordLines_cons_some] at h
        exact absurd (h ▸ List.mem_cons_self) (not_mem_keywordLines hfirst text arguments)
    | some text =>
      cases other with
      | none =>
        rw [keywordLines_cons_none, keywordLines_cons_some] at h
        exact absurd (h ▸ List.mem_cons_self) (not_mem_keywordLines hfirst text others)
      | some word =>
        rw [keywordLines_cons_some, keywordLines_cons_some, List.cons.injEq] at h
        have hlists : keyword.toList ++ text.toList = keyword.toList ++ word.toList := by
          simpa using congrArg String.toList h.1
        rw [String.toList_inj.mp (List.append_cancel_left hlists), hrest h.2]

end Disclosure.Text
