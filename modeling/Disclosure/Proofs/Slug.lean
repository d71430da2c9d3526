import Disclosure.Job.Basic
import Disclosure.Proofs.Path

/-!
# What slugs are made of

A slug has small letters, digits, underscores and dashes in it. It has no slash, so it stays within
one name of a path, and no dot, so the name does not come to mean a directory. The name of a job is
a slug that is not empty.

What a slug may well have in it is an underscore, and underscores are also what job files put
between the name of a job and the rest.

A slug is put together from words, and cutting it at its dashes gives the words again. So a text that
is words with single dashes between them is its own slug. A name can also be read in one pass, which
keeps a dash back until it is sure that one more word begins: `SlugPass.Agrees` says what the pass
knows of the words.
-/

namespace Disclosure

/-! ## Characters -/

theorem isUpper_iff {c : Char} : c.isUpper = true ↔ 65 ≤ c.toNat ∧ c.toNat ≤ 90 :=
  decide_eq_true_iff.trans (and_congr UInt32.le_iff_toNat_le UInt32.le_iff_toNat_le)

theorem isLower_iff {c : Char} : c.isLower = true ↔ 97 ≤ c.toNat ∧ c.toNat ≤ 122 :=
  Bool.and_eq_true_iff.trans (and_congr (decide_eq_true_iff.trans UInt32.le_iff_toNat_le)
    (decide_eq_true_iff.trans UInt32.le_iff_toNat_le))

theorem isDigit_iff {c : Char} : c.isDigit = true ↔ 48 ≤ c.toNat ∧ c.toNat ≤ 57 :=
  Bool.and_eq_true_iff.trans (and_congr (decide_eq_true_iff.trans UInt32.le_iff_toNat_le)
    (decide_eq_true_iff.trans UInt32.le_iff_toNat_le))

theorem isAlphanum_iff {c : Char} :
    c.isAlphanum = true ↔ (c.isUpper = true ∨ c.isLower = true) ∨ c.isDigit = true :=
  Bool.or_eq_true_iff.trans (or_congr_left Bool.or_eq_true_iff)

theorem toLower_of_not_isUpper {c : Char} (h : ¬ c.isUpper = true) : c.toLower = c :=
  dif_neg fun hrange => h (decide_eq_true hrange)

theorem isLower_toLower_of_isUpper {c : Char} (h : c.isUpper = true) : c.toLower.isLower = true := by
  have hval : c.toLower.val = c.val + ('a'.val - 'A'.val) :=
    congrArg Char.val (dif_pos (of_decide_eq_true h))
  have hcode : c.toLower.toNat = (c.toNat + 32) % 4294967296 := congrArg UInt32.toNat hval
  rw [isUpper_iff] at h
  rw [isLower_iff]
  omega

/-- A character that is kept in a slug, if need be as a small letter. -/
def IsKept (c : Char) : Prop :=
  c.isAlphanum = true ∨ c = '_'

/-- A character that the words of a slug are made of: a small letter, a digit or an underscore. -/
def IsWordChar (c : Char) : Prop :=
  c.isLower = true ∨ c.isDigit = true ∨ c = '_'

instance (c : Char) : Decidable (IsWordChar c) :=
  inferInstanceAs (Decidable (_ ∨ _))

/-- Words with single dashes between them. Without words there is nothing. -/
def IsSlug (s : String) : Prop :=
  ∃ words : List (List Char), (∀ word ∈ words, word ≠ [] ∧ ∀ c ∈ word, IsWordChar c) ∧
    s.toList = ['-'].intercalate words

theorem IsWordChar.isKept {c : Char} (h : IsWordChar c) : IsKept c := by
  rw [IsKept, isAlphanum_iff]
  rcases h with h | h | h
  · exact .inl (.inl (.inr h))
  · exact .inl (.inr h)
  · exact .inr h

theorem IsWordChar.not_isUpper {c : Char} (h : IsWordChar c) : ¬ c.isUpper = true := by
  intro hupper
  rw [isUpper_iff] at hupper
  rcases h with h | h | rfl
  · rw [isLower_iff] at h
    omega
  · rw [isDigit_iff] at h
    omega
  · exact absurd hupper (by decide)

theorem IsWordChar.ne_dash {c : Char} (h : IsWordChar c) : c ≠ '-' := by
  rintro rfl
  exact absurd h (by decide)

theorem isWordChar_toLower {c : Char} (h : IsKept c) : IsWordChar c.toLower := by
  by_cases hupper : c.isUpper = true
  · exact .inl (isLower_toLower_of_isUpper hupper)
  · rw [toLower_of_not_isUpper hupper]
    simpa [IsWordChar, IsKept, isAlphanum_iff, hupper, or_assoc] using h

theorem slugChar_of_isKept {c : Char} (h : IsKept c) : slugChar c = c.toLower := by
  rw [slugChar, if_pos (by simpa [IsKept] using h)]

theorem slugChar_of_not_isKept {c : Char} (h : ¬ IsKept c) : slugChar c = '-' := by
  rw [slugChar, if_neg (by simpa [IsKept] using h)]

theorem slugChar_eq_dash_iff {c : Char} : slugChar c = '-' ↔ ¬ IsKept c := by
  refine ⟨fun hdash h => ?_, slugChar_of_not_isKept⟩
  rw [slugChar_of_isKept h] at hdash
  exact (isWordChar_toLower h).ne_dash hdash

theorem isWordChar_slugChar {c : Char} (h : slugChar c ≠ '-') : IsWordChar (slugChar c) := by
  have hkept : IsKept c := not_not.mp fun hnot => h (slugChar_of_not_isKept hnot)
  rw [slugChar_of_isKept hkept]
  exact isWordChar_toLower hkept

theorem IsWordChar.slugChar_eq {c : Char} (h : IsWordChar c) : slugChar c = c := by
  rw [slugChar_of_isKept h.isKept, toLower_of_not_isUpper h.not_isUpper]

/-! ## Words -/

/-- The words of a slug, for a row of slug characters. -/
def wordsAt (cs : List Char) : List (List Char) :=
  (Text.piecesAt '-' cs).filter (!·.isEmpty)

theorem toList_slug (name : String) :
    (slug name).toList = ['-'].intercalate (wordsAt (name.toList.map slugChar)) := by
  have hne : ∀ cs : List Char, (String.ofList cs != "") = !cs.isEmpty := by
    intro cs
    cases cs with
    | nil => rfl
    | cons c cs => exact bne_iff_ne.mpr fun h => by simpa using congrArg String.toList h
  rw [slug, String.toList_intercalate, Text.splitAt, String.toList_ofList, List.filter_map,
    List.map_map]
  simp [wordsAt, Function.comp_def, hne]

theorem wordsAt_eq_nil_iff {cs : List Char} : wordsAt cs = [] ↔ ∀ c ∈ cs, c = '-' := by
  have hflat : (∀ piece ∈ Text.piecesAt '-' cs, piece = []) ↔ ∀ c ∈ cs, c = '-' := by
    rw [← List.flatten_eq_nil_iff, Text.flatten_piecesAt, List.filter_eq_nil_iff]
    simp
  rw [← hflat, wordsAt, List.filter_eq_nil_iff]
  simp

theorem isWordChar_of_mem_wordsAt {cs word : List Char} (h : word ∈ wordsAt (cs.map slugChar)) :
    word ≠ [] ∧ ∀ c ∈ word, IsWordChar c := by
  obtain ⟨hpiece, hne⟩ := List.mem_filter.mp h
  refine ⟨by simpa using hne, fun c hc => ?_⟩
  obtain ⟨d, -, rfl⟩ := List.mem_map.mp (Text.of_mem_piecesAt hpiece hc)
  exact isWordChar_slugChar (ne_of_mem_of_not_mem hc (Text.not_mem_of_mem_piecesAt hpiece))

theorem wordsAt_intercalate {words : List (List Char)}
    (h : ∀ word ∈ words, word ≠ [] ∧ ∀ c ∈ word, IsWordChar c) :
    wordsAt (['-'].intercalate words) = words := by
  rcases eq_or_ne words [] with rfl | hne
  · rfl
  · have hdash : ∀ word ∈ words, '-' ∉ word := fun word hword hmem =>
      ((h word hword).2 '-' hmem).ne_dash rfl
    rw [wordsAt, Text.piecesAt_intercalate hdash hne, List.filter_eq_self]
    exact fun word hword => by simpa using (h word hword).1

theorem map_slugChar_intercalate {words : List (List Char)}
    (h : ∀ word ∈ words, word ≠ [] ∧ ∀ c ∈ word, IsWordChar c) :
    (['-'].intercalate words).map slugChar = ['-'].intercalate words := by
  refine (List.map_congr_left fun c hc => ?_).trans (List.map_id _)
  rcases Text.of_mem_intercalate hc with hdash | ⟨word, hword, hc⟩
  · rw [List.mem_singleton.mp hdash]
    decide
  · exact ((h word hword).2 c hc).slugChar_eq

/-- There is nothing in a slug only if there are no words. -/
theorem intercalate_wordsAt_eq_nil_iff (cs : List Char) :
    ['-'].intercalate (wordsAt (cs.map slugChar)) = [] ↔ wordsAt (cs.map slugChar) = [] := by
  constructor
  · intro h
    have hwords : ∀ word ∈ wordsAt (cs.map slugChar), word ≠ [] ∧ ∀ c ∈ word, IsWordChar c :=
      fun _ => isWordChar_of_mem_wordsAt
    rw [← wordsAt_intercalate hwords, h]
    rfl
  · intro h
    rw [h]
    rfl

theorem isSlug_slug (name : String) : IsSlug (slug name) :=
  ⟨_, fun _ => isWordChar_of_mem_wordsAt, toList_slug name⟩

theorem slug_eq_self_of_isSlug {s : String} (h : IsSlug s) : slug s = s := by
  obtain ⟨words, hwords, hs⟩ := h
  rw [← String.toList_inj, toList_slug, hs, map_slugChar_intercalate hwords,
    wordsAt_intercalate hwords]

theorem slug_eq_empty_iff (name : String) : slug name = "" ↔ ¬ ∃ c ∈ name.toList, IsKept c := by
  rw [← String.toList_inj, toList_slug, String.toList_empty, intercalate_wordsAt_eq_nil_iff,
    wordsAt_eq_nil_iff, List.forall_mem_map]
  simp [slugChar_eq_dash_iff]

/-! ## In one pass -/

/-- What has been read of a name: the slug so far, and whether a dash is due. -/
structure SlugPass where
  slug : List Char
  dashDue : Bool

/-- Reads one character more. -/
def SlugPass.next (p : SlugPass) (c : Char) : SlugPass :=
  if c.isAlphanum || c = '_' then
    ⟨(if p.dashDue && !p.slug.isEmpty then p.slug ++ ['-'] else p.slug) ++ [c.toLower], false⟩
  else ⟨p.slug, true⟩

/-- What has been read agrees with the words up to here. A dash is due where the last of them has
ended. -/
structure SlugPass.Agrees (p : SlugPass) (cs : List Char) : Prop where
  slug_eq : p.slug = ['-'].intercalate (wordsAt (cs.map slugChar))
  dashDue_iff : p.slug ≠ [] → (p.dashDue = true ↔ Text.lastPiece '-' (cs.map slugChar) = [])

/-- One more character of a word goes to the last piece. -/
theorem wordsAt_concat (cs : List Char) {d : Char} (hd : d ≠ '-') :
    ∃ words, wordsAt (cs ++ [d]) = words ++ [Text.lastPiece '-' cs ++ [d]] ∧
      Text.lastPiece '-' (cs ++ [d]) ≠ [] ∧
      wordsAt cs = words ++ if Text.lastPiece '-' cs = [] then [] else [Text.lastPiece '-' cs] := by
  have hone : Text.piecesAt '-' [d] = [[d]] :=
    Text.piecesAt_of_not_mem (by simpa using Ne.symm hd)
  obtain ⟨init, hcs, hmore⟩ := Text.piecesAt_append '-' _ hone cs
  refine ⟨init.filter (!·.isEmpty), ?_, ?_, ?_⟩
  · simp [wordsAt, hmore, List.filter_append]
  · simp [Text.lastPiece_of_pieces hmore]
  · rw [wordsAt, hcs, List.filter_append]
    split <;> simp_all

/-- A dash ends the last piece, and the words stay what they are. -/
theorem wordsAt_concat_dash (cs : List Char) : wordsAt (cs ++ ['-']) = wordsAt cs := by
  obtain ⟨init, hcs, hmore⟩ := Text.piecesAt_append '-' _ (Text.piecesAt_cons_self '-' []) cs
  rw [wordsAt, wordsAt, hcs, hmore]
  simp [Text.piecesAt, List.filter_append, List.filter_cons]

/-- **One character more.** -/
theorem SlugPass.Agrees.next {p : SlugPass} {cs : List Char} (h : p.Agrees cs) (c : Char) :
    (p.next c).Agrees (cs ++ [c]) := by
  obtain ⟨hslug, hdue⟩ := h
  by_cases hc : IsKept c
  · have hd : slugChar c ≠ '-' := fun hdash => slugChar_eq_dash_iff.mp hdash hc
    have hnext : p.next c = ⟨(if p.dashDue && !p.slug.isEmpty then p.slug ++ ['-'] else p.slug) ++
        [slugChar c], false⟩ := by
      rw [SlugPass.next, if_pos (by simpa [IsKept] using hc), slugChar_of_isKept hc]
    obtain ⟨words, hmore, hlast, hwords⟩ := wordsAt_concat (cs.map slugChar) hd
    have hnone := intercalate_wordsAt_eq_nil_iff cs
    rw [← hslug] at hnone
    rw [hwords] at hslug hnone
    rw [hnext]
    refine ⟨?_, fun _ => by simpa using hlast⟩
    rw [List.map_append, List.map_singleton, hmore]
    by_cases hopen : Text.lastPiece '-' (cs.map slugChar) = []
    · -- the character begins a word, which a dash parts from the words before
      rw [if_pos hopen, List.append_nil] at hslug hnone
      rw [hopen, List.nil_append]
      rcases eq_or_ne words [] with hfirst | hfirst
      · simp [hnone.mpr hfirst, hfirst]
      · have hne : p.slug ≠ [] := fun h => hfirst (hnone.mp h)
        rw [(hdue hne).mpr hopen, Text.intercalate_concat _ _ hfirst, ← hslug]
        simp [hne]
    · -- the word goes on
      rw [if_neg hopen] at hslug hnone
      have hne : p.slug ≠ [] := fun h => by simpa using hnone.mp h
      have hnot : p.dashDue = false := Bool.eq_false_iff.mpr fun h => hopen ((hdue hne).mp h)
      simp [hnot, hslug, Text.intercalate_concat_append]
  · have hnext : p.next c = ⟨p.slug, true⟩ := if_neg (by simpa [IsKept] using hc)
    rw [hnext]
    constructor
    · simp [slugChar_of_not_isKept hc, wordsAt_concat_dash, hslug]
    · simp [slugChar_of_not_isKept hc, Text.lastPiece_append_sep]

theorem agrees_slugPass (cs : List Char) : (cs.foldl SlugPass.next ⟨[], false⟩).Agrees cs := by
  induction cs using List.reverseRecOn with
  | nil => exact ⟨rfl, fun h => absurd rfl h⟩
  | append_singleton cs c ih =>
    rw [List.foldl_append]
    exact ih.next c

/-- **A slug is nothing, or words of small letters, digits and underscores with single dashes between
them**, and those texts are the slugs of themselves. One pass over the name that keeps a dash back
until the next word begins comes to the same. -/
theorem slug_exact :
    (∀ name, IsSlug (slug name)) ∧
    (∀ s, slug s = s ↔ IsSlug s) ∧
    (∀ name, slug (slug name) = slug name) ∧
    (∀ name, slug name = "" ↔ ¬ ∃ c ∈ name.toList, IsKept c) ∧
    ∀ name, (slug name).toList = (name.toList.foldl SlugPass.next ⟨[], false⟩).slug := by
  refine ⟨isSlug_slug, fun s => ⟨fun h => h ▸ isSlug_slug s, slug_eq_self_of_isSlug⟩,
    fun name => slug_eq_self_of_isSlug (isSlug_slug name), slug_eq_empty_iff, fun name => ?_⟩
  rw [toList_slug, (agrees_slugPass name.toList).slug_eq]

/-! ## Names of files and jobs -/

theorem not_mem_slug {d : Char} (hd : d = '/' ∨ d = '.') (name : String) :
    d ∉ (slug name).toList := by
  intro h
  rw [toList_slug] at h
  rcases Text.of_mem_intercalate h with hdash | ⟨word, hword, hmem⟩
  · rw [List.mem_singleton.mp hdash] at hd
    exact absurd hd (by decide)
  · have hchar := (isWordChar_of_mem_wordsAt hword).2 d hmem
    rcases hd with rfl | rfl <;> exact absurd hchar (by decide)

theorem Path.straight_recode {column : String} (table : String)
    (h : ".." ∉ (Path.mk column).names) :
    Straight (slug table ++ "_" ++ column ++ ".grc").toList := by
  have hfront : IsEnding ((slug table).toList ++ "_".toList) :=
    ⟨by simp [not_mem_slug (.inl rfl) table], '_', by simp, by decide⟩
  rw [String.toList_append, String.toList_append, String.toList_append]
  exact ((straight_iff.mpr h).behind hfront).append_ending (by decide)

/-- A text that files of a job can begin with. -/
structure IsJobName (name : String) : Prop where
  /-- There is something to begin with. -/
  nonempty : name.toList ≠ []
  /-- It stays within one name of a path. -/
  noSlash : '/' ∉ name.toList
  /-- It does not mean a directory. -/
  noDot : '.' ∉ name.toList

/-- **The name of a job is a slug that is not empty.** -/
theorem Job.nameOf_isJobName (given : String) : IsJobName (Job.nameOf given) := by
  rw [Job.nameOf]
  split
  · exact ⟨by decide, by decide, by decide⟩
  · rename_i hne
    refine ⟨fun hnil => hne (String.toList_inj.mp hnil), ?_, ?_⟩
    · exact not_mem_slug (.inl rfl) given
    · exact not_mem_slug (.inr rfl) given

end Disclosure
