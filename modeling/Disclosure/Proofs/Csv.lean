import Disclosure.Csv

/-!
# Records written and read

A field is written as it is or in quotes, and either way the reader comes out behind it with the field
in hand. What it does then depends on the mark that follows, so the lemma on one field is stated for
any mark and asks what the reader makes of the mark in each mode that a field can leave it in.
-/

namespace Disclosure.Csv

theorem foldr_push {α : Type} (field piece : List α) (fields : List (List α))
    (records : List (List (List α))) :
    field.foldr push ((piece :: fields) :: records) = ((field ++ piece) :: fields) :: records := by
  induction field with
  | nil => rfl
  | cons c field ih => rw [List.foldr_cons, ih, push, List.cons_append]

variable {α : Type} [DecidableEq α] {d : Dialect α}

/-- The marks of a dialect are told apart. -/
structure Dialect.Distinct (d : Dialect α) : Prop where
  quote_ne_separator : d.quote ≠ d.separator
  quote_ends_nothing : d.endsRecord d.quote = false
  separator_ends_nothing : d.endsRecord d.separator = false

theorem commas_distinct : commas.Distinct :=
  ⟨by decide, by decide, by decide⟩

/-! ## One field -/

theorem needsQuotes_cons {c : α} {field : List α} (h : needsQuotes d (c :: field) = false) :
    c ≠ d.separator ∧ c ≠ d.quote ∧ d.endsRecord c = false ∧ needsQuotes d field = false := by
  simpa [needsQuotes, and_assoc] using h

theorem recordsFrom_plain {field : List α} (h : needsQuotes d field = false) (rest : List α) :
    recordsFrom d .plain (field ++ rest) = field.foldr push (recordsFrom d .plain rest) := by
  induction field with
  | nil => rfl
  | cons c field ih =>
    obtain ⟨hsep, -, hend, hfield⟩ := needsQuotes_cons h
    rw [List.cons_append, recordsFrom, if_neg hsep, if_neg (by simp [hend]), ih hfield]
    rfl

/-- Inside quotes every mark is taken as it is, up to the quote that is not written twice. -/
theorem recordsFrom_quoted (field rest : List α) :
    recordsFrom d .quoted (doubleQuotes d field ++ d.quote :: rest) =
      field.foldr push (recordsFrom d .quoteSeen rest) := by
  induction field with
  | nil => simp [doubleQuotes, recordsFrom]
  | cons c field ih =>
    rw [doubleQuotes, List.flatMap_cons, List.append_assoc, ← doubleQuotes]
    split
    · rename_i hc
      rw [hc, List.cons_append, List.cons_append, List.nil_append, recordsFrom, if_pos rfl,
        recordsFrom, if_pos rfl, ih]
      rfl
    · rename_i hc
      rw [List.cons_append, List.nil_append, recordsFrom, if_neg hc, ih]
      rfl

/-- A field that begins in quotes is read from behind the first one. -/
theorem recordsFrom_quote (hd : d.Distinct) {mode : Mode}
    (hmode : mode = .recordStart ∨ mode = .fieldStart) (rest : List α) :
    recordsFrom d mode (d.quote :: rest) = recordsFrom d .quoted rest := by
  rcases hmode with rfl | rfl
  · rw [recordsFrom, if_neg (by simp [hd.quote_ends_nothing]), if_pos rfl]
  · rw [recordsFrom, if_pos rfl]

/-- A field without marks is read on from its first character. -/
theorem recordsFrom_cons_plain {mode : Mode} (hmode : mode = .recordStart ∨ mode = .fieldStart)
    {c : α} {field : List α} (h : needsQuotes d (c :: field) = false) (rest : List α) :
    recordsFrom d mode (c :: field ++ rest) =
      push c (field.foldr push (recordsFrom d .plain rest)) := by
  obtain ⟨hsep, hquote, hend, hfield⟩ := needsQuotes_cons h
  rw [← recordsFrom_plain hfield, List.cons_append]
  rcases hmode with rfl | rfl
  · rw [recordsFrom, if_neg (by simp [hend]), if_neg hquote, if_neg hsep]
  · rw [recordsFrom, if_neg hquote, if_neg hsep, if_neg (by simp [hend])]

/-- What follows a field is read the same in every mode that a field can leave the reader in: the
field is over. -/
structure ClosesField (d : Dialect α) (mode : Mode) (rest : List α) (fields : List (List α))
    (records : List (List (List α))) : Prop where
  /-- Nothing was written for the field, so the reader has not moved. -/
  unmoved : recordsFrom d mode rest = ([] :: fields) :: records
  plain : recordsFrom d .plain rest = ([] :: fields) :: records
  quoted : recordsFrom d .quoteSeen rest = ([] :: fields) :: records

/-- **A field comes back as it was written**, whatever marks it has in it. -/
theorem recordsFrom_written (hd : d.Distinct) {mode : Mode}
    (hmode : mode = .recordStart ∨ mode = .fieldStart) {rest : List α} {fields : List (List α)}
    {records : List (List (List α))} (hrest : ClosesField d mode rest fields records)
    (field : List α) :
    recordsFrom d mode (written d field ++ rest) = (field :: fields) :: records := by
  rw [written]
  split
  · rw [quoted, List.cons_append, List.append_assoc, List.singleton_append,
      recordsFrom_quote hd hmode, recordsFrom_quoted, hrest.quoted, foldr_push, List.append_nil]
  · rename_i hplain
    rw [Bool.not_eq_true] at hplain
    cases field with
    | nil => exact hrest.unmoved
    | cons c field =>
      rw [recordsFrom_cons_plain hmode hplain, hrest.plain, foldr_push, List.append_nil]
      rfl

/-! ## Records of two fields -/

theorem closesField_separator (hd : d.Distinct) {mode : Mode}
    (hmode : mode = .recordStart ∨ mode = .fieldStart) {rest : List α} {fields : List (List α)}
    {records : List (List (List α))}
    (hrest : recordsFrom d .fieldStart rest = fields :: records) :
    ClosesField d mode (d.separator :: rest) fields records := by
  have hclosed : endField (recordsFrom d .fieldStart rest) = ([] :: fields) :: records := by
    rw [hrest, endField]
  refine ⟨?_, ?_, ?_⟩
  · rcases hmode with rfl | rfl
    · rw [recordsFrom, if_neg (by simp [hd.separator_ends_nothing]),
        if_neg hd.quote_ne_separator.symm, if_pos rfl, hclosed]
    · rw [recordsFrom, if_neg hd.quote_ne_separator.symm, if_pos rfl, hclosed]
  · rw [recordsFrom, if_pos rfl, hclosed]
  · rw [recordsFrom, if_neg hd.quote_ne_separator.symm, if_pos rfl, hclosed]

theorem closesField_lineFeed (hd : d.Distinct) (rest : List α) :
    ClosesField d .fieldStart (d.lineFeed :: rest) [] (recordsFrom d .recordStart rest) := by
  have hend : d.endsRecord d.lineFeed = true := by simp [Dialect.endsRecord]
  have hquote : d.lineFeed ≠ d.quote := by
    intro heq
    rw [heq, hd.quote_ends_nothing] at hend
    exact absurd hend (by decide)
  have hsep : d.lineFeed ≠ d.separator := by
    intro heq
    rw [heq, hd.separator_ends_nothing] at hend
    exact absurd hend (by decide)
  refine ⟨?_, ?_, ?_⟩
  · rw [recordsFrom, if_neg hquote, if_neg hsep, if_pos hend]
  · rw [recordsFrom, if_neg hsep, if_pos hend]
  · rw [recordsFrom, if_neg hquote, if_neg hsep, if_pos hend]

/-- A record of two fields comes back as it was written, and the reader is at the next one. -/
theorem recordsFrom_pair (hd : d.Distinct) (first second rest : List α) :
    recordsFrom d .recordStart
        (written d first ++ d.separator :: (written d second ++ d.lineFeed :: rest)) =
      [first, second] :: recordsFrom d .recordStart rest :=
  recordsFrom_written hd (.inl rfl)
    (closesField_separator hd (.inl rfl)
      (recordsFrom_written hd (.inr rfl) (closesField_lineFeed hd rest) second)) first

end Disclosure.Csv
