import Disclosure.Override
import Disclosure.Proofs.Decimal
import Disclosure.Proofs.Fault
import Disclosure.Proofs.Text.Numbered
import Disclosure.Proofs.Text.Split

/-!
# Changes to cells written and read

A line is read from its end. The last part is a status letter, or it is a number and the part before
it says what number it is; whatever is left over is the cell, so codes may look like letters, keywords
or numbers themselves. A letter is no number, so the two kinds of line are never taken for each other.

The separator must not occur in what a change is written with: a letter or digit could, and so could
the point and the minus sign of a number.
-/

namespace Disclosure

/-- A character that can stand between the parts of a line. -/
structure IsSeparator (sep : Char) : Prop where
  /-- It is in no keyword and in no digits. -/
  not_alphanum : sep.isAlphanum = false
  ne_point : sep ≠ '.'
  ne_plus : sep ≠ '+'
  ne_minus : sep ≠ '-'
  /-- It ends no line. -/
  ne_feed : sep ≠ '\n'
  ne_return : sep ≠ '\r'

theorem IsSeparator.not_isNumeralChar {sep : Char} (hsep : IsSeparator sep) :
    ¬ IsNumeralChar sep := by
  rintro (h | h | h)
  · exact absurd h (by simp [hsep.not_alphanum])
  · exact hsep.ne_point h
  · exact hsep.ne_minus h

/-- A cell whose codes a line can be cut into again. -/
structure IsCell (sep : Char) (cell : List String) : Prop where
  ne_nil : cell ≠ []
  trimmed : ∀ code ∈ cell, Text.IsTrimmed code
  sep_not_mem : ∀ code ∈ cell, sep ∉ code.toList
  feed_not_mem : ∀ code ∈ cell, '\n' ∉ code.toList

instance (sep : Char) (cell : List String) : Decidable (IsCell sep cell) :=
  decidable_of_iff (cell ≠ [] ∧ ∀ code ∈ cell,
      Text.IsTrimmed code ∧ sep ∉ code.toList ∧ '\n' ∉ code.toList)
    ⟨fun ⟨hne, h⟩ => ⟨hne, fun code hc => (h code hc).1, fun code hc => (h code hc).2.1,
        fun code hc => (h code hc).2.2⟩,
      fun h => ⟨h.ne_nil, fun code hc =>
        ⟨h.trimmed code hc, h.sep_not_mem code hc, h.feed_not_mem code hc⟩⟩⟩

/-- Two floats stand for the same number, or neither stands for one. -/
def SameNumber (x y : Float) : Prop :=
  (x == y) = true ∨ (x.isNaN = true ∧ y.isNaN = true)

/-- What a float is written as stands for the same number when it is read. -/
def NumberReadsBack (x : Float) : Prop :=
  ∃ y, readFloat? (numberText x) = some y ∧ SameNumber y x

namespace CellChange

/-- The number of a change, if it has one, comes back. -/
def ReadsBack : CellChange → Prop
  | status _ => True
  | cost x => NumberReadsBack x
  | protectionLevel x => NumberReadsBack x

/-- Two changes say the same. -/
inductive Agrees : CellChange → CellChange → Prop where
  | status (s : OverrideStatus) : Agrees (status s) (status s)
  | cost {x y : Float} : SameNumber x y → Agrees (cost x) (cost y)
  | protectionLevel {x y : Float} :
      SameNumber x y → Agrees (protectionLevel x) (protectionLevel y)

end CellChange

/-- Two changes say the same about the same cell. -/
def CellOverride.Agrees (o p : CellOverride) : Prop :=
  o.cell = p.cell ∧ o.change.Agrees p.change

/-! ## Status letters and numbers -/

namespace OverrideStatus

variable {t : String} {s : OverrideStatus}

theorem ofLetter?_letter (s : OverrideStatus) : ofLetter? s.letter = some s := by
  cases s <;> rfl

theorem lower_of_ofLetter? (h : ofLetter? t = some s) :
    ∃ d ∈ ['s', 'u', 'p'], Text.lower t = String.ofList [d] := by
  rw [ofLetter?] at h
  split at h
  · exact ⟨'s', by simp, by assumption⟩
  · exact ⟨'u', by simp, by assumption⟩
  · exact ⟨'p', by simp, by assumption⟩
  · exact absurd h (by simp)

/-- A letter that stands for a status is no number. -/
theorem readFloat?_of_ofLetter? (h : ofLetter? t = some s) : readFloat? t = none := by
  obtain ⟨d, hd, hlower⟩ := lower_of_ofLetter? h
  obtain ⟨c, ht, rfl⟩ := List.map_eq_singleton_iff.mp (String.ofList_injective hlower)
  have hletters : (['s', 'u', 'p'].all fun d => !d.isDigit) = true := by decide
  refine readFloat?_of_toList_eq_singleton ht (Bool.eq_false_iff.mpr fun hc => ?_)
  have hletter := List.all_eq_true.mp hletters _ hd
  rw [toLower_of_isDigit hc, hc] at hletter
  exact Bool.noConfusion hletter

/-- What is read as a number is no status. -/
theorem ofLetter?_of_readFloat? {x : Float} (h : readFloat? t = some x) : ofLetter? t = none := by
  refine Option.eq_none_iff_forall_ne_some.mpr fun s hs => ?_
  exact absurd ((readFloat?_of_ofLetter? hs).symm.trans h) (by simp)

end OverrideStatus

namespace CellOverrides

variable {sep : Char}

/-! ## One line -/

theorem forCell_of_ne_nil {cell : List String} (h : cell ≠ []) (change : CellChange) :
    forCell cell change = .ok ⟨cell, change⟩ := by
  rw [forCell, if_neg (by simpa using h)]

theorem of_forCell_ok {cell : List String} {change : CellChange} {o : CellOverride}
    (h : forCell cell change = .ok o) : cell ≠ [] ∧ o.cell = cell := by
  rw [forCell] at h
  split at h
  · exact absurd h (by simp)
  · rename_i hcell
    cases h
    exact ⟨by simpa using hcell, rfl⟩

/-- The parts of a change behind those of its cell are read as they were. -/
theorem readReversed_fields {o : CellOverride} (hcell : o.cell ≠ []) (h : o.change.ReadsBack) :
    ∃ p, readReversed (o.cell ++ o.change.fields).reverse = .ok p ∧ p.Agrees o := by
  obtain ⟨cell, change⟩ := o
  cases change with
  | status s =>
    refine ⟨⟨cell, .status s⟩, ?_, rfl, .status s⟩
    simp [CellChange.fields, readReversed, OverrideStatus.ofLetter?_letter,
      forCell_of_ne_nil hcell]
  | cost x =>
    obtain ⟨y, hread, hsame⟩ := h
    refine ⟨⟨cell, .cost y⟩, ?_, rfl, .cost hsame⟩
    have hkeyword : Text.lower "c" = "c" := by decide
    simp [CellChange.fields, readReversed, OverrideStatus.ofLetter?_of_readFloat? hread, hread,
      hkeyword, forCell_of_ne_nil hcell]
  | protectionLevel x =>
    obtain ⟨y, hread, hsame⟩ := h
    refine ⟨⟨cell, .protectionLevel y⟩, ?_, rfl, .protectionLevel hsame⟩
    have hkeyword : Text.lower "pl" = "pl" := by decide
    simp [CellChange.fields, readReversed, OverrideStatus.ofLetter?_of_readFloat? hread, hread,
      hkeyword, forCell_of_ne_nil hcell]

/-- What is read from a row of parts is about a cell of parts at its start. -/
theorem cell_of_readReversed {parts : List String} {o : CellOverride}
    (h : readReversed parts = .ok o) : o.cell ≠ [] ∧ ∀ code ∈ o.cell, code ∈ parts := by
  cases parts with
  | nil => exact absurd h (by simp [readReversed])
  | cons last before =>
    unfold readReversed at h
    dsimp only at h
    split at h
    · obtain ⟨hne, hcell⟩ := of_forCell_ok h
      rw [hcell]
      exact ⟨hne, fun code hc => List.mem_cons_of_mem _ (List.mem_reverse.mp hc)⟩
    · cases before with
      | nil => exact absurd h (by simp)
      | cons keyword cell =>
        have hparts : ∀ {change : CellChange}, forCell cell.reverse change = .ok o →
            o.cell ≠ [] ∧ ∀ code ∈ o.cell, code ∈ last :: keyword :: cell := by
          intro change hcell
          obtain ⟨hne, heq⟩ := of_forCell_ok hcell
          rw [heq]
          exact ⟨hne, fun code hc => List.mem_cons_of_mem _
            (List.mem_cons_of_mem _ (List.mem_reverse.mp hc))⟩
        dsimp only at h
        split at h
        · exact absurd h (by simp)
        · split at h
          · exact hparts h
          · exact hparts h
          · exact absurd h (by simp)

/-- A text made of the characters of numbers and keywords, so a separator is not in it. -/
theorem isNumeralChar_of_mem_fields {change : CellChange} {field : String}
    (hfield : field ∈ change.fields) {c : Char} (hc : c ∈ field.toList) : IsNumeralChar c := by
  have hwords : ∀ word ∈ ["s", "u", "p", "c", "pl"],
      (word.toList.all fun d => decide (IsNumeralChar d)) = true := by
    decide
  cases change with
  | status s =>
    rw [List.mem_singleton.mp hfield] at hc
    cases s <;> exact isNumeralChar_of_all (hwords _ (by simp [OverrideStatus.letter])) c hc
  | cost x =>
    rcases List.mem_pair.mp hfield with rfl | rfl
    · exact isNumeralChar_of_all (hwords _ (by simp)) c hc
    · exact isNumeralChar_numberText hc
  | protectionLevel x =>
    rcases List.mem_pair.mp hfield with rfl | rfl
    · exact isNumeralChar_of_all (hwords _ (by simp)) c hc
    · exact isNumeralChar_numberText hc

/-- The last part of a change that comes back is no empty text. -/
theorem exists_last_field {change : CellChange} (h : change.ReadsBack) :
    ∃ init last, change.fields = init ++ [last] ∧ last.toList ≠ [] := by
  have hnumber : ∀ {x : Float}, NumberReadsBack x → (numberText x).toList ≠ [] := by
    rintro x ⟨y, hread, -⟩ hnil
    rw [String.toList_eq_nil_iff.mp hnil] at hread
    exact absurd hread (by simp [show readFloat? "" = none from rfl])
  cases change with
  | status s => exact ⟨[], s.letter, rfl, by cases s <;> decide⟩
  | cost x => exact ⟨["c"], numberText x, rfl, hnumber h⟩
  | protectionLevel x => exact ⟨["pl"], numberText x, rfl, hnumber h⟩

/-- The line of a change that comes back ends in a letter, a digit or a point. -/
theorem getLast?_line {o : CellOverride} (h : o.change.ReadsBack) (separator : String) :
    ∃ c, (line separator o).toList.getLast? = some c ∧ IsNumeralChar c := by
  obtain ⟨init, last, hfields, hne⟩ := exists_last_field h
  have hline : last.toList <:+ (line separator o).toList := by
    rw [line, hfields, String.toList_intercalate, ← List.append_assoc, List.map_append]
    exact Text.suffix_intercalate _ _ _
  obtain ⟨before, hbefore⟩ := hline
  have hlast : last.toList.getLast hne ∈ last.toList := List.getLast_mem hne
  have hmem : last ∈ o.change.fields := hfields ▸ List.mem_append_right _ List.mem_cons_self
  refine ⟨last.toList.getLast hne, ?_, isNumeralChar_of_mem_fields hmem hlast⟩
  rw [← hbefore, List.getLast?_append_of_ne_nil _ hne, List.getLast?_eq_getLast_of_ne_nil hne]

theorem trim_line_ne_empty {o : CellOverride} (h : o.change.ReadsBack) (separator : String) :
    Text.trim (line separator o) ≠ "" := by
  obtain ⟨c, hlast, hc⟩ := getLast?_line h separator
  exact Text.trim_ne_empty (List.mem_of_getLast? hlast) (isBlank_of_isNumeralChar hc)

theorem feed_not_mem_line (hsep : IsSeparator sep) {o : CellOverride} (hcell : IsCell sep o.cell) :
    '\n' ∉ (line (String.singleton sep) o).toList := by
  intro hfeed
  rw [line, Text.toList_intercalate_singleton] at hfeed
  rcases Text.of_mem_intercalate hfeed with hfeed | ⟨part, hpart, hfeed⟩
  · exact hsep.ne_feed (List.mem_singleton.mp hfeed).symm
  · obtain ⟨field, hfield, rfl⟩ := List.mem_map.mp hpart
    rcases List.mem_append.mp hfield with hfield | hfield
    · exact hcell.feed_not_mem field hfield hfeed
    · exact absurd (isNumeralChar_of_mem_fields hfield hfeed) (by decide)

/-- The line of a change is read as the change. -/
theorem readLine_line (hsep : IsSeparator sep) {o : CellOverride} (hcell : IsCell sep o.cell)
    (h : o.change.ReadsBack) :
    ∃ p, readLine (String.singleton sep) (line (String.singleton sep) o) = .ok p ∧ p.Agrees o := by
  have hparts : ∀ field ∈ o.cell ++ o.change.fields, sep ∉ field.toList ∧ Text.IsTrimmed field := by
    intro field hfield
    rcases List.mem_append.mp hfield with hfield | hfield
    · exact ⟨hcell.sep_not_mem field hfield, hcell.trimmed field hfield⟩
    · exact ⟨fun hc => hsep.not_isNumeralChar (isNumeralChar_of_mem_fields hfield hc),
        Text.isTrimmed_of_not_isBlank fun c hc =>
          isBlank_of_isNumeralChar (isNumeralChar_of_mem_fields hfield hc)⟩
  have hsplit := Text.splitOnText_intercalate (fun field hfield => (hparts field hfield).1)
    (by simp [hcell.ne_nil])
  have htrim : (o.cell ++ o.change.fields).map Text.trim = o.cell ++ o.change.fields :=
    (List.map_congr_left fun field hfield => (hparts field hfield).2).trans (List.map_id _)
  rw [readLine, line, hsplit, htrim]
  exact readReversed_fields hcell.ne_nil h

/-- What a line is read as is about a cell that can be written again. -/
theorem isCell_of_readLine {line : String} (hfeed : '\n' ∉ line.toList) {o : CellOverride}
    (h : readLine (String.singleton sep) line = .ok o) : IsCell sep o.cell := by
  obtain ⟨hne, hcodes⟩ := cell_of_readReversed h
  have hcode : ∀ code ∈ o.cell, ∃ field ∈ Text.splitOnText (String.singleton sep) line,
      Text.trim field = code := by
    intro code hc
    exact List.mem_map.mp (List.mem_reverse.mp (hcodes code hc))
  refine ⟨hne, ?_, ?_, ?_⟩
  · intro code hc
    obtain ⟨field, -, rfl⟩ := hcode code hc
    exact Text.isTrimmed_trim field
  · intro code hc hmem
    obtain ⟨field, hfield, rfl⟩ := hcode code hc
    rw [Text.toList_trim] at hmem
    exact Text.not_mem_of_mem_splitOnText hfield (Text.of_mem_trimChars hmem)
  · intro code hc hmem
    obtain ⟨field, hfield, rfl⟩ := hcode code hc
    rw [Text.toList_trim] at hmem
    exact hfeed (Text.of_mem_splitOnText hfield (Text.of_mem_trimChars hmem))

/-! ## All lines -/

/-- A line that stops no reader: it is blank, or a change can be read from it. -/
def Readable (separator line : String) : Prop :=
  Text.trim line = "" ∨ ∃ o, readLine separator line = .ok o

theorem readLines_eq_readRows (separator : String) (rows : List (Nat × String)) :
    readLines separator rows =
      Text.readRows (readLine separator) .invalidOverride rows := by
  induction rows with
  | nil => rfl
  | cons row rows ih =>
    rw [readLines, Text.readRows, ih]
    cases readLine separator row.2 <;> rfl

/-- Where every line gives a change, the lines give all of them in order. -/
theorem readLines_of_forall₂ {separator : String} {rows : List (Nat × String)}
    {os : List CellOverride}
    (h : List.Forall₂ (fun line o => Text.trim line ≠ "" ∧
      ∃ p, readLine separator line = .ok p ∧ p.Agrees o) (rows.map Prod.snd) os) :
    ∃ ps, readLines separator rows = .ok ps ∧ List.Forall₂ CellOverride.Agrees ps os := by
  induction rows generalizing os with
  | nil =>
    cases h
    exact ⟨[], rfl, .nil⟩
  | cons row rows ih =>
    obtain _ | ⟨⟨hblank, p, hread, hagrees⟩, hrest⟩ := h
    obtain ⟨ps, hps, hall⟩ := ih hrest
    exact ⟨p :: ps, by simp [readLines, hblank, hread, hps, Except.map], .cons hagrees hall⟩

/-- Every change that is read stands in a line. -/
theorem exists_row_of_readLines {separator : String} : ∀ {rows : List (Nat × String)}
    {os : List CellOverride}, readLines separator rows = .ok os →
    ∀ o ∈ os, ∃ row ∈ rows, readLine separator row.2 = .ok o
  | [], os, h, o, ho => by
    cases h
    exact absurd ho (by simp)
  | (number, line) :: rows, os, h, o, ho => by
    rw [readLines] at h
    split at h
    · obtain ⟨row, hrow, hread⟩ := exists_row_of_readLines h o ho
      exact ⟨row, List.mem_cons_of_mem _ hrow, hread⟩
    · split at h
      · exact absurd h (by simp)
      · rename_i change hchange
        obtain ⟨more, hrest, rfl⟩ := Fault.map_eq_ok_iff.mp h
        rcases List.mem_cons.mp ho with rfl | ho
        · exact ⟨_, List.mem_cons_self, hchange⟩
        · obtain ⟨row, hrow, hread⟩ := exists_row_of_readLines hrest o ho
          exact ⟨row, List.mem_cons_of_mem _ hrow, hread⟩

/-- Among the lines, the first that stops a reader is the one behind `before`. -/
structure FirstFaulty (separator : String) (ls before : List String) (line : String)
    (defect : OverrideDefect) : Prop where
  stands : ∃ after, ls = before ++ line :: after
  readable_before : ∀ l ∈ before, Readable separator l
  not_blank : Text.trim line ≠ ""
  faulty : readLine separator line = .error defect

variable {separator : String} {ls : List String}

theorem FirstFaulty.iff_firstRefused {before : List String} {line : String}
    {defect : OverrideDefect} : FirstFaulty separator ls before line defect ↔
      Text.FirstRefused (readLine separator) ls before line defect :=
  ⟨fun h => ⟨h.stands, h.readable_before, h.not_blank, h.faulty⟩,
    fun h => ⟨h.stands, h.passes, h.not_blank, h.refused⟩⟩

/-- Lines are refused for the first one that stops a reader, and with its number. -/
theorem readLines_eq_error_iff (separator : String) (fault : Fault) (ls : List String)
    (start : Nat) :
    readLines separator ((ls.zipIdx start).map fun (line, index) => (index + 1, line)) =
        .error fault ↔
      ∃ before line defect, FirstFaulty separator ls before line defect ∧
        fault = .invalidOverride (start + before.length + 1) line defect := by
  simp only [FirstFaulty.iff_firstRefused, readLines_eq_readRows]
  exact Text.readRows_numberedFrom_eq_error_iff

/-- What is read from lines that were written is what they were written for. -/
theorem ofText_toText_agrees {sep : Char} (hsep : IsSeparator sep) {o : CellOverrides}
    (hseparator : o.separator = String.singleton sep)
    (hcells : ∀ c ∈ o.changes, IsCell sep c.cell) (hback : ∀ c ∈ o.changes, c.change.ReadsBack) :
    ∃ p, ofText o.toText (String.singleton sep) = .ok p ∧
      List.Forall₂ CellOverride.Agrees p.changes o.changes := by
  have hlines : Text.lines o.toText = o.changes.map (line (String.singleton sep)) := by
    rw [toText, hseparator]
    refine Text.lines_unlines fun l hl => ?_
    obtain ⟨c, hc, rfl⟩ := List.mem_map.mp hl
    obtain ⟨d, hlast, hd⟩ := getLast?_line (hback c hc) (String.singleton sep)
    refine ⟨feed_not_mem_line hsep (hcells c hc), fun hreturn => ?_⟩
    rw [hlast] at hreturn
    cases hreturn
    exact absurd hd (by decide)
  have hrows : List.Forall₂ (fun l c => Text.trim l ≠ "" ∧
      ∃ p, readLine (String.singleton sep) l = .ok p ∧ p.Agrees c)
      ((Text.numbered (Text.lines o.toText)).map Prod.snd) o.changes := by
    rw [Text.map_snd_numbered, hlines, List.forall₂_map_left_iff, List.forall₂_same]
    exact fun c hc => ⟨trim_line_ne_empty (hback c hc) _, readLine_line hsep (hcells c hc) (hback c hc)⟩
  obtain ⟨ps, hread, hagrees⟩ := readLines_of_forall₂ hrows
  exact ⟨{ empty (String.singleton sep) with changes := ps }, by rw [ofText, hread]; rfl, hagrees⟩

/-- What is read can be written again, if its numbers can. -/
theorem isCell_of_ofText {sep : Char} {text : String} {o : CellOverrides}
    (h : ofText text (String.singleton sep) = .ok o) :
    o.separator = String.singleton sep ∧ ∀ c ∈ o.changes, IsCell sep c.cell := by
  obtain ⟨changes, hread, rfl⟩ := Fault.map_eq_ok_iff.mp h
  refine ⟨rfl, fun c hc => ?_⟩
  obtain ⟨row, hrow, hline⟩ := exists_row_of_readLines hread c hc
  have hmem : row.2 ∈ (Text.numbered (Text.lines text)).map Prod.snd :=
    List.mem_map_of_mem hrow
  rw [Text.map_snd_numbered] at hmem
  exact isCell_of_readLine (Text.feed_not_mem_of_mem_lines hmem) hline

/-- **Reading and writing undo each other.** Changes whose cells can be cut apart again and whose
numbers come back are read as they were written, in order, whatever their codes look like. What is
read from any text is of that kind, so writing it and reading it again changes nothing. A text is
refused exactly for the first line that stops the reader, with its number counted from 1. -/
theorem ofText_faithful {sep : Char} (hsep : IsSeparator sep) :
    (∀ o : CellOverrides, o.separator = String.singleton sep →
      (∀ c ∈ o.changes, IsCell sep c.cell) → (∀ c ∈ o.changes, c.change.ReadsBack) →
      ∃ p, ofText o.toText (String.singleton sep) = .ok p ∧
        List.Forall₂ CellOverride.Agrees p.changes o.changes) ∧
    (∀ text o, ofText text (String.singleton sep) = .ok o →
      o.separator = String.singleton sep ∧ (∀ c ∈ o.changes, IsCell sep c.cell) ∧
      ((∀ c ∈ o.changes, c.change.ReadsBack) →
        ∃ p, ofText o.toText (String.singleton sep) = .ok p ∧
          List.Forall₂ CellOverride.Agrees p.changes o.changes)) ∧
    ∀ text fault, ofText text (String.singleton sep) = .error fault ↔
      ∃ before line defect,
        FirstFaulty (String.singleton sep) (Text.lines text) before line defect ∧
          fault = .invalidOverride (before.length + 1) line defect := by
  refine ⟨fun o => ofText_toText_agrees hsep, fun text o h => ?_, fun text fault => ?_⟩
  · obtain ⟨hseparator, hcells⟩ := isCell_of_ofText h
    exact ⟨hseparator, hcells, ofText_toText_agrees hsep hseparator hcells⟩
  · have hlines := readLines_eq_error_iff (String.singleton sep) fault (Text.lines text) 0
    simp only [Nat.zero_add] at hlines
    rw [ofText, Fault.map_eq_error_iff, Text.numbered]
    exact hlines

/-- Changes to cells whose codes look like letters, keywords and numbers. -/
def lookalikes : CellOverrides :=
  { empty ";" with
    changes := [⟨["s", "c", "", "5"], .status .guarded⟩, ⟨["pl"], .cost 12.5⟩,
      ⟨["A", "3"], .protectionLevel (0 / 0)⟩] }

theorem lookalikes_faithful :
    (∃ p, ofText lookalikes.toText (String.singleton ';') = .ok p ∧
      List.Forall₂ CellOverride.Agrees p.changes lookalikes.changes) ∧
    ofText "A;s\n\nA;x;5\n" (String.singleton ';') =
      .error (.invalidOverride 3 "A;x;5" .unknownKeyword) := by
  have hsep : IsSeparator ';' := ⟨by decide, by decide, by decide, by decide, by decide, by decide⟩
  have hcost : NumberReadsBack 12.5 := ⟨12.5, by decide +kernel, .inl (by decide +kernel)⟩
  have hlevel : NumberReadsBack (0 / 0) :=
    ⟨0 / 0, by decide +kernel, .inr ⟨by decide +kernel, by decide +kernel⟩⟩
  obtain ⟨hwritten, -, hrefused⟩ := ofText_faithful hsep
  refine ⟨hwritten lookalikes (by decide) ?_ ?_, (hrefused _ _).mpr ?_⟩
  · simp only [lookalikes, List.forall_mem_cons]
    exact ⟨by decide, by decide, by decide, by simp⟩
  · simp [lookalikes, CellChange.ReadsBack, hcost, hlevel]
  · have hfirst : Readable ";" "A;s" := .inr ⟨⟨["A"], .status .safe⟩, rfl⟩
    have hblank : Readable ";" "" := .inl rfl
    exact ⟨["A;s", ""], "A;x;5", .unknownKeyword,
      ⟨⟨[], by decide⟩, by simpa using ⟨hfirst, hblank⟩, by decide, rfl⟩, rfl⟩

end CellOverrides

end Disclosure
