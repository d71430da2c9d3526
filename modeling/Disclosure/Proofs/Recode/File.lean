import Disclosure.Proofs.Text.Numbered
import Disclosure.Proofs.Text.Split
import Disclosure.Recode.File

/-!
# What a recode file says

The first line that is not blank decides how all others are read. If it is the header, every line
behind it is a code, whatever the code looks like: another header, a group or a range. Otherwise every
line that is not blank has to be a group, and the first that is none is refused with its number.

What a line says is stated here for the line as it stands in the file. The reader trims a line before
it cuts it, which makes no difference, because neither a colon nor a comma nor a minus sign is blank.
-/

namespace Disclosure.RecodeFile

/-! ## What stands in a file -/

/-- The first line that is not blank is the header, and `rest` are the lines behind it. -/
def Headed (ls rest : List String) : Prop :=
  ∃ before header, ls = before ++ header :: rest ∧ (∀ l ∈ before, Text.trim l = "") ∧
    Text.trim header = treeRecodeHeader

/-- The first colon of a line stands between a group and its codes. -/
def Parted (line : String) (group codes : List Char) : Prop :=
  line.toList = group ++ ':' :: codes ∧ ':' ∉ group

/-- A line has a group in front of its colon and, behind it, a piece between commas that is not
blank. -/
def IsGroupLine (line : String) : Prop :=
  ∃ group codes, Parted line group codes ∧ Text.trimChars group ≠ [] ∧
    ∃ piece ∈ Text.piecesAt ',' codes, Text.trimChars piece ≠ []

/-- A piece is a range around its first minus sign, and a single code if it has none. -/
inductive ReadsAs (piece : List Char) : CodeInterval → Prop where
  | range {start stop : List Char} : piece = start ++ '-' :: stop → '-' ∉ start →
      ReadsAs piece ⟨String.ofList (Text.trimChars start), String.ofList (Text.trimChars stop)⟩
  | single : '-' ∉ piece → ReadsAs piece (.single (String.ofList (Text.trimChars piece)))

/-- What a line says: a group, and one range for each piece that is not blank. -/
def Says (line : String) (entry : String × List CodeInterval) : Prop :=
  ∃ group codes, Parted line group codes ∧ entry.1 = String.ofList (Text.trimChars group) ∧
    List.Forall₂ ReadsAs ((Text.piecesAt ',' codes).filter (Text.trimChars · != [])) entry.2

/-- What keeps a line from being one for a group. -/
inductive Lacks (line : String) : RecodeDefect → Prop where
  | colon : ':' ∉ line.toList → Lacks line .noColon
  | group {group codes : List Char} : Parted line group codes → Text.trimChars group = [] →
      Lacks line .noGroup
  | codes {group codes : List Char} : Parted line group codes → Text.trimChars group ≠ [] →
      (∀ piece ∈ Text.piecesAt ',' codes, Text.trimChars piece = []) → Lacks line .noCodes

/-- Among the lines, the first that is neither blank nor one for a group is the one behind
`before`. -/
structure FirstBad (ls before : List String) (line : String) (defect : RecodeDefect) : Prop where
  stands : ∃ after, ls = before ++ line :: after
  good_before : ∀ l ∈ before, Text.trim l = "" ∨ IsGroupLine l
  not_blank : Text.trim line ≠ ""
  not_group : ¬ IsGroupLine line
  lacks : Lacks line defect

variable {line : String} {group codes : List Char} {entry : String × List CodeInterval}
  {defect : RecodeDefect}

/-! ## Pieces -/

theorem readsAs_iff {piece : List Char} {i : CodeInterval} :
    ReadsAs piece i ↔ readInterval (Text.trimChars piece) = i := by
  have hminus : Text.isBlank '-' = false := by decide
  have hrange : ∀ {start stop : List Char}, piece = start ++ '-' :: stop → '-' ∉ start →
      readInterval (Text.trimChars piece) =
        ⟨String.ofList (Text.trimChars start), String.ofList (Text.trimChars stop)⟩ := by
    rintro start stop rfl hstart
    have hnone : '-' ∉ Text.trimStart start := fun hmem =>
      hstart ((List.dropWhile_sublist Text.isBlank).mem hmem)
    rw [Text.trimChars_append_cons hminus, readInterval, Text.cutAt?_append _ hnone]
    simp only [Text.trimChars_trimStart, Text.trimChars_trimEnd]
  have hsingle : '-' ∉ piece → readInterval (Text.trimChars piece) =
      .single (String.ofList (Text.trimChars piece)) := by
    intro hnone
    rw [readInterval, Text.cutAt?_eq_none_iff.mpr fun hmem => hnone (Text.of_mem_trimChars hmem)]
  constructor
  · rintro (⟨hpiece, hstart⟩ | hnone)
    · exact hrange hpiece hstart
    · exact hsingle hnone
  · rintro rfl
    by_cases hmem : '-' ∈ piece
    · obtain ⟨start, stop, hpiece, hstart⟩ := List.eq_append_cons_of_mem hmem
      rw [hrange hpiece hstart]
      exact .range hpiece hstart
    · rw [hsingle hmem]
      exact .single hmem

theorem forall₂_readsAs_iff {is : List CodeInterval} :
    List.Forall₂ ReadsAs ((Text.piecesAt ',' codes).filter (Text.trimChars · != [])) is ↔
      readIntervals codes = is := by
  have hreads : ReadsAs = fun piece i => readInterval (Text.trimChars piece) = i := by
    ext piece i
    exact readsAs_iff
  rw [hreads, ← List.forall₂_map_left_iff (f := fun piece => readInterval (Text.trimChars piece)),
    List.forall₂_eq_eq_eq, readIntervals, List.filter_map, List.map_map]
  rfl

theorem readIntervals_eq_nil_iff :
    readIntervals codes = [] ↔ ∀ piece ∈ Text.piecesAt ',' codes, Text.trimChars piece = [] := by
  simp [readIntervals, List.filter_eq_nil_iff]

theorem readIntervals_ne_nil_iff :
    readIntervals codes ≠ [] ↔ ∃ piece ∈ Text.piecesAt ',' codes, Text.trimChars piece ≠ [] := by
  rw [ne_eq, readIntervals_eq_nil_iff]
  push Not
  rfl

/-! ## Lines -/

theorem Parted.unique {group' codes' : List Char} (h : Parted line group codes)
    (h' : Parted line group' codes') : group = group' ∧ codes = codes' :=
  Text.append_sep_inj h.2 h'.2 (h.1.symm.trans h'.1)

theorem exists_parted (h : ':' ∈ line.toList) : ∃ group codes, Parted line group codes :=
  List.eq_append_cons_of_mem h

/-- Reads a line for a group as it stands in the file. -/
def readEntry (line : String) : Except RecodeDefect (String × List CodeInterval) :=
  readGroup (Text.trim line).toList

theorem readEntry_of_not_mem (h : ':' ∉ line.toList) : readEntry line = .error .noColon := by
  have hnone : ':' ∉ Text.trimChars line.toList := fun hmem => h (Text.of_mem_trimChars hmem)
  rw [readEntry, Text.toList_trim, readGroup, Text.cutAt?_eq_none_iff.mpr hnone]

/-- The reader takes a line apart at the same colon and the same commas as if it were not trimmed. -/
theorem Parted.readEntry_eq (h : Parted line group codes) : readEntry line =
    if Text.trimChars group = [] then .error .noGroup
    else if readIntervals codes = [] then .error .noCodes
    else .ok (String.ofList (Text.trimChars group), readIntervals codes) := by
  have hcolon : Text.isBlank ':' = false := by decide
  have hcomma : Text.isBlank ',' = false := by decide
  have hnone : ':' ∉ Text.trimStart group := fun hmem =>
    h.2 ((List.dropWhile_sublist Text.isBlank).mem hmem)
  have hcodes : readIntervals (Text.trimEnd codes) = readIntervals codes := by
    rw [readIntervals, readIntervals, Text.map_trimChars_piecesAt_trimEnd hcomma]
  rw [readEntry, Text.toList_trim, h.1, Text.trimChars_append_cons hcolon, readGroup,
    Text.cutAt?_append _ hnone]
  simp only [Text.trimChars_trimStart, hcodes]

theorem Parted.isGroupLine_iff (h : Parted line group codes) :
    IsGroupLine line ↔ Text.trimChars group ≠ [] ∧ readIntervals codes ≠ [] := by
  rw [readIntervals_ne_nil_iff]
  constructor
  · rintro ⟨_, _, h', hgroup⟩
    obtain ⟨rfl, rfl⟩ := h.unique h'
    exact hgroup
  · intro hgroup
    exact ⟨group, codes, h, hgroup⟩

theorem Parted.says_iff (h : Parted line group codes) : Says line entry ↔
    (String.ofList (Text.trimChars group), readIntervals codes) = entry := by
  constructor
  · rintro ⟨_, _, h', hgroup, hcodes⟩
    obtain ⟨rfl, rfl⟩ := h.unique h'
    rw [← hgroup, forall₂_readsAs_iff.mp hcodes]
  · rintro rfl
    exact ⟨group, codes, h, rfl, forall₂_readsAs_iff.mpr rfl⟩

/-- **A line is read if it is one for a group, and then as what it says.** -/
theorem readEntry_eq_ok_iff : readEntry line = .ok entry ↔ IsGroupLine line ∧ Says line entry := by
  by_cases hcolon : ':' ∈ line.toList
  · obtain ⟨group, codes, h⟩ := exists_parted hcolon
    rw [h.readEntry_eq, h.isGroupLine_iff, h.says_iff]
    by_cases hgroup : Text.trimChars group = []
    · simp [hgroup]
    · by_cases hcodes : readIntervals codes = []
      · simp [hgroup, hcodes]
      · simp [hgroup, hcodes]
  · rw [readEntry_of_not_mem hcolon]
    refine iff_of_false (by simp) ?_
    rintro ⟨-, group, codes, h, -⟩
    exact hcolon (by simp [h.1])

theorem Lacks.not_isGroupLine (h : Lacks line defect) : ¬ IsGroupLine line := by
  rintro ⟨group, codes, hparted, hgroup, piece, hpiece, hne⟩
  cases h with
  | colon hcolon => exact hcolon (by simp [hparted.1])
  | group h' hnone =>
    obtain ⟨rfl, -⟩ := hparted.unique h'
    exact hgroup hnone
  | codes h' _ hnone =>
    obtain ⟨-, rfl⟩ := hparted.unique h'
    exact hne (hnone piece hpiece)

/-- **A line is refused for what it lacks.** -/
theorem readEntry_eq_error_iff : readEntry line = .error defect ↔ Lacks line defect := by
  constructor
  · intro hread
    by_cases hcolon : ':' ∈ line.toList
    · obtain ⟨group, codes, h⟩ := exists_parted hcolon
      rw [h.readEntry_eq] at hread
      split at hread
      · rename_i hgroup
        cases hread
        exact .group h hgroup
      · rename_i hgroup
        split at hread
        · rename_i hcodes
          cases hread
          exact .codes h hgroup (readIntervals_eq_nil_iff.mp hcodes)
        · exact absurd hread (by simp)
    · rw [readEntry_of_not_mem hcolon] at hread
      cases hread
      exact .colon hcolon
  · intro h
    cases h with
    | colon hcolon => exact readEntry_of_not_mem hcolon
    | group h hgroup => rw [h.readEntry_eq, if_pos hgroup]
    | codes h hgroup hcodes =>
      rw [h.readEntry_eq, if_neg hgroup, if_pos (readIntervals_eq_nil_iff.mpr hcodes)]

theorem exists_readEntry_eq_ok_iff : (∃ entry, readEntry line = .ok entry) ↔ IsGroupLine line := by
  constructor
  · rintro ⟨entry, hread⟩
    exact (readEntry_eq_ok_iff.mp hread).1
  · intro h
    obtain ⟨group, codes, hparted, -⟩ := id h
    exact ⟨_, readEntry_eq_ok_iff.mpr ⟨h, hparted.says_iff.mpr rfl⟩⟩

instance (line : String) : Decidable (IsGroupLine line) :=
  decidable_of_iff ((readEntry line).toOption.isSome = true) <| by
    rw [← exists_readEntry_eq_ok_iff]
    cases readEntry line <;> simp [Except.toOption]

/-! ## All lines -/

theorem readGroups_eq_readRows (rows : List (Nat × String)) : readGroups rows =
    Text.readRows readEntry (fun number line => .invalidRecode number (Text.trim line)) rows := by
  induction rows with
  | nil => rfl
  | cons row rows ih =>
    rw [readGroups, Text.readRows, ih, readEntry]
    cases readGroup (Text.trim row.2).toList <;> rfl

theorem firstBad_iff_firstRefused {ls before : List String} : FirstBad ls before line defect ↔
    Text.FirstRefused readEntry ls before line defect := by
  have hpasses : ∀ l, Text.Passes readEntry l ↔ Text.trim l = "" ∨ IsGroupLine l := fun l =>
    or_congr_right exists_readEntry_eq_ok_iff
  constructor
  · intro h
    exact ⟨h.stands, fun l hl => (hpasses l).mpr (h.good_before l hl), h.not_blank,
      readEntry_eq_error_iff.mpr h.lacks⟩
  · intro h
    have hlacks := readEntry_eq_error_iff.mp h.refused
    exact ⟨h.stands, fun l hl => (hpasses l).mp (h.passes l hl), h.not_blank,
      hlacks.not_isGroupLine, hlacks⟩

theorem readGroups_numbered_eq_ok_iff {ls : List String} {groups : CodeGroups} :
    readGroups (Text.numbered ls) = .ok groups ↔
      (∀ line ∈ ls, Text.trim line ≠ "" → IsGroupLine line) ∧
        List.Forall₂ Says (ls.filter (Text.trim · != "")) groups := by
  have hread : (fun line entry => readEntry line = .ok entry) =
      fun line entry => IsGroupLine line ∧ Says line entry := by
    ext line entry
    exact readEntry_eq_ok_iff
  rw [readGroups_eq_readRows, Text.readRows_eq_ok_iff, Text.map_snd_numbered, hread,
    List.forall₂_and_left]
  simp

theorem readGroups_numbered_eq_error_iff {ls : List String} {fault : Fault} :
    readGroups (Text.numbered ls) = .error fault ↔ ∃ before line defect,
      FirstBad ls before line defect ∧
        fault = .invalidRecode (before.length + 1) (Text.trim line) defect := by
  rw [readGroups_eq_readRows]
  refine Text.readRows_numberedFrom_eq_error_iff.trans ?_
  simp only [firstBad_iff_firstRefused, Nat.zero_add]

theorem exists_readGroups_numbered_eq_ok_iff {ls : List String} :
    (∃ groups, readGroups (Text.numbered ls) = .ok groups) ↔
      ∀ line ∈ ls, Text.trim line ≠ "" → IsGroupLine line := by
  cases hread : readGroups (Text.numbered ls) with
  | ok groups =>
    exact iff_of_true ⟨groups, rfl⟩ (readGroups_numbered_eq_ok_iff.mp hread).1
  | error fault =>
    obtain ⟨before, line, defect, hbad, -⟩ := readGroups_numbered_eq_error_iff.mp hread
    obtain ⟨after, rfl⟩ := hbad.stands
    refine iff_of_false (by simp) fun hall => ?_
    exact hbad.not_group (hall line (by simp) hbad.not_blank)

/-! ## The header -/

/-- Behind the header come the codes. -/
theorem filter_map_trim_eq_cons_iff {ls codes : List String} :
    (ls.map Text.trim).filter (· != "") = treeRecodeHeader :: codes ↔
      ∃ rest, Headed ls rest ∧ codes = (rest.map Text.trim).filter (· != "") := by
  rw [List.filter_map, List.map_eq_cons_iff]
  constructor
  · rintro ⟨header, more, hfilter, hheader, rfl⟩
    obtain ⟨before, rest, rfl, hbefore, -, rfl⟩ := List.filter_eq_cons_iff.mp hfilter
    refine ⟨rest, ⟨before, header, rfl, by simpa using hbefore, hheader⟩, ?_⟩
    rw [List.filter_map]
  · rintro ⟨rest, ⟨before, header, rfl, hbefore, hheader⟩, rfl⟩
    refine ⟨header, _, List.filter_eq_cons_iff.mpr ⟨before, rest, rfl, ?_, ?_, rfl⟩, hheader, ?_⟩
    · simpa using hbefore
    · simp [hheader, treeRecodeHeader]
    · rw [List.filter_map]

theorem exists_headed_iff {ls : List String} : (∃ rest, Headed ls rest) ↔
    ((ls.map Text.trim).filter (· != "")).head? = some treeRecodeHeader := by
  rw [List.head?_eq_some_iff]
  simp only [filter_map_trim_eq_cons_iff]
  constructor
  · rintro ⟨rest, h⟩
    exact ⟨_, rest, h, rfl⟩
  · rintro ⟨_, rest, h, -⟩
    exact ⟨rest, h⟩

instance (ls : List String) : Decidable (∃ rest, Headed ls rest) :=
  decidable_of_iff' _ exists_headed_iff

theorem ofText_of_headed {text : String} {rest : List String}
    (h : Headed (Text.lines text) rest) :
    ofText text = .ok (.tree (.ofCodes ((rest.map Text.trim).filter (· != "")))) := by
  have hlines := filter_map_trim_eq_cons_iff.mpr ⟨rest, h, rfl⟩
  simp only [ofText, hlines, if_pos]
  rfl

theorem ofText_of_not_headed {text : String} (h : ∀ rest, ¬ Headed (Text.lines text) rest) :
    ofText text = (readGroups (Text.numbered (Text.lines text))).map .intervals := by
  rw [ofText]
  split
  · rename_i hblank
    have hnone : (Text.lines text).filter (Text.trim · != "") = [] := by
      rw [List.filter_map, List.map_eq_nil_iff] at hblank
      exact hblank
    have hread : readGroups (Text.numbered (Text.lines text)) = .ok [] := by
      refine readGroups_numbered_eq_ok_iff.mpr ⟨?_, hnone ▸ .nil⟩
      intro line hline hblank
      exact absurd (List.filter_eq_nil_iff.mp hnone line hline) (by simpa using hblank)
    rw [hread]
    rfl
  · rename_i first codes hlines
    rw [if_neg]
    rintro rfl
    obtain ⟨rest, hheaded, -⟩ := filter_map_trim_eq_cons_iff.mp hlines
    exact h rest hheaded

/-- Codes come back as they were, whatever they look like and however they are lined up. -/
theorem ofText_toText {codes : List String}
    (hcodes : ∀ code ∈ codes, code ≠ "" ∧ Text.IsTrimmed code ∧ '\n' ∉ code.toList)
    (width : Nat) :
    ofText ((TreeRecode.ofCodes codes).toText width) = .ok (.tree (.ofCodes codes)) := by
  have hlines : Text.lines ((TreeRecode.ofCodes codes).toText width) =
      treeRecodeHeader :: codes.map (Text.justifyRight width) := by
    refine Text.lines_unlines (List.forall_mem_cons.mpr ⟨by decide, ?_⟩)
    intro l hl
    obtain ⟨code, hcode, rfl⟩ := List.mem_map.mp hl
    obtain ⟨hne, htrimmed, hfeed⟩ := hcodes code hcode
    exact Text.justifyRight_isLine hne htrimmed hfeed width
  have hheaded : Headed (Text.lines ((TreeRecode.ofCodes codes).toText width))
      (codes.map (Text.justifyRight width)) :=
    ⟨[], treeRecodeHeader, hlines, by simp, by decide⟩
  have hback : (codes.map (Text.justifyRight width)).map Text.trim = codes := by
    rw [List.map_map]
    exact (List.map_congr_left fun code hcode =>
      Text.trim_justifyRight width (hcodes code hcode).2.1).trans (List.map_id _)
  have hall : codes.filter (· != "") = codes :=
    List.filter_eq_self.mpr fun code hcode => bne_iff_ne.mpr (hcodes code hcode).1
  rw [ofText_of_headed hheaded, hback, hall]

/-- **What a recode file says.** It lists kept codes exactly if its first line that is not blank is
the header, and they are the lines behind it that are not blank, trimmed and in order. Otherwise it
has groups exactly if every line that is not blank is one for a group; the first that is none is
refused with its number among all lines, counted from 1, and for what it lacks. Kept codes that are
written, lined up to any width, are read as they were. -/
theorem ofText_exact (text : String) :
    (∀ recode, ofText text = .ok (.tree recode) ↔ ∃ rest, Headed (Text.lines text) rest ∧
      recode = .ofCodes ((rest.map Text.trim).filter (· != ""))) ∧
    ((∀ rest, ¬ Headed (Text.lines text) rest) →
      ((∃ groups, ofText text = .ok (.intervals groups)) ↔
        ∀ line ∈ Text.lines text, Text.trim line ≠ "" → IsGroupLine line) ∧
      (∀ groups, ofText text = .ok (.intervals groups) →
        List.Forall₂ Says ((Text.lines text).filter (Text.trim · != "")) groups) ∧
      ∀ fault, ofText text = .error fault ↔ ∃ before line defect,
        FirstBad (Text.lines text) before line defect ∧
          fault = .invalidRecode (before.length + 1) (Text.trim line) defect) ∧
    ∀ codes : List String,
      (∀ code ∈ codes, code ≠ "" ∧ Text.IsTrimmed code ∧ '\n' ∉ code.toList) → ∀ width,
      ofText ((TreeRecode.ofCodes codes).toText width) = .ok (.tree (.ofCodes codes)) := by
  refine ⟨?_, ?_, fun codes hcodes width => ofText_toText hcodes width⟩
  · intro recode
    constructor
    · intro hread
      by_cases h : ∃ rest, Headed (Text.lines text) rest
      · obtain ⟨rest, hheaded⟩ := h
        rw [ofText_of_headed hheaded] at hread
        cases hread
        exact ⟨rest, hheaded, rfl⟩
      · rw [ofText_of_not_headed (not_exists.mp h)] at hread
        obtain ⟨groups, -, hgroups⟩ := Fault.map_eq_ok_iff.mp hread
        cases hgroups
    · rintro ⟨rest, hheaded, rfl⟩
      exact ofText_of_headed hheaded
  · intro h
    rw [ofText_of_not_headed h]
    simp only [Fault.map_eq_ok_iff, Fault.map_eq_error_iff, RecodeFile.intervals.injEq,
      exists_eq_right]
    refine ⟨exists_readGroups_numbered_eq_ok_iff, ?_, ?_⟩
    · intro groups hread
      exact (readGroups_numbered_eq_ok_iff.mp hread).2
    · intro fault
      exact readGroups_numbered_eq_error_iff

/-- Codes that look like a header, a group, a line with two colons and a range. -/
def lookalikeCodes : List String :=
  ["<TREERECODE>", "1: 100-199", "a:b:", "-"]

/-- The codes behind their own header and behind another; groups with a blank piece and a range that
is open; and a third line with nothing in front of its first colon. -/
theorem lookalikeCodes_exact :
    ofText ((TreeRecode.ofCodes lookalikeCodes).toText 12) = .ok (.tree (.ofCodes lookalikeCodes)) ∧
      ofText " \n\n <TREERECODE>\r\n\n 21\n1: 5" = .ok (.tree (.ofCodes ["21", "1: 5"])) ∧
      (∃ groups, ofText " 23 : 200 - 299,, 300\n\na:b:-" = .ok (.intervals groups)) ∧
      List.Forall₂ Says [" 23 : 200 - 299,, 300", "a:b:-"]
        [("23", [⟨"200", "299"⟩, .single "300"]), ("a", [⟨"b:", ""⟩])] ∧
      ofText "1: 100-199\n\n :a: 5\nnonsense" = .error (.invalidRecode 3 ":a: 5" .noGroup) := by
  have hgroups : ∀ rest, ¬ Headed (Text.lines " 23 : 200 - 299,, 300\n\na:b:-") rest :=
    not_exists.mp (by decide)
  have hbad : ∀ rest, ¬ Headed (Text.lines "1: 100-199\n\n :a: 5\nnonsense") rest :=
    not_exists.mp (by decide)
  refine ⟨(ofText_exact "").2.2 lookalikeCodes (by decide) 12, ?_, ?_, ?_, ?_⟩
  · refine ((ofText_exact _).1 _).mpr ⟨["", " 21", "1: 5"], ?_, by decide⟩
    exact ⟨[" ", ""], " <TREERECODE>", by decide, by decide, by decide⟩
  · exact ((ofText_exact _).2.1 hgroups).1.mpr (by decide)
  · exact ((ofText_exact _).2.1 hgroups).2.1 _ rfl
  · refine (((ofText_exact _).2.1 hbad).2.2 _).mpr
      ⟨["1: 100-199", ""], " :a: 5", .noGroup, ?_, rfl⟩
    have hparted : Parted " :a: 5" [' '] "a: 5".toList := ⟨by decide, by decide⟩
    exact ⟨⟨["nonsense"], by decide⟩, by decide, by decide, by decide, .group hparted (by decide)⟩

end Disclosure.RecodeFile
