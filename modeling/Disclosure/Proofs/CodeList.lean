import Disclosure.CodeList
import Disclosure.Proofs.Csv
import Disclosure.Proofs.Fault
import Disclosure.Proofs.FileSystem
import Disclosure.Proofs.Text.Line
import Mathlib.Data.Nat.Find
import Mathlib.Order.Bounds.Basic

/-!
# Code lists put together, written and read

Every code of a list stands once, and the codes stand in the order in which they came in. A code that
was taken out and put in again comes in anew, so what counts is the first time since it was last
taken out.

The file of a list is read as the list again. Labels and codes may have any marks in them; a code has
to be trimmed, because the reader trims, and it must not be empty, because the reader leaves out
records without a code.
-/

namespace Disclosure.CodeList

/-- The codes in order. -/
def codes (l : CodeList) : List String :=
  l.entries.map Prod.fst

/-! ## Edits -/

/-- One change to a code list. -/
inductive Edit where
  | insert (code label : String)
  | remove (code : String)
  deriving DecidableEq, Repr

/-- The code lists that edits lead to, with all edits since the list began. -/
inductive Reachable : List Edit → CodeList → Prop where
  | empty : Reachable [] empty
  | insert {history : List Edit} {l : CodeList} (code label : String) :
      Reachable history l → Reachable (history ++ [.insert code label]) (l.insert code label)
  | remove {history : List Edit} {l : CodeList} (code : String) :
      Reachable history l → Reachable (history ++ [.remove code]) (l.remove code)
  | ofPairs (pairs : List (String × String)) :
      Reachable (pairs.map fun (code, label) => .insert code label) (ofPairs pairs)

/-- The edit at place `n` put the code in, and it was not taken out later. -/
def InsertedSince (history : List Edit) (code : String) (n : Nat) : Prop :=
  (∃ label, history[n]? = some (.insert code label)) ∧
    ∀ m, n < m → history[m]? ≠ some (.remove code)

/-- The edit at place `n` was the first to put the code in since it was last taken out. -/
def CameIn (history : List Edit) (code : String) (n : Nat) : Prop :=
  IsLeast {n | InsertedSince history code n} n

/-- One code came in before another. -/
def CameBefore (history : List Edit) (code other : String) : Prop :=
  ∃ n m, CameIn history code n ∧ CameIn history other m ∧ n < m

/-- The list has each code that came in and was not taken out, once and in order. -/
structure Follows (history : List Edit) (codes : List String) : Prop where
  nodup : codes.Nodup
  mem_iff : ∀ code, code ∈ codes ↔ ∃ n, InsertedSince history code n
  ordered : codes.Pairwise (CameBefore history)

variable {history : List Edit} {code other label : String} {n : Nat}

theorem InsertedSince.lt_length (h : InsertedSince history code n) : n < history.length := by
  obtain ⟨⟨label, hat⟩, -⟩ := h
  exact (List.getElem?_eq_some_iff.mp hat).1

/-- One more edit leaves an insertion as it was, unless it takes the code out. -/
theorem insertedSince_append_iff {e : Edit} (hn : n < history.length) :
    InsertedSince (history ++ [e]) code n ↔ InsertedSince history code n ∧ e ≠ .remove code := by
  constructor
  · rintro ⟨⟨label, hat⟩, hlater⟩
    rw [List.getElem?_append_left hn] at hat
    refine ⟨⟨⟨label, hat⟩, fun m hm hremove => ?_⟩, fun he => ?_⟩
    · have hlt : m < history.length := (List.getElem?_eq_some_iff.mp hremove).1
      exact hlater m hm (by rwa [List.getElem?_append_left hlt])
    · exact hlater history.length hn (by simp [he])
  · rintro ⟨⟨⟨label, hat⟩, hlater⟩, he⟩
    refine ⟨⟨label, by rwa [List.getElem?_append_left hn]⟩, fun m hm hremove => ?_⟩
    rcases Nat.lt_trichotomy m history.length with hlt | rfl | hgt
    · exact hlater m hm (by rwa [List.getElem?_append_left hlt] at hremove)
    · rw [List.getElem?_concat_length] at hremove
      exact he (Option.some.inj hremove)
    · rw [List.getElem?_eq_none (by simp; omega)] at hremove
      exact absurd hremove (by simp)

/-- The last edit puts in the code that it names. -/
theorem insertedSince_length_iff {e : Edit} :
    InsertedSince (history ++ [e]) code history.length ↔ ∃ label, e = .insert code label := by
  rw [InsertedSince, List.getElem?_concat_length]
  constructor
  · rintro ⟨⟨label, hat⟩, -⟩
    exact ⟨label, Option.some.inj hat⟩
  · rintro ⟨label, rfl⟩
    refine ⟨⟨label, rfl⟩, fun m hm => ?_⟩
    rw [List.getElem?_eq_none (by simp; omega)]
    simp

/-- After one more edit, a code is in since the same places as before and perhaps since the last. -/
theorem insertedSince_concat_iff {e : Edit} :
    InsertedSince (history ++ [e]) code n ↔
      (InsertedSince history code n ∧ e ≠ .remove code) ∨
        (n = history.length ∧ ∃ label, e = .insert code label) := by
  constructor
  · intro h
    have hlt := h.lt_length
    rw [List.length_append, List.length_singleton] at hlt
    rcases Nat.lt_or_eq_of_le (Nat.le_of_lt_succ hlt) with hn | rfl
    · exact .inl ((insertedSince_append_iff hn).mp h)
    · exact .inr ⟨rfl, insertedSince_length_iff.mp h⟩
  · rintro (⟨h, he⟩ | ⟨rfl, h⟩)
    · exact (insertedSince_append_iff h.lt_length).mpr ⟨h, he⟩
    · exact insertedSince_length_iff.mpr h

/-- A code that is in stays where it came in, until it is taken out. -/
theorem CameIn.append {e : Edit} (h : CameIn history code n) (he : e ≠ .remove code) :
    CameIn (history ++ [e]) code n := by
  refine ⟨insertedSince_concat_iff.mpr (.inl ⟨h.1, he⟩), fun m hm => ?_⟩
  rcases insertedSince_concat_iff.mp hm with ⟨hm, -⟩ | ⟨rfl, -⟩
  · exact h.2 hm
  · exact Nat.le_of_lt h.1.lt_length

theorem CameBefore.append {e : Edit} (h : CameBefore history code other)
    (hcode : e ≠ .remove code) (hother : e ≠ .remove other) :
    CameBefore (history ++ [e]) code other := by
  obtain ⟨n, m, hn, hm, hlt⟩ := h
  exact ⟨n, m, hn.append hcode, hm.append hother, hlt⟩

theorem exists_cameIn (h : ∃ n, InsertedSince history code n) : ∃ n, CameIn history code n := by
  classical
  exact ⟨Nat.find h, Nat.find_spec h, fun m hm => Nat.find_min' h hm⟩

/-- A code that is not in comes in with the edit that puts it in. -/
theorem cameIn_length (hnew : ¬ ∃ n, InsertedSince history code n) :
    CameIn (history ++ [.insert code label]) code history.length := by
  refine ⟨insertedSince_length_iff.mpr ⟨label, rfl⟩, fun m hm => ?_⟩
  rcases insertedSince_concat_iff.mp hm with ⟨hm, -⟩ | ⟨rfl, -⟩
  · exact absurd ⟨m, hm⟩ hnew
  · exact Nat.le_refl _

/-! ## What an edit does to the codes -/

theorem codes_put (code label : String) : ∀ entries : List (String × String),
    (insert.put code label entries).map Prod.fst =
      if code ∈ entries.map Prod.fst then entries.map Prod.fst
      else entries.map Prod.fst ++ [code]
  | [] => by simp [insert.put]
  | (other, old) :: rest => by
    rw [insert.put]
    split
    · rename_i hother
      simp [hother]
    · rename_i hother
      rw [List.map_cons, codes_put code label rest]
      by_cases hrest : code ∈ rest.map Prod.fst
      · simp [hrest]
      · have hne : ¬ code = other := fun h => hother h.symm
        simp only [List.map_cons, List.mem_cons, hne, false_or, if_neg hrest, List.cons_append]

/-- Putting a code in leaves the codes alone if it is there, and adds it at the end if not. -/
theorem codes_insert (l : CodeList) (code label : String) :
    (l.insert code label).codes = if code ∈ l.codes then l.codes else l.codes ++ [code] :=
  codes_put code label l.entries

theorem codes_remove (l : CodeList) (code : String) : (l.remove code).codes = l.codes.erase code := by
  have hpred : (fun (entry : String × String) => decide (entry.1 = code)) =
      (code == ·) ∘ Prod.fst := by
    funext entry
    rw [Bool.eq_iff_iff, decide_eq_true_iff, Function.comp_apply, beq_iff_eq]
    exact eq_comm
  rw [codes, remove, codes, List.erase_eq_eraseP, List.eraseP_map, ← hpred]

theorem exists_insertedSince_insert_iff :
    (∃ n, InsertedSince (history ++ [.insert code label]) other n) ↔
      (∃ n, InsertedSince history other n) ∨ other = code := by
  constructor
  · rintro ⟨n, h⟩
    rcases insertedSince_concat_iff.mp h with ⟨h, -⟩ | ⟨-, label', heq⟩
    · exact .inl ⟨n, h⟩
    · cases heq
      exact .inr rfl
  · rintro (⟨n, h⟩ | rfl)
    · exact ⟨n, insertedSince_concat_iff.mpr (.inl ⟨h, by simp⟩)⟩
    · exact ⟨history.length, insertedSince_length_iff.mpr ⟨label, rfl⟩⟩

theorem exists_insertedSince_remove_iff :
    (∃ n, InsertedSince (history ++ [.remove code]) other n) ↔
      (∃ n, InsertedSince history other n) ∧ other ≠ code := by
  constructor
  · rintro ⟨n, h⟩
    rcases insertedSince_concat_iff.mp h with ⟨h, hne⟩ | ⟨-, label', heq⟩
    · exact ⟨⟨n, h⟩, fun heq => hne (congrArg Edit.remove heq.symm)⟩
    · cases heq
  · rintro ⟨⟨n, h⟩, hne⟩
    refine ⟨n, insertedSince_concat_iff.mpr (.inl ⟨h, fun heq => hne ?_⟩)⟩
    cases heq
    rfl

/-! ## The codes follow the edits -/

variable {entered : List String}

theorem follows_nil : Follows [] [] :=
  ⟨.nil, fun code => by simp [InsertedSince], .nil⟩

theorem Follows.insert (h : Follows history entered) (code label : String) :
    Follows (history ++ [.insert code label])
      (if code ∈ entered then entered else entered ++ [code]) := by
  have hordered : entered.Pairwise (CameBefore (history ++ [.insert code label])) :=
    h.ordered.imp fun hbefore => hbefore.append (by simp) (by simp)
  split
  · rename_i hcode
    refine ⟨h.nodup, fun other => ?_, hordered⟩
    rw [exists_insertedSince_insert_iff, ← h.mem_iff]
    exact ⟨.inl, fun hother => hother.elim id fun heq => heq ▸ hcode⟩
  · rename_i hcode
    refine ⟨?_, fun other => ?_, ?_⟩
    · exact List.nodup_append.mpr ⟨h.nodup, by simp, by
        rintro a ha b hb rfl
        exact hcode (List.mem_singleton.mp hb ▸ ha)⟩
    · rw [exists_insertedSince_insert_iff, ← h.mem_iff, List.mem_append, List.mem_singleton]
    · -- every code that was in before came in before this edit
      refine List.pairwise_append.mpr ⟨hordered, by simp, fun other hother new hnew => ?_⟩
      rw [List.mem_singleton.mp hnew]
      obtain ⟨n, hn⟩ := exists_cameIn ((h.mem_iff other).mp hother)
      exact ⟨n, history.length, hn.append (by simp),
        cameIn_length fun hin => hcode ((h.mem_iff code).mpr hin), hn.1.lt_length⟩

theorem Follows.remove (h : Follows history entered) (code : String) :
    Follows (history ++ [.remove code]) (entered.erase code) := by
  refine ⟨h.nodup.erase code, fun other => ?_, ?_⟩
  · rw [exists_insertedSince_remove_iff, ← h.mem_iff, h.nodup.mem_erase_iff]
    exact and_comm
  · refine (h.ordered.sublist List.erase_sublist).imp_of_mem fun {a b} ha hb hbefore => ?_
    have hne : ∀ c ∈ entered.erase code, (Edit.remove code) ≠ .remove c := by
      rintro c hc heq
      cases heq
      exact (h.nodup.mem_erase_iff.mp hc).1 rfl
    exact hbefore.append (hne a ha) (hne b hb)

theorem follows_foldl_insert (pairs : List (String × String)) : ∀ {history : List Edit}
    {l : CodeList}, Follows history l.codes →
    Follows (history ++ pairs.map fun (code, label) => .insert code label)
      (pairs.foldl (fun l (code, label) => l.insert code label) l).codes := by
  induction pairs with
  | nil =>
    intro history l h
    simpa using h
  | cons pair pairs ih =>
    intro history l h
    obtain ⟨code, label⟩ := pair
    have hnext := h.insert code label
    rw [← codes_insert] at hnext
    rw [List.map_cons, List.append_cons, List.foldl_cons]
    exact ih hnext

/-- The codes of a list are those that came in, each once and in order. -/
theorem Reachable.follows {l : CodeList} (h : Reachable history l) : Follows history l.codes := by
  induction h with
  | empty => exact follows_nil
  | insert code label _ ih =>
    rw [codes_insert]
    exact ih.insert code label
  | remove code _ ih =>
    rw [codes_remove]
    exact ih.remove code
  | ofPairs pairs => exact follows_foldl_insert pairs (l := CodeList.empty) follows_nil

/-! ## The file -/

theorem records_toText (l : CodeList) (width : Nat) :
    Csv.records Csv.commas (l.toText width).toList =
      l.entries.map fun (code, label) => [(Text.justifyRight width code).toList, label.toList] := by
  rw [toText, String.toList_ofList, Csv.records]
  induction l.entries with
  | nil => rfl
  | cons entry entries ih =>
    obtain ⟨code, label⟩ := entry
    rw [List.flatMap_cons, List.map_cons, ← ih]
    dsimp only [line]
    rw [List.append_assoc, List.cons_append, List.append_assoc, List.singleton_append]
    exact Csv.recordsFrom_pair Csv.commas_distinct _ _ _

theorem dropMark_of_head? {cs : List Char} (h : cs.head? ≠ some '\uFEFF') : dropMark cs = cs := by
  cases cs with
  | nil => rfl
  | cons c cs =>
    rw [dropMark]
    rintro rest heq
    cases heq
    exact h rfl

/-- A record begins with a quote, with a blank or like its code. -/
theorem head?_line {code : String} (hne : code ≠ "") (hmark : code.toList.head? ≠ some '\uFEFF')
    (width : Nat) (label : String) (rest : List Char) :
    (line width code label ++ rest).head? ≠ some '\uFEFF' := by
  obtain ⟨c, cs, hcode⟩ : ∃ c cs, code.toList = c :: cs :=
    List.exists_cons_of_ne_nil (Text.toList_ne_nil hne)
  rw [hcode, List.head?_cons] at hmark
  rw [line, Csv.written, Text.toList_justifyRight, hcode]
  split
  · simp [Csv.quoted, Csv.commas]
  · cases hwidth : width - code.length with
    | zero => simpa using hmark
    | succ padding => simp [List.replicate_succ]

theorem head?_toText {l : CodeList} (hne : ∀ code ∈ l.codes, code ≠ "")
    (hmark : ∀ code, l.codes.head? = some code → code.toList.head? ≠ some '\uFEFF') (width : Nat) :
    (l.toText width).toList.head? ≠ some '\uFEFF' := by
  rw [toText, String.toList_ofList]
  cases hentries : l.entries with
  | nil => simp
  | cons entry entries =>
    obtain ⟨code, label⟩ := entry
    have hcodes : l.codes = code :: entries.map Prod.fst := by rw [codes, hentries]; rfl
    rw [List.flatMap_cons]
    exact head?_line (hne code (by simp [hcodes])) (hmark code (by simp [hcodes])) width label _

theorem put_of_not_mem (code label : String) : ∀ {entries : List (String × String)},
    code ∉ entries.map Prod.fst → insert.put code label entries = entries ++ [(code, label)]
  | [], _ => rfl
  | (other, old) :: rest, h => by
    rw [List.map_cons, List.mem_cons, not_or] at h
    rw [insert.put, if_neg (Ne.symm h.1), put_of_not_mem code label h.2]
    rfl

theorem addRecord_pair (l : CodeList) (width : Nat) {code : String} (label : String)
    (hne : code ≠ "") (htrimmed : Text.IsTrimmed code) :
    l.addRecord [(Text.justifyRight width code).toList, label.toList] = l.insert code label := by
  have hcode : Text.trimChars (Text.justifyRight width code).toList = code.toList := by
    rw [Text.toList_justifyRight, Text.trimChars_replicate_append, htrimmed.trimChars_eq]
  have hnil := Text.toList_ne_nil hne
  simp only [addRecord, List.head?_cons, Option.getD_some, hcode, if_neg hnil,
    List.getElem?_cons_succ, List.getElem?_cons_zero, String.ofList_toList]

/-- Records of codes that are not there yet are put in one behind the other. -/
theorem entries_foldl_addRecord (width : Nat) : ∀ {entries : List (String × String)} {l : CodeList},
    (∀ code ∈ entries.map Prod.fst, code ≠ "" ∧ Text.IsTrimmed code) →
    ((l.entries ++ entries).map Prod.fst).Nodup →
    ((entries.map fun (code, label) =>
        [(Text.justifyRight width code).toList, label.toList]).foldl addRecord l).entries =
      l.entries ++ entries
  | [], l, _, _ => by simp
  | (code, label) :: entries, l, hcodes, hnodup => by
    rw [List.map_cons, List.forall_mem_cons] at hcodes
    have hnew : code ∉ l.entries.map Prod.fst := by
      rw [List.map_append, List.nodup_append] at hnodup
      exact fun hin => hnodup.2.2 code hin code (by simp) rfl
    have hinsert : (l.insert code label).entries = l.entries ++ [(code, label)] :=
      put_of_not_mem code label hnew
    rw [List.map_cons, List.foldl_cons, addRecord_pair l width label hcodes.1.1 hcodes.1.2,
      entries_foldl_addRecord width hcodes.2 (by rwa [hinsert, List.append_assoc]), hinsert,
      List.append_assoc]
    rfl

/-- A list of codes that the reader does not change comes back from its file. -/
theorem entries_ofText_toText {l : CodeList} (hnodup : l.codes.Nodup)
    (hcodes : ∀ code ∈ l.codes, code ≠ "" ∧ Text.IsTrimmed code)
    (hmark : ∀ code, l.codes.head? = some code → code.toList.head? ≠ some '\uFEFF') (width : Nat) :
    (ofText (l.toText width)).entries = l.entries := by
  rw [ofText, dropMark_of_head? (head?_toText (fun code hc => (hcodes code hc).1) hmark width),
    records_toText]
  exact entries_foldl_addRecord (l := empty) width hcodes hnodup

/-- **Code lists keep their order and come back from their files.** A list that edits lead to has
each code once, and those it has are those that came in since they were last taken out, in the order
in which they did. If its codes are trimmed and not empty and no byte order mark begins the first one,
then every file with the text of the list, lined up to any width, is read as the list. -/
theorem Reachable.file_faithful {l : CodeList} (h : Reachable history l) :
    l.codes.Nodup ∧
    (∀ code, code ∈ l.codes ↔ ∃ n, InsertedSince history code n) ∧
    l.codes.Pairwise (CameBefore history) ∧
    ((∀ code ∈ l.codes, code ≠ "" ∧ Text.IsTrimmed code) →
      (∀ code, l.codes.head? = some code → code.toList.head? ≠ some '\uFEFF') →
      ∀ (width : Nat) (fs : FileSystem) (path : Path),
        fs.read path = .ok (l.toText width).toUTF8 →
        ∃ m, load fs path = .ok m ∧ m.entries = l.entries) := by
  obtain ⟨hnodup, hmem, hordered⟩ := h.follows
  refine ⟨hnodup, hmem, hordered, fun hcodes hmark width fs path hread => ?_⟩
  refine ⟨{ ofText (l.toText width) with path := path }, ?_,
    entries_ofText_toText hnodup hcodes hmark width⟩
  rw [load, FileSystem.readText_of_read hread]

/-- A list with marks in its codes and labels, after one of its codes was taken out and came back. -/
def awkwardCodes : CodeList :=
  ((((empty.insert "b" "gone").insert "a,\"b\"\nc" "one\r\n,\"two\"").remove "b").insert "5" "").insert
    "b" "back"

/-- A computer with the file of the list. -/
def awkwardFiles : FileSystem :=
  ⟨[(["codes.cdl"], .file (awkwardCodes.toText 6).toUTF8)], []⟩

theorem awkwardCodes_file_faithful :
    awkwardCodes.codes = ["a,\"b\"\nc", "5", "b"] ∧ awkwardCodes.codes.Nodup ∧
      ∃ m, load awkwardFiles ⟨"codes.cdl"⟩ = .ok m ∧ m.entries = awkwardCodes.entries := by
  have hreach := ((((Reachable.empty.insert "b" "gone").insert "a,\"b\"\nc"
    "one\r\n,\"two\"").remove "b").insert "5" "").insert "b" "back"
  obtain ⟨hnodup, -, -, hfile⟩ := hreach.file_faithful
  have hread : awkwardFiles.read ⟨"codes.cdl"⟩ = .ok (awkwardCodes.toText 6).toUTF8 :=
    ok_of_toOption (by decide +kernel)
  refine ⟨by decide, hnodup, hfile ?_ ?_ 6 awkwardFiles ⟨"codes.cdl"⟩ hread⟩
  · decide
  · decide

end Disclosure.CodeList
