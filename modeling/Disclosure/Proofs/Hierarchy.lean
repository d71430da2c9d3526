import Disclosure.Hierarchy

/-!
# Codes cut at widths

A level hierarchy cuts a code into groups. Its widths count characters and its cuts are positions
among bytes, so a character of several bytes might be lost at a cut, or be on both sides of it.
`Grouped` says what the groups of a code have to be, and speaks of characters only.

The groups of a code are its front and the groups of what is behind it, both as `Grouped` has it
(`grouped_cons_iff`) and as codes are cut. So there is one row of groups to a code, and the code is
cut into it.
-/

namespace Disclosure

/-! ## The front of a text and what is behind it -/

namespace Text

/-- A position that is found by counting characters has that many of them in front of it. -/
theorem splits_nextn (s : String.Slice) (n : Nat) :
    (s.startPos.nextn n).Splits (String.ofList (s.copy.toList.take n))
      (String.ofList (s.copy.toList.drop n)) := by
  have hstart : s.startPos.Splits "" s.copy :=
    String.Slice.Pos.splits_empty_left_iff.mpr ⟨rfl, rfl⟩
  have hcut := hstart.nextn n
  rwa [String.empty_append] at hcut

theorem take_append_take (s : String) (n m : Nat) :
    String.ofList (s.toList.take n) ++ String.ofList ((s.toList.drop n).take m) =
      String.ofList (s.toList.take (n + m)) := by
  rw [← String.ofList_append, List.take_add]

/-- What completes the front of a text to the text is what is behind the front. -/
theorem take_append_eq_iff {s rest : String} {n : Nat} :
    String.ofList (s.toList.take n) ++ rest = s ↔ rest = String.ofList (s.toList.drop n) := by
  have hparts : String.ofList (s.toList.take n) ++ String.ofList (s.toList.drop n) = s := by
    rw [← String.ofList_append, List.take_append_drop, String.ofList_toList]
  constructor
  · intro h
    exact (String.append_right_inj _).mp (h.trans hparts.symm)
  · rintro rfl
    exact hparts

theorem eq_nil_of_join_eq_empty {parts : List String} (hjoin : String.join parts = "")
    (hne : ∀ part ∈ parts, part ≠ "") : parts = [] := by
  cases parts with
  | nil => rfl
  | cons part rest =>
    rw [String.join_cons, String.append_eq_empty_iff] at hjoin
    exact absurd hjoin.1 (hne part List.mem_cons_self)

end Text

namespace LevelHierarchy

/-- What the groups of a code have to be. -/
structure Grouped (h : LevelHierarchy) (code : String) (groups : List String) : Prop where
  /-- Together they are the front of the code that is as long as a full code, or all of a shorter
  code. -/
  joined : String.join groups = String.ofList (code.toList.take h.codeLength)
  /-- No group is empty. -/
  nonempty : ∀ group ∈ groups, group ≠ ""
  /-- There is at most one group to a width. -/
  length_le : groups.length ≤ h.widths.length
  /-- A group is as long as its width says. Only the last one may be shorter, and only where the
  code ends with it. -/
  width : ∀ i (hi : i < groups.length), groups[i].length = h.widths[i] ∨
    groups[i].length < h.widths[i] ∧ i + 1 = groups.length ∧ String.join groups = code
  /-- A width is left over only where the code ends with the groups before it. -/
  ran_out : groups.length < h.widths.length → String.join groups = code

theorem ofWidths_eq_ok_iff {widths : List Nat} {h : LevelHierarchy} :
    ofWidths widths = .ok h ↔ widths ≠ [] ∧ 0 ∉ widths ∧ h = ⟨widths, defaultTotal⟩ := by
  unfold ofWidths
  by_cases hnil : widths = []
  · simp [hnil]
  · by_cases hzero : 0 ∈ widths
    · simp [hnil, hzero]
    · simpa [hnil, hzero] using eq_comm

/-! ## One width after the other -/

section

variable {width : Nat} {widths : List Nat} {total code group : String} {groups rest : List String}

theorem codeLength_cons :
    codeLength ⟨width :: widths, total⟩ = width + codeLength ⟨widths, total⟩ := rfl

theorem grouped_nil_iff : Grouped ⟨[], total⟩ code groups ↔ groups = [] := by
  constructor
  · intro h
    exact List.length_eq_zero_iff.mp (Nat.le_zero.mp h.length_le)
  · rintro rfl
    exact ⟨by simp [codeLength], by simp, by simp, by simp, by simp⟩

theorem grouped_empty_iff {h : LevelHierarchy} : Grouped h "" groups ↔ groups = [] := by
  constructor
  · intro hgrouped
    exact Text.eq_nil_of_join_eq_empty (by simpa using hgrouped.joined) hgrouped.nonempty
  · rintro rfl
    exact ⟨by simp, by simp, by simp, by simp, by simp⟩

/-- The first group is the front of the code. -/
theorem Grouped.head_eq (h : Grouped ⟨width :: widths, total⟩ code (group :: rest)) :
    group = String.ofList (code.toList.take width) := by
  rcases h.width 0 (Nat.zero_lt_succ _) with hfull | ⟨hshort, hlast, hall⟩
  · have hlength : group.toList.length = width := hfull
    have hjoined := congrArg String.toList h.joined
    rw [String.join_cons, String.toList_append, String.toList_ofList, codeLength_cons] at hjoined
    have hfront := congrArg (List.take width) hjoined
    rw [List.take_left' hlength, List.take_take, Nat.min_eq_left (Nat.le_add_right _ _)] at hfront
    rw [← hfront, String.ofList_toList]
  · -- a short group is the whole code, since it is the last one
    have hrest : rest = [] := by simpa using hlast
    have hcode : group = code := by simpa [hrest] using hall
    have hlength : code.toList.length ≤ width := hcode ▸ Nat.le_of_lt hshort
    rw [List.take_of_length_le hlength, String.ofList_toList, hcode]

/-- The other groups are those of what is behind the front. -/
theorem Grouped.tail (h : Grouped ⟨width :: widths, total⟩ code (group :: rest)) :
    Grouped ⟨widths, total⟩ (String.ofList (code.toList.drop width)) rest := by
  have hends : String.join (group :: rest) = code →
      String.join rest = String.ofList (code.toList.drop width) := by
    rw [String.join_cons, h.head_eq]
    exact Text.take_append_eq_iff.mp
  refine ⟨?joined, fun piece hpiece => h.nonempty piece (List.mem_cons_of_mem _ hpiece),
    Nat.le_of_succ_le_succ h.length_le, fun i hi => ?width, fun hi => hends ?ran_out⟩
  case joined =>
    have hjoined := h.joined
    rw [String.join_cons, h.head_eq, codeLength_cons, ← Text.take_append_take,
      String.append_right_inj] at hjoined
    rw [hjoined, String.toList_ofList]
  case width =>
    rcases h.width (i + 1) (Nat.succ_lt_succ hi) with hfull | ⟨hshort, hlast, hall⟩
    · exact .inl hfull
    · exact .inr ⟨hshort, Nat.succ.inj hlast, hends hall⟩
  case ran_out => exact h.ran_out (Nat.succ_lt_succ hi)

theorem Grouped.cons (hwidth : 0 < width) (hcode : code ≠ "")
    (h : Grouped ⟨widths, total⟩ (String.ofList (code.toList.drop width)) rest) :
    Grouped ⟨width :: widths, total⟩ code (String.ofList (code.toList.take width) :: rest) := by
  have hends : String.join rest = String.ofList (code.toList.drop width) →
      String.join (String.ofList (code.toList.take width) :: rest) = code := by
    rw [String.join_cons]
    exact Text.take_append_eq_iff.mpr
  have hlength : (String.ofList (code.toList.take width)).length =
      min width code.toList.length := by
    rw [String.length_ofList, List.length_take]
  refine ⟨?joined, ?nonempty, Nat.succ_le_succ h.length_le, ?width,
    fun hi => hends (h.ran_out (Nat.lt_of_succ_lt_succ hi))⟩
  case joined =>
    rw [String.join_cons, h.joined, String.toList_ofList, Text.take_append_take, codeLength_cons]
  case nonempty =>
    refine List.forall_mem_cons.mpr ⟨fun hempty => ?_, h.nonempty⟩
    rw [String.ofList_eq_empty_iff, List.take_eq_nil_iff, String.toList_eq_nil_iff] at hempty
    exact hempty.elim (Nat.ne_of_gt hwidth) hcode
  case width =>
    rintro (_ | i) hi
    · by_cases hshort : code.toList.length < width
      · -- nothing is behind a short group, so no group follows it
        have hbehind : code.toList.drop width = [] :=
          List.drop_eq_nil_of_le (Nat.le_of_lt hshort)
        rw [hbehind] at h hends
        obtain rfl := grouped_empty_iff.mp h
        have hlt : (String.ofList (code.toList.take width)).length < width := by omega
        exact .inr ⟨hlt, rfl, hends rfl⟩
      · have hfull : (String.ofList (code.toList.take width)).length = width := by omega
        exact .inl hfull
    · rcases h.width i (Nat.lt_of_succ_lt_succ hi) with hfull | ⟨hshort, hlast, hall⟩
      · exact .inl hfull
      · exact .inr ⟨hshort, congrArg (· + 1) hlast, hends hall⟩

/-- The groups of a code are its front and the groups of what is behind it. -/
theorem grouped_cons_iff (hwidth : 0 < width) (hcode : code ≠ "") :
    Grouped ⟨width :: widths, total⟩ code groups ↔
      ∃ rest, groups = String.ofList (code.toList.take width) :: rest ∧
        Grouped ⟨widths, total⟩ (String.ofList (code.toList.drop width)) rest := by
  constructor
  · intro h
    cases groups with
    | nil =>
      -- the code has a character, and the first width has room for it
      have hjoined : "" = String.ofList (code.toList.take _) := h.joined
      rw [eq_comm, String.ofList_eq_empty_iff, List.take_eq_nil_iff, String.toList_eq_nil_iff,
        codeLength_cons] at hjoined
      rcases hjoined with hroom | hempty
      · omega
      · exact absurd hempty hcode
    | cons group rest => exact ⟨rest, congrArg (· :: rest) h.head_eq, h.tail⟩
  · rintro ⟨rest, rfl, h⟩
    exact h.cons hwidth hcode

end

/-! ## Cutting -/

/-- Every part of a text is cut into its groups. -/
theorem map_copy_groups_eq_iff {widths : List Nat} (hpos : 0 ∉ widths) (total : String)
    (s : String.Slice) (pieces : List String) :
    (groups widths s).map String.Slice.copy = pieces ↔
      Grouped ⟨widths, total⟩ s.copy pieces := by
  induction widths generalizing s pieces with
  | nil => rw [grouped_nil_iff, groups, List.map_nil, eq_comm]
  | cons width widths ih =>
    rw [List.mem_cons, not_or] at hpos
    unfold groups
    by_cases hempty : s.isEmpty = true
    · rw [if_pos hempty, String.Slice.copy_eq_empty_iff.mpr hempty, grouped_empty_iff,
        List.map_nil, eq_comm]
    · have hcode : s.copy ≠ "" := fun h => hempty (String.Slice.copy_eq_empty_iff.mp h)
      have hcut := Text.splits_nextn s width
      have hrest := ih hpos.2 (s.sliceFrom (s.startPos.nextn width))
      rw [hcut.copy_sliceFrom_eq] at hrest
      rw [if_neg hempty, grouped_cons_iff (Nat.pos_of_ne_zero (Ne.symm hpos.1)) hcode,
        List.map_cons, hcut.copy_sliceTo_eq]
      constructor
      · rintro rfl
        exact ⟨_, rfl, (hrest _).mp rfl⟩
      · rintro ⟨rest, rfl, h⟩
        exact congrArg _ ((hrest rest).mpr h)

/-- **A code is cut into its groups.** This holds under all widths that are accepted, whatever the
total code is, and there is no other row of groups for the code. -/
theorem split_exact {widths : List Nat} {h : LevelHierarchy} (accepted : ofWidths widths = .ok h)
    (total code : String) (pieces : List String) :
    { h with totalCode := total }.split code = pieces ↔
      Grouped { h with totalCode := total } code pieces := by
  obtain ⟨-, hpos, rfl⟩ := ofWidths_eq_ok_iff.mp accepted
  have hcut := map_copy_groups_eq_iff hpos total code.toSlice pieces
  rwa [String.copy_toSlice] at hcut

/-- Characters of one to four bytes, in codes that are too long, end with a group and end inside
one. -/
theorem wideCharacters_split :
    ofWidths [1, 2, 1] = .ok ⟨[1, 2, 1], "Total"⟩ ∧
      split ⟨[1, 2, 1], "All"⟩ "é€😀aß" = ["é", "€😀", "a"] ∧
      split ⟨[1, 2, 1], "All"⟩ "é€😀" = ["é", "€😀"] ∧
      split ⟨[1, 2, 1], "All"⟩ "é€" = ["é", "€"] := by
  have accepted : ofWidths [1, 2, 1] = .ok ⟨[1, 2, 1], "Total"⟩ := rfl
  refine ⟨accepted, (split_exact accepted "All" _ _).mpr ?_,
    (split_exact accepted "All" _ _).mpr ?_, (split_exact accepted "All" _ _).mpr ?_⟩
  · exact ⟨by decide, by decide, by decide, by decide, by decide⟩
  · exact ⟨by decide, by decide, by decide, by decide, by decide⟩
  · exact ⟨by decide, by decide, by decide, by decide, by decide⟩

end LevelHierarchy

end Disclosure
