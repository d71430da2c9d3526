import Disclosure.Logbook
import Disclosure.Proofs.Text.Line
import Disclosure.Proofs.Text.Split

/-!
# The last run in a logbook

A logbook holds the lines of many runs, and it is read in one pass that starts anew at every section.
What comes out is told without a pass by `Parted`: the lines up to the last section, the lines of the
run up to its first end, and the lines behind that end.

Reading one line more keeps this parting (`Reading.Agrees.next`), so every text has one. The other way
round, reading a parted text goes through its three parts one after the other, and each does one thing:
the first is forgotten, the second kept and the third passed over. So there is only one parting, and
what stands before a section does not matter.
-/

namespace Disclosure.Logbook

/-- The line stands between two runs. -/
def IsSection (line : String) : Prop :=
  sectionMarker.toList <:+: line.toList

/-- The line ends a run. -/
def IsEnd (line : String) : Prop :=
  endMarker.toList <:+: line.toList

instance (line : String) : Decidable (IsSection line) :=
  decidable_of_iff (Text.hasPart line sectionMarker = true) Text.hasPart_iff

instance (line : String) : Decidable (IsEnd line) :=
  decidable_of_iff (Text.hasPart line endMarker = true) Text.hasPart_iff

/-- The lines of a logbook parted at its last run. -/
structure Parted (lines earlier run rest : List String) : Prop where
  /-- Nothing is left out. -/
  eq_append : lines = earlier ++ (run ++ rest)
  /-- What comes before the run ends with the line in front of it. -/
  section_last : ∀ line ∈ earlier.getLast?, IsSection line
  /-- It was the last of these lines. -/
  no_section : ∀ line ∈ run ++ rest, ¬ IsSection line
  /-- The run does not go on behind its end. -/
  no_end : ∀ line ∈ run.dropLast, ¬ IsEnd line
  /-- It goes on up to its end, if it has one. -/
  end_last : rest ≠ [] → ∃ line ∈ run.getLast?, IsEnd line

/-! ## Reading on -/

theorem Reading.next_of_isSection {line : String} (h : IsSection line) (r : Reading) :
    r.next line = ⟨[], false⟩ :=
  if_pos (Text.hasPart_iff.mpr h)

theorem Reading.next_of_not_isSection {line : String} (h : ¬ IsSection line) (r : Reading) :
    r.next line = if r.ended then r else ⟨r.lines ++ [line], decide (IsEnd line)⟩ := by
  have hend : Text.hasPart line endMarker = decide (IsEnd line) := by
    rw [Bool.eq_iff_iff, decide_eq_true_iff]
    exact Text.hasPart_iff
  rw [Reading.next, if_neg (fun hpart => h (Text.hasPart_iff.mp hpart)), hend]

/-- What has been read agrees with the lines up to here. -/
structure Reading.Agrees (r : Reading) (lines : List String) : Prop where
  /-- The lines that are kept are those of the last run. -/
  parted : ∃ earlier rest, Parted lines earlier r.lines rest
  /-- The end of the run is its last line. -/
  ended_iff : r.ended = true ↔ ∃ line ∈ r.lines.getLast?, IsEnd line

theorem noEnd_of_open {run : List String} (hend : ∀ line ∈ run.dropLast, ¬ IsEnd line)
    (hopen : ¬ ∃ line ∈ run.getLast?, IsEnd line) : ∀ line ∈ run, ¬ IsEnd line := by
  rcases List.eq_nil_or_concat' run with rfl | ⟨init, last, rfl⟩
  · simp
  · rw [List.dropLast_concat] at hend
    intro line hline
    rcases List.mem_append.mp hline with hline | hline
    · exact hend line hline
    · exact fun h => hopen ⟨line, by simp [List.mem_singleton.mp hline], h⟩

/-- **One line more.** -/
theorem Reading.Agrees.next {r : Reading} {lines : List String} (h : r.Agrees lines)
    (line : String) : (r.next line).Agrees (lines ++ [line]) := by
  obtain ⟨⟨earlier, rest, hparted⟩, hended⟩ := h
  by_cases hsection : IsSection line
  · rw [next_of_isSection hsection]
    exact ⟨⟨lines ++ [line], [], by simp, by simpa using hsection, by simp, by simp, by simp⟩,
      by simp⟩
  · rw [next_of_not_isSection hsection]
    have hnone : ∀ l ∈ r.lines ++ (rest ++ [line]), ¬ IsSection l := by
      intro l hl
      rw [← List.append_assoc, List.mem_append, List.mem_singleton] at hl
      rcases hl with hl | rfl
      · exact hparted.no_section l hl
      · exact hsection
    by_cases hr : r.ended = true
    · rw [if_pos hr]
      refine ⟨⟨earlier, rest ++ [line], ?_, hparted.section_last, hnone, hparted.no_end,
        fun _ => hended.mp hr⟩, hended⟩
      simp [hparted.eq_append]
    · -- as the run has not ended, there is nothing behind it yet
      have hopen : ¬ ∃ line ∈ r.lines.getLast?, IsEnd line := fun h => hr (hended.mpr h)
      obtain rfl : rest = [] := by
        by_contra hne
        exact hopen (hparted.end_last hne)
      rw [if_neg hr]
      refine ⟨⟨earlier, [], ?_, hparted.section_last, by simpa using hnone, ?_, by simp⟩, by simp⟩
      · simp [hparted.eq_append]
      · rw [List.dropLast_concat]
        exact noEnd_of_open hparted.no_end hopen

theorem agrees_foldl (lines : List String) :
    (lines.foldl Reading.next ⟨[], false⟩).Agrees lines := by
  induction lines using List.reverseRecOn with
  | nil => exact ⟨⟨[], [], rfl, by simp, by simp, by simp, by simp⟩, by simp⟩
  | append_singleton lines line ih =>
    rw [List.foldl_append]
    exact ih.next line

/-! ## Reading a parted logbook -/

/-- Lines between the section and the end are kept. -/
theorem foldl_next_run {run : List String} (hsection : ∀ line ∈ run, ¬ IsSection line)
    (hend : ∀ line ∈ run.dropLast, ¬ IsEnd line) :
    ∃ ended, run.foldl Reading.next ⟨[], false⟩ = ⟨run, ended⟩ ∧
      (ended = true ↔ ∃ line ∈ run.getLast?, IsEnd line) := by
  induction run using List.reverseRecOn with
  | nil => exact ⟨false, rfl, by simp⟩
  | append_singleton run line ih =>
    rw [List.dropLast_concat] at hend
    rw [List.foldl_append]
    obtain ⟨ended, hread, hended⟩ := ih (fun l hl => hsection l (List.mem_append_left _ hl))
      fun l hl => hend l ((List.dropLast_sublist run).subset hl)
    have hopen : ended = false := by
      rw [Bool.eq_false_iff, ne_eq, hended]
      rintro ⟨l, hl, hlend⟩
      exact hend l (List.mem_of_getLast? hl) hlend
    refine ⟨decide (IsEnd line), ?_, by simp⟩
    rw [hread, List.foldl_cons, List.foldl_nil,
      Reading.next_of_not_isSection (hsection line (by simp)), hopen]
    rfl

/-- Lines behind the end are not. -/
theorem foldl_next_rest {rest : List String} (hsection : ∀ line ∈ rest, ¬ IsSection line)
    {r : Reading} (hended : r.ended = true) : rest.foldl Reading.next r = r := by
  induction rest with
  | nil => rfl
  | cons line rest ih =>
    rw [List.forall_mem_cons] at hsection
    rw [List.foldl_cons, Reading.next_of_not_isSection hsection.1, if_pos hended, ih hsection.2]

/-- After a section all that was read before is forgotten. -/
theorem foldl_next_section {lines : List String} (hlast : ∃ line ∈ lines.getLast?, IsSection line)
    (r : Reading) : lines.foldl Reading.next r = ⟨[], false⟩ := by
  obtain ⟨line, hline, hsection⟩ := hlast
  obtain ⟨before, rfl⟩ := List.getLast?_eq_some_iff.mp hline
  rw [List.foldl_append]
  exact Reading.next_of_isSection hsection _

theorem Parted.foldl_eq {lines earlier run rest : List String}
    (h : Parted lines earlier run rest) :
    (lines.foldl Reading.next ⟨[], false⟩).lines = run := by
  have hearlier : earlier.foldl Reading.next ⟨[], false⟩ = ⟨[], false⟩ := by
    cases hlast : earlier.getLast? with
    | none => rw [List.getLast?_eq_none_iff.mp hlast]; rfl
    | some line => exact foldl_next_section ⟨line, hlast, h.section_last line hlast⟩ _
  obtain ⟨ended, hrun, hended⟩ :=
    foldl_next_run (fun l hl => h.no_section l (List.mem_append_left _ hl)) h.no_end
  rw [h.eq_append, List.foldl_append, List.foldl_append, hearlier, hrun]
  by_cases hrest : rest = []
  · rw [hrest]; rfl
  · rw [foldl_next_rest (fun l hl => h.no_section l (List.mem_append_right _ hl))
      (hended.mpr (h.end_last hrest))]

/-- The lines up to the last section are as good as none. -/
theorem lastRun_behind_section (earlier text : String) {line : String} (hfeed : '\n' ∉ line.toList)
    (hsection : IsSection line) : lastRun (earlier ++ line ++ "\n" ++ text) = lastRun text := by
  have hreturn : '\r' ∉ sectionMarker.toList := by decide
  have hne : sectionMarker.toList ≠ [] := by decide
  obtain ⟨before, last, hlines, hlast⟩ :=
    Text.exists_line_of_infix hreturn hne hfeed hsection earlier.toList text.toList
  have htext : (earlier ++ line ++ "\n" ++ text).toList =
      earlier.toList ++ (line.toList ++ '\n' :: text.toList) := by
    simp
  have hmarked : IsSection (String.ofList last) := by
    rwa [IsSection, String.toList_ofList]
  rw [lastRun, Text.lines, htext, hlines, List.map_append, List.map_cons, List.append_cons,
    List.foldl_append, foldl_next_section ⟨_, List.getLast?_concat, hmarked⟩]
  rfl

/-- **The last run is what stands between the last section and the first end behind it.** Every text
is parted in one such way. So nothing that ends with a section, whatever runs it holds, is told by
what is read of the text behind it. -/
theorem lastRun_exact (text : String) :
    (∀ run, lastRun text = run ↔ ∃ earlier rest, Parted (Text.lines text) earlier run rest) ∧
    ∀ earlier line : String, '\n' ∉ line.toList → IsSection line →
      lastRun (earlier ++ line ++ "\n" ++ text) = lastRun text := by
  refine ⟨fun run => ⟨?_, fun ⟨_, _, hparted⟩ => hparted.foldl_eq⟩, fun earlier line =>
    lastRun_behind_section earlier text⟩
  rintro rfl
  exact (agrees_foldl (Text.lines text)).parted

/-- A run that came to its end and one that did not stand before the section, and a stray line behind
the end of the last run. -/
theorem lastRun_behind_two_runs :
    lastRun ("Start\nEnd of TauArgus run\n--------------------\nStart\n" ++
      "10:00 --------------------\r" ++ "\n" ++ "Start\nEnd of TauArgus run\nclosing\n") =
      lastRun "Start\nEnd of TauArgus run\nclosing\n" ∧
    lastRun "Start\nEnd of TauArgus run\nclosing\n" = ["Start", "End of TauArgus run"] := by
  refine ⟨(lastRun_exact "Start\nEnd of TauArgus run\nclosing\n").2 _ _ (by decide) (by decide),
    ((lastRun_exact _).1 _).mpr ⟨[], ["closing"], ?_⟩⟩
  exact ⟨by decide, by decide, by decide, by decide, by decide⟩

end Disclosure.Logbook

namespace Disclosure.RunReport

/-- **A report tells nothing of the runs before.** What the engine appends behind a section is reported
as if it had begun the logbook. -/
theorem collect_behind_section {fs fresh : FileSystem} {path : Path} {earlier line text : String}
    (hfeed : '\n' ∉ line.toList) (hsection : Logbook.IsSection line)
    (hread : fs.readText path = .ok (earlier ++ line ++ "\n" ++ text))
    (hfresh : fresh.readText path = .ok text) (exitCode : Option Int) :
    collect fs exitCode (some path) = collect fresh exitCode (some path) := by
  simp only [collect, hread, hfresh, Logbook.lastRun_behind_section earlier text hfeed hsection]

end Disclosure.RunReport
