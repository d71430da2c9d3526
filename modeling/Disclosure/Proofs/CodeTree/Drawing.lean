import Disclosure.CodeTree.Drawing
import Disclosure.Proofs.CodeTree.Preorder
import Disclosure.Proofs.Text.Joined

/-!
# A drawing tells the tree

A code in a drawing may look like branch marks, like the open line on the left, or like nothing at
all. Still the tree can be told from its drawing, because marks are never searched for. How a line
begins is known from the lines before it: the lead of the level, and behind it four characters of
branch mark. What follows up to the line feed is the code, whatever it looks like.

What is below a code ends at the first line that does not go on with its lane. The lines below all
start with the lane, and the next code on the level starts with a branch mark, which is never the
lane of a code with another one after it. So the lines of a forest fall apart in one way only.
-/

namespace Disclosure

namespace Forest

variable {f g : Forest String} {lead line code code' : String} {last last' : Bool}

/-- The mark right before a code. -/
def branch (last : Bool) : String :=
  if last then "`-- " else "|-- "

/-- What stands in place of the mark on all lines below the code. -/
def lane (last : Bool) : String :=
  if last then "    " else "|   "

/-- The lines of a drawing, one for each code, all of them starting with `lead`. -/
def drawing (lead : String) : Forest String → List String
  | .nil => []
  | .cons code below next =>
    (lead ++ (branch next.isEmpty ++ code)) ::
      (below.drawing (lead ++ lane next.isEmpty) ++ next.drawing lead)

theorem draw_eq_unlines (f : Forest String) (lead : String) :
    f.draw lead = Text.unlines (f.drawing lead) := by
  induction f generalizing lead with
  | nil => rfl
  | cons code below next ihb ihn =>
    rw [draw, drawing, Text.unlines_cons, Text.unlines_append, ← ihb, ← ihn]
    cases hnext : next.isEmpty with
    | true => simp [branch, lane, String.append_assoc]
    | false => simp [branch, lane, String.append_assoc]

/-- Every line starts with the lead of its level. -/
theorem lead_of_mem_drawing (h : line ∈ f.drawing lead) : lead.toList <+: line.toList := by
  induction f generalizing lead with
  | nil => exact absurd h List.not_mem_nil
  | cons code below next ihb ihn =>
    rw [drawing, List.mem_cons, List.mem_append] at h
    rcases h with rfl | h | h
    · rw [String.toList_append]
      exact List.prefix_append _ _
    · have hlane := ihb h
      rw [String.toList_append] at hlane
      exact (List.prefix_append _ _).trans hlane
    · exact ihn h

/-- A line with a branch mark does not go on with the lane of a code that stands above it. -/
theorem not_lane_of_branch (lead code : String) (last : Bool) :
    ¬ (lead ++ lane false).toList <+: (lead ++ (branch last ++ code)).toList := by
  intro hlane
  simp only [String.toList_append, List.prefix_append_right_inj] at hlane
  cases last <;> simp [lane, branch] at hlane

/-- Both marks have four characters, so the code behind them is told from the line. -/
theorem branch_append_inj
    (h : lead ++ (branch last ++ code) = lead ++ (branch last' ++ code')) :
    last = last' ∧ code = code' := by
  rw [String.append_right_inj, ← String.toList_inj, String.toList_append, String.toList_append] at h
  have hlength : (branch last).toList.length = (branch last').toList.length := by
    cases last <;> cases last' <;> rfl
  obtain ⟨hmark, hcode⟩ := List.append_inj h hlength
  have hlast : (branch last).toList = (branch last').toList → last = last' := by
    cases last <;> cases last' <;> decide
  exact ⟨hlast hmark, String.toList_inj.mp hcode⟩

/-- The lines of a level that come after a code do not begin with its lane. -/
theorem head_not_lane (next : Forest String) (lead : String) :
    ∀ line ∈ (next.drawing lead).head?,
      ((lead ++ lane next.isEmpty).toList.isPrefixOf line.toList) = false := by
  intro line hline
  cases next with
  | nil => exact absurd hline (by simp [drawing])
  | cons code below rest =>
    rw [drawing, List.head?_cons, Option.mem_some_iff] at hline
    rw [← hline, Bool.eq_false_iff, ne_eq, List.isPrefixOf_iff_prefix]
    exact not_lane_of_branch lead code rest.isEmpty

/-- **The lines of a drawing tell the forest.** The induction is on the first forest, for all leads:
below a code the lead is longer by its lane. -/
theorem drawing_inj (h : f.drawing lead = g.drawing lead) : f = g := by
  induction f generalizing g lead with
  | nil =>
    cases g with
    | nil => rfl
    | cons code below next => exact absurd h (by simp [drawing])
  | cons code below next ihb ihn =>
    cases g with
    | nil => exact absurd h (by simp [drawing])
    | cons code' below' next' =>
      rw [drawing, drawing, List.cons.injEq] at h
      obtain ⟨hline, hrest⟩ := h
      obtain ⟨hlast, rfl⟩ := branch_append_inj hline
      rw [← hlast] at hrest
      have hlane : ∀ {u : Forest String}, ∀ line ∈ u.drawing (lead ++ lane next.isEmpty),
          (lead ++ lane next.isEmpty).toList.isPrefixOf line.toList = true := by
        intro u line hmem
        exact List.isPrefixOf_iff_prefix.mpr (lead_of_mem_drawing hmem)
      obtain ⟨hbelow, hnext⟩ := Text.append_inj_of_begin hlane hlane (head_not_lane next lead)
        (by rw [hlast]; exact head_not_lane next' lead) hrest
      rw [ihb hbelow, ihn hnext]

/-- A line feed in a drawing is in the lead or in a code. -/
theorem feed_not_mem_drawing (hlead : '\n' ∉ lead.toList)
    (hcodes : ∀ code ∈ f.labels, '\n' ∉ code.toList) :
    ∀ line ∈ f.drawing lead, '\n' ∉ line.toList := by
  induction f generalizing lead with
  | nil => exact fun line hline => absurd hline List.not_mem_nil
  | cons code below next ihb ihn =>
    rw [labels_cons, List.forall_mem_cons, List.forall_mem_append] at hcodes
    obtain ⟨hcode, hbelow, hnext⟩ := hcodes
    intro line hline
    rw [drawing, List.mem_cons, List.mem_append] at hline
    rcases hline with rfl | hline | hline
    · have hbranch : '\n' ∉ (branch next.isEmpty).toList := by
        cases next.isEmpty <;> decide
      simp [hlead, hbranch, hcode]
    · have hlane : '\n' ∉ (lane next.isEmpty).toList := by
        cases next.isEmpty <;> decide
      exact ihb (by simp [hlead, hlane]) hbelow line hline
    · exact ihn hlead hnext line hline

end Forest

namespace CodeTree

variable {s t : CodeTree}

/-- No code has a line feed in it, and neither has the total code. -/
def FeedFree (t : CodeTree) : Prop :=
  ∀ x, t.Attached x → '\n' ∉ (t.code x).toList

theorem draw_eq_unlines (t : CodeTree) :
    t.draw = Text.unlines (t.totalCode :: t.content.drawing "") := by
  rw [draw, Forest.draw_eq_unlines, Text.unlines_cons]

/-- It is enough to look at all nodes in the store. -/
theorem Linked.feedFree (h : t.Linked) (hnodes : ∀ x < t.nodes.size, '\n' ∉ (t.code x).toList) :
    t.FeedFree := by
  intro x hx
  rcases hx with rfl | hx
  · exact hnodes root h.hasRoot
  · exact hnodes x (h.lt_size_of_mem_ancestors hx)

theorem FeedFree.feed_not_mem (hfree : t.FeedFree) (h : t.Linked) :
    ∀ line ∈ t.totalCode :: t.content.drawing "", '\n' ∉ line.toList := by
  refine List.forall_mem_cons.mpr ⟨hfree root (.inl rfl), ?_⟩
  refine Forest.feed_not_mem_drawing (by simp) fun code hcode => ?_
  obtain ⟨x, hx, rfl⟩ := h.mem_labels_content.mp hcode
  exact hfree x (.inr hx)

/-- **Trees whose drawings are the same are the same**, and the other way round. The codes may look
like anything, as long as each stays on its line. -/
theorem Reachable.draw_eq_draw_iff (hs : s.Reachable) (ht : t.Reachable) (hsfree : s.FeedFree)
    (htfree : t.FeedFree) : s.draw = t.draw ↔ s.same t = true := by
  have hsame : s.same t = true ↔ s.totalCode = t.totalCode ∧ s.content = t.content := by
    simp [same]
  rw [hsame, draw_eq_unlines, draw_eq_unlines]
  constructor
  · intro hdraw
    have hlines := Text.unlines_inj (hsfree.feed_not_mem hs.sound.toLinked)
      (htfree.feed_not_mem ht.sound.toLinked) hdraw
    obtain ⟨htotal, hcontent⟩ := List.cons.inj hlines
    exact ⟨htotal, Forest.drawing_inj hcontent⟩
  · rintro ⟨htotal, hcontent⟩
    rw [htotal, hcontent]

/-- A tree with paths made one after the other, and no total code. -/
def treeOfPaths (paths : List (List String)) : CodeTree :=
  paths.foldl (fun t path => (Call.create path).after t) (new "")

theorem reachable_treeOfPaths (paths : List (List String)) : (treeOfPaths paths).Reachable := by
  refine List.foldlRecOn paths _ (motive := Reachable) (.new "") ?_
  intro t h path _
  exact h.call (.create path) (by simp [Call.node?]) (by simp [Call.part?])

/-- Codes that look like marks and lanes, or like nothing. Made in another order they draw the same,
and on one level they do not. -/
theorem twigs_drawn :
    (treeOfPaths [["|-- ", ""], ["|-- ", "    "], ["`-- A"]]).draw =
        "\n|-- |-- \n|   |-- \n|   `--     \n`-- `-- A\n" ∧
      (treeOfPaths [["|-- ", ""], ["|-- ", "    "], ["`-- A"]]).draw =
        (treeOfPaths [["|-- "], ["`-- A"], ["|-- ", ""], ["|-- ", "    "]]).draw ∧
      (treeOfPaths [["|-- ", ""], ["|-- ", "    "], ["`-- A"]]).draw ≠
        (treeOfPaths [["|-- "], [""], ["    "], ["`-- A"]]).draw := by
  have htwigs := reachable_treeOfPaths [["|-- ", ""], ["|-- ", "    "], ["`-- A"]]
  have hturned := reachable_treeOfPaths [["|-- "], ["`-- A"], ["|-- ", ""], ["|-- ", "    "]]
  have hlevel := reachable_treeOfPaths [["|-- "], [""], ["    "], ["`-- A"]]
  have hfree := htwigs.sound.feedFree (by decide)
  refine ⟨by decide, ?_, ?_⟩
  · exact (htwigs.draw_eq_draw_iff hturned hfree (hturned.sound.feedFree (by decide))).mpr
      (by decide)
  · exact mt (htwigs.draw_eq_draw_iff hlevel hfree (hlevel.sound.feedFree (by decide))).mp
      (by decide)

end CodeTree

end Disclosure
