import Disclosure.Proofs.CodeTree.Depths
import Disclosure.Proofs.CodeTree.Indented
import Disclosure.Proofs.Text.Bytes

/-!
# When a hierarchy file is read as another tree

The writer puts a code behind its indents and fills up with blanks in between. The reader takes all
indents it can, and trims. So the one thing that can go wrong is a lined-up code that starts with the
indent once more: then the line is read at a deeper level than it was written for.

Nothing can make up for that. A reader adds at most one node for each line, one level below the depth
of the line. If it ends with as many nodes as there are lines, their depths are those of the lines;
and the lines are nowhere less deep than they were written. If one is deeper, the sum of all depths
is larger than that of the tree that was written, and so the tree is another one.
-/

namespace Disclosure.CodeTree

variable {t u : CodeTree} {indent total code : String} {p x depth width : Nat}

/-! ## What a line does to the tree -/

/-- What a line comes to: its code is there already, or it is a new node below one at its depth. -/
inductive Placed (t : CodeTree) (depth : Nat) (code : String) : CodeTree → Prop where
  | merged : Placed t depth code t
  | added {p : Nat} : p < t.nodes.size → t.Attached p → t.depth p = depth →
      code ∉ (t.children p).map t.code → Placed t depth code (t.pushChild p code).1

namespace Placed

theorem linked (hu : Placed t depth code u) (h : t.Linked) : u.Linked := by
  cases hu with
  | merged => exact h
  | added hp _ _ hfree => exact h.pushChild hp hfree

theorem totalCode_eq (hu : Placed t depth code u) (h : t.Linked) : u.totalCode = t.totalCode := by
  cases hu with
  | merged => rfl
  | added hp _ _ hfree => exact (growsAt_pushChild hp code).code_eq root h.hasRoot

/-- A line adds one node at most, and if it does, one level below its depth. -/
theorem counts (hu : Placed t depth code u) (h : t.Linked) :
    u.size ≤ t.size + 1 ∧ (u.size = t.size + 1 → u.depthSum = t.depthSum + (depth + 1)) := by
  cases hu with
  | merged => exact ⟨Nat.le_succ _, fun heq => absurd heq (Nat.ne_of_lt (Nat.lt_succ_self _))⟩
  | added hp hattached hdepth hfree =>
    refine ⟨(h.size_pushChild_content hp hfree hattached).le, fun _ => ?_⟩
    rw [h.depthSum_pushChild hp hfree hattached, hdepth]

/-- A node was there before, or it stands for the line. -/
theorem source (hu : Placed t depth code u) (h : t.Linked) (hx : root ∈ u.ancestors x) :
    (root ∈ t.ancestors x ∧ u.depth x = t.depth x ∧ u.code x = t.code x) ∨
      (u.depth x = depth + 1 ∧ u.code x = code) := by
  cases hu with
  | merged => exact .inl ⟨hx, rfl, rfl⟩
  | added hp hattached hdepth hfree =>
    rcases (h.root_mem_ancestors_pushChild hp hfree hattached).mp hx with rfl | hold
    · right
      rw [h.depth_pushChild_self hp hfree, hdepth, code_pushChild, if_pos rfl]
      exact ⟨rfl, rfl⟩
    · have hlt := h.lt_size_of_mem_ancestors hold
      exact .inl ⟨hold, h.depth_pushChild_of_lt hp hfree hlt,
        (growsAt_pushChild hp code).code_eq x hlt⟩

end Placed

/-! ## What all lines do -/

/-- What a row of depths and codes comes to, one after another. -/
inductive Grown : CodeTree → List (Nat × String) → CodeTree → Prop where
  | nil (t : CodeTree) : Grown t [] t
  | cons {t u v : CodeTree} {depth : Nat} {code : String} {entries : List (Nat × String)} :
      Placed t depth code u → Grown u entries v → Grown t ((depth, code) :: entries) v

namespace Grown

variable {entries : List (Nat × String)}

theorem linked (hu : Grown t entries u) (h : t.Linked) : u.Linked := by
  induction hu with
  | nil => exact h
  | cons hplaced _ ih => exact ih (hplaced.linked h)

theorem totalCode_eq (hu : Grown t entries u) (h : t.Linked) : u.totalCode = t.totalCode := by
  induction hu with
  | nil => rfl
  | cons hplaced _ ih => exact (ih (hplaced.linked h)).trans (hplaced.totalCode_eq h)

/-- Lines add one node each at most, and if they all do, the nodes are as deep as the lines say. -/
theorem counts (hu : Grown t entries u) (h : t.Linked) :
    u.size ≤ t.size + entries.length ∧
      (u.size = t.size + entries.length →
        u.depthSum = t.depthSum + (entries.map fun entry => entry.1 + 1).sum) := by
  induction hu with
  | nil => exact ⟨Nat.le_refl _, fun _ => rfl⟩
  | cons hplaced _ ih =>
    obtain ⟨hsize, hsum⟩ := hplaced.counts h
    obtain ⟨hsize', hsum'⟩ := ih (hplaced.linked h)
    rw [List.length_cons]
    refine ⟨by omega, fun heq => ?_⟩
    rw [hsum' (by omega), hsum (by omega), List.map_cons, List.sum_cons]
    omega

/-- Every node was there before, or it stands for one of the lines. -/
theorem source (hu : Grown t entries u) (h : t.Linked) (hx : root ∈ u.ancestors x) :
    (root ∈ t.ancestors x ∧ u.depth x = t.depth x ∧ u.code x = t.code x) ∨
      ∃ entry ∈ entries, u.depth x = entry.1 + 1 ∧ u.code x = entry.2 := by
  induction hu with
  | nil => exact .inl ⟨hx, rfl, rfl⟩
  | cons hplaced hrest ih =>
    rcases ih (hplaced.linked h) hx with ⟨hmid, hdepth, hcode⟩ | ⟨entry, hentry, hstands⟩
    · rcases hplaced.source h hmid with ⟨hold, hdepth', hcode'⟩ | ⟨hdepth', hcode'⟩
      · exact .inl ⟨hold, hdepth.trans hdepth', hcode.trans hcode'⟩
      · exact .inr ⟨_, List.mem_cons_self, hdepth.trans hdepth', hcode.trans hcode'⟩
    · exact .inr ⟨entry, List.mem_cons_of_mem _ hentry, hstands⟩

end Grown

/-! ## The reader -/

/-- The nodes that are open are on the way down from the root, each at its own depth. -/
structure Reading.Open (r : Reading) : Prop where
  sound : r.Sound
  level : ∀ {d p : Nat}, r.levels[d]? = some p → r.tree.Attached p ∧ r.tree.depth p = d

theorem Reading.open_new (total : String) : Reading.Open ⟨new total, [root]⟩ := by
  refine ⟨⟨sound_new total, by simp [root]⟩, fun {d p} hp => ?_⟩
  obtain ⟨hd, rfl⟩ := List.getElem?_eq_some_iff.mp hp
  obtain rfl : d = 0 := by simpa using hd
  exact ⟨.inl rfl, (linked_new total).depth_root⟩

theorem level_of_append {levels : List Nat} {depth p id d q : Nat}
    (hlevel : levels[depth]? = some p)
    (hq : (levels.take (depth + 1) ++ [id])[d]? = some q) :
    (d ≤ depth ∧ levels[d]? = some q) ∨ (d = depth + 1 ∧ q = id) := by
  have hlength := length_take_levels hlevel
  rcases Nat.lt_trichotomy d (depth + 1) with hd | rfl | hd
  · rw [List.getElem?_append_left (by omega), List.getElem?_take_of_lt hd] at hq
    exact .inl ⟨Nat.le_of_lt_succ hd, hq⟩
  · rw [List.getElem?_append_right (by omega), hlength, Nat.sub_self, List.getElem?_cons_zero] at hq
    exact .inr ⟨rfl, (Option.some.inj hq).symm⟩
  · rw [List.getElem?_eq_none (by simp [hlength]; omega)] at hq
    exact absurd hq (by simp)

theorem Reading.Open.place {r r' : Reading} (h : r.Open) {line : Nat}
    (hplace : r.place line depth code = .ok r') :
    r'.Open ∧ Placed r.tree depth code r'.tree := by
  have hsound := h.sound.place hplace
  have hl := h.sound.tree.toLinked
  rw [Reading.place] at hplace
  split at hplace
  · exact absurd hplace (by simp)
  · rename_i parent hparent
    obtain ⟨hattached, hdepth⟩ := h.level hparent
    have hp := h.sound.levels parent (List.mem_of_getElem? hparent)
    rw [createUnder] at hplace
    cases hchild : r.tree.child? parent code with
    | some child =>
      rw [hchild] at hplace
      cases hplace
      refine ⟨⟨hsound, fun {d q} hq => ?_⟩, .merged⟩
      rcases level_of_append hparent hq with ⟨-, hold⟩ | ⟨rfl, rfl⟩
      · exact h.level hold
      · have hup := hl.mem_children_iff.mp (of_child?_eq_some hchild).1
        refine ⟨.inr (hl.mem_ancestors_iff.mpr ⟨parent, hup, hattached.imp_left Eq.symm⟩), ?_⟩
        exact (hl.depth_of_parent hup).trans (congrArg (· + 1) hdepth)
    | none =>
      have hfree := child?_eq_none_iff.mp hchild
      rw [hchild] at hplace
      cases hplace
      refine ⟨⟨hsound, fun {d q} hq => ?_⟩, .added hp hattached hdepth hfree⟩
      rcases level_of_append hparent hq with ⟨-, hold⟩ | ⟨rfl, rfl⟩
      · have hlt := h.sound.levels q (List.mem_of_getElem? hold)
        obtain ⟨hq, hdepth⟩ := h.level hold
        refine ⟨hq.imp_right fun hroot => ?_, (hl.depth_pushChild_of_lt hp hfree hlt).trans hdepth⟩
        exact (hl.root_mem_ancestors_pushChild hp hfree hattached).mpr (.inr hroot)
      · exact ⟨.inr ((hl.root_mem_ancestors_pushChild hp hfree hattached).mpr (.inl rfl)),
          (hl.depth_pushChild_self hp hfree).trans (congrArg (· + 1) hdepth)⟩

/-- The depths and codes that lines have; those without a code are left out. -/
def entriesOf (indent : String) (lines : List String) : List (Nat × String) :=
  (lines.map (readIndentedLine indent)).filter fun entry => entry.2 ≠ ""

theorem Reading.Open.addLines {rows : List (Nat × Option String)} : ∀ {r r' : Reading},
    r.Open → r.addLines indent rows = .ok r' →
    ∃ lines : List String, rows.map Prod.snd = lines.map some ∧
      Grown r.tree (entriesOf indent lines) r'.tree := by
  induction rows with
  | nil =>
    intro r r' _ hrun
    cases hrun
    exact ⟨[], rfl, .nil _⟩
  | cons row rows ih =>
    intro r r' h hrun
    obtain ⟨number, _ | line⟩ := row
    · exact absurd hrun (by simp [Reading.addLines])
    · rw [Reading.addLines_cons] at hrun
      split at hrun
      · rename_i hblank
        obtain ⟨lines, hrows, hgrown⟩ := ih h hrun
        refine ⟨line :: lines, by simp [hrows], ?_⟩
        rwa [entriesOf, List.map_cons, List.filter_cons_of_neg (by simp [hblank])]
      · rename_i hcode
        obtain ⟨placed, hplace, hrest⟩ := Fault.ok_of_bind hrun
        obtain ⟨hopen, hplaced⟩ := h.place hplace
        obtain ⟨lines, hrows, hgrown⟩ := ih hopen hrest
        refine ⟨line :: lines, by simp [hrows], ?_⟩
        rw [entriesOf, List.map_cons, List.filter_cons_of_pos (by simp [hcode])]
        exact .cons hplaced hgrown

/-- A tree that was read has grown from its total by the lines of the file. -/
theorem grown_of_ofIndentedLines {lines : List (Option String)}
    (h : ofIndentedLines lines indent total = .ok t) :
    indent ≠ "" ∧ ∃ texts : List String, lines = texts.map some ∧
      Grown (new total) (entriesOf indent texts) t := by
  rw [ofIndentedLines] at h
  split at h
  · exact absurd h (by simp)
  · rename_i hindent
    obtain ⟨r, hrun, rfl⟩ := Fault.map_eq_ok_iff.mp h
    obtain ⟨texts, hrows, hgrown⟩ := (Reading.open_new total).addLines hrun
    rw [Text.map_snd_numbered] at hrows
    exact ⟨hindent, texts, hrows, hgrown⟩

/-! ## What a line can give -/

theorem takeIndents_suffix (indent : List Char) : ∀ (fuel : Nat) (cs : List Char),
    (takeIndents indent fuel cs).2 <:+ cs
  | 0, cs => List.suffix_refl cs
  | fuel + 1, cs => by
    rw [takeIndents]
    cases hlead : Text.dropLead? indent cs with
    | none => exact List.suffix_refl cs
    | some rest =>
      rw [Text.dropLead?_eq_some_iff.mp hlead]
      exact (takeIndents_suffix indent fuel rest).trans (List.suffix_append _ _)

theorem takeIndents_pos_iff {indent cs : List Char} {fuel : Nat} :
    0 < (takeIndents indent (fuel + 1) cs).1 ↔ indent <+: cs := by
  rw [takeIndents]
  cases hlead : Text.dropLead? indent cs with
  | none => simpa using Text.dropLead?_eq_none_iff.mp hlead
  | some rest =>
    rw [Text.dropLead?_eq_some_iff.mp hlead]
    simp

/-- Behind all indents that were written, the reader goes on as if there were none. -/
theorem takeIndents_replicate_append (indent cs : List Char) (depth fuel : Nat) :
    takeIndents indent (depth + fuel) ((List.replicate depth indent).flatten ++ cs) =
      (depth + (takeIndents indent fuel cs).1, (takeIndents indent fuel cs).2) := by
  induction depth with
  | zero => simp
  | succ depth ih =>
    have hsome : Text.dropLead? indent ((List.replicate (depth + 1) indent).flatten ++ cs) =
        some ((List.replicate depth indent).flatten ++ cs) :=
      Text.dropLead?_eq_some_iff.mpr (by simp [List.replicate_succ])
    rw [Nat.add_right_comm, takeIndents, hsome]
    simp only [ih, Nat.add_right_comm]

/-- A line is read nowhere less deep than it was written for, and deeper if its lined-up code starts
with the indent. -/
theorem le_depth_lineOf (hindent : indent ≠ "") (width : Nat) (code : String) (depth : Nat) :
    depth ≤ (readIndentedLine indent (lineOf indent width code depth)).1 ∧
      (indent.toList <+: (Text.justifyRight width code).toList →
        depth < (readIndentedLine indent (lineOf indent width code depth)).1) := by
  have hpos : 0 < indent.toList.length :=
    List.length_pos_iff.mpr (Text.toList_ne_nil hindent)
  have hlength : (lineOf indent width code depth).toList.length =
      depth * indent.toList.length + (Text.justifyRight width code).toList.length := by
    rw [toList_lineOf, List.length_append]
    simp
  have hmul := Nat.le_mul_of_pos_right depth hpos
  obtain ⟨fuel, hfuel⟩ : ∃ fuel, (lineOf indent width code depth).toList.length = depth + fuel :=
    Nat.exists_eq_add_of_le (by omega)
  have htake := takeIndents_replicate_append indent.toList (Text.justifyRight width code).toList
    depth fuel
  rw [← toList_lineOf, ← hfuel] at htake
  rw [readIndentedLine, htake]
  refine ⟨Nat.le_add_right _ _, fun hlead => ?_⟩
  obtain ⟨fuel, rfl⟩ : ∃ n, fuel = n + 1 := Nat.exists_eq_succ_of_ne_zero (by
    have := hlead.length_le
    omega)
  exact Nat.lt_add_of_pos_right (takeIndents_pos_iff.mpr hlead)

variable {lines : List String} {entry : Nat × String}

theorem exists_line_of_mem_entriesOf (h : entry ∈ entriesOf indent lines) :
    ∃ line ∈ lines, readIndentedLine indent line = entry ∧ entry.2 ≠ "" := by
  obtain ⟨hentry, hcode⟩ := List.mem_filter.mp h
  obtain ⟨line, hline, rfl⟩ := List.mem_map.mp hentry
  exact ⟨line, hline, rfl, by simpa using hcode⟩

/-- A code that was read can be written at the end of a line again. -/
theorem endsLine_of_mem_entriesOf (hlines : ∀ line ∈ lines, '\n' ∉ line.toList)
    (h : entry ∈ entriesOf indent lines) : EndsLine entry.2 := by
  obtain ⟨line, hline, rfl, hcode⟩ := exists_line_of_mem_entriesOf h
  refine ⟨hcode, ?_, fun hfeed => hlines line hline ?_⟩
  · rw [readIndentedLine, Text.IsTrimmed, Text.trim, String.toList_ofList, Text.trimChars_trimChars]
  · rw [readIndentedLine, String.toList_ofList] at hfeed
    exact (takeIndents_suffix _ _ _).mem (Text.of_mem_trimChars hfeed)

/-- No line starts with an indent that has a line feed in it. -/
theorem depth_eq_zero_of_feed (hindent : '\n' ∈ indent.toList)
    (hlines : ∀ line ∈ lines, '\n' ∉ line.toList) (h : entry ∈ entriesOf indent lines) :
    entry.1 = 0 := by
  obtain ⟨line, hline, rfl, -⟩ := exists_line_of_mem_entriesOf h
  rw [readIndentedLine]
  cases hfuel : line.toList.length with
  | zero => rfl
  | succ fuel =>
    by_contra hdepth
    have hlead := takeIndents_pos_iff.mp (Nat.pos_of_ne_zero hdepth)
    exact hlines line hline (hlead.mem hindent)

/-! ## Trees that were read -/

/-- All nodes below the root are right below it. -/
def Flat (t : CodeTree) : Prop :=
  ∀ x, root ∈ t.ancestors x → t.depth x = 1

theorem Linked.exists_mem_preorder (h : t.Linked) (hx : root ∈ t.ancestors x) :
    ∃ depth, (x, depth) ∈ (t.below root).preorder 0 ∧ t.depth x = depth + 1 := by
  rw [← h.mem_labels_below, ← Forest.map_fst_preorder _ 0] at hx
  obtain ⟨⟨y, depth⟩, hmem, rfl⟩ := List.mem_map.mp hx
  have hdepth := h.depth_of_mem_preorder hmem
  rw [h.depth_root] at hdepth
  exact ⟨depth, hmem, by omega⟩

theorem content_preorder (t : CodeTree) :
    t.content.preorder 0 = ((t.below root).preorder 0).map fun node => (t.code node.1, node.2) := by
  rw [content, codesBelow, Forest.preorder_map]

/-- Whether a tree is flat can be seen from its content. -/
theorem Linked.flat_iff (h : t.Linked) : t.Flat ↔ ∀ node ∈ t.content.preorder 0, node.2 = 0 := by
  rw [content_preorder]
  constructor
  · intro hflat node hnode
    obtain ⟨⟨x, depth⟩, hmem, rfl⟩ := List.mem_map.mp hnode
    have hx : root ∈ t.ancestors x := by
      rw [← h.mem_labels_below, ← Forest.map_fst_preorder _ 0]
      exact List.mem_map_of_mem hmem
    have hdepth := h.depth_of_mem_preorder hmem
    rw [hflat x hx, h.depth_root] at hdepth
    omega
  · intro hzero x hx
    obtain ⟨depth, hmem, hdepth⟩ := h.exists_mem_preorder hx
    have hnode : depth = 0 := hzero (t.code x, depth) (List.mem_map_of_mem hmem)
    rw [hdepth, hnode]

theorem size_new_content (total : String) : (new total).size = 0 := by
  rw [size_eq_length_labels, (linked_new total).below_eq, children_new]
  rfl

theorem depthSum_new (total : String) : (new total).depthSum = 0 := by
  rw [(linked_new total).depthSum_eq, (linked_new total).below_eq, children_new]
  rfl

/-- A node of a tree that has grown from its total stands for a line. -/
theorem Grown.exists_entry {entries : List (Nat × String)} (h : Grown (new total) entries t)
    (hx : root ∈ t.ancestors x) :
    ∃ entry ∈ entries, t.depth x = entry.1 + 1 ∧ t.code x = entry.2 := by
  rcases h.source (linked_new total) hx with ⟨hnone, -⟩ | hentry
  · rw [(linked_new total).ancestors_eq, parent?_new] at hnone
    exact absurd hnone (by simp)
  · exact hentry

/-- Lines that are read as many nodes as there are lines are read at the depths of the nodes. -/
theorem Grown.depthSum_eq (h : Grown (new total) (entriesOf indent lines) t)
    (hsize : t.size = lines.length) :
    t.depthSum = (lines.map fun line => (readIndentedLine indent line).1 + 1).sum := by
  obtain ⟨hle, hsum⟩ := h.counts (linked_new total)
  rw [size_new_content, Nat.zero_add] at hle hsum
  have hlength : (entriesOf indent lines).length ≤ lines.length := by
    rw [entriesOf]
    exact (List.length_filter_le _ _).trans (by rw [List.length_map])
  -- so no line was blank
  have hall : entriesOf indent lines = lines.map (readIndentedLine indent) := by
    refine List.filter_eq_self.mpr (List.length_filter_eq_length_iff.mp ?_)
    rw [List.length_map]
    exact (show (entriesOf indent lines).length = lines.length by omega)
  rw [hsum (by omega), depthSum_new, Nat.zero_add, hall, List.map_map]
  rfl

/-- **What is written is read as the same tree exactly when no lined-up code starts with the
indent**, but for indents with a line feed in them: those cannot stand in front of a code. -/
theorem Linked.reads_back_iff (h : t.Linked) (hindent : indent ≠ "")
    (hcodes : ∀ x, root ∈ t.ancestors x → EndsLine (t.code x)) (width : Nat) :
    (∃ u, ofIndented (t.toIndented indent width) indent t.totalCode = .ok u ∧ u.same t = true) ↔
      ('\n' ∈ indent.toList → t.Flat) ∧
        ∀ x, root ∈ t.ancestors x →
          ¬ indent.toList <+: (Text.justifyRight width (t.code x)).toList := by
  have hends : ∀ code ∈ t.content.labels, EndsLine code := by
    intro code hcode
    obtain ⟨x, hx, rfl⟩ := h.mem_labels_content.mp hcode
    exact hcodes x hx
  have hfeed : ('\n' ∈ indent.toList → t.Flat) ↔
      '\n' ∉ indent.toList ∨ ∀ node ∈ t.content.preorder 0, node.2 = 0 := by
    rw [← h.flat_iff]
    exact imp_iff_not_or
  constructor
  · rintro ⟨u, hread, hsame⟩
    obtain ⟨-, texts, htexts, hgrown⟩ := grown_of_ofIndentedLines hread
    obtain rfl : Text.lines (t.toIndented indent width) = texts :=
      List.map_injective_iff.mpr (Option.some_injective _) htexts
    have hu := hgrown.linked (linked_new _)
    have hcontent : u.content = t.content := by
      rw [same, Bool.and_eq_true, decide_eq_true_eq, decide_eq_true_eq] at hsame
      exact hsame.2
    have hflat : '\n' ∈ indent.toList → t.Flat := by
      intro hin
      rw [h.flat_iff, ← hcontent, ← hu.flat_iff]
      intro x hx
      obtain ⟨entry, hentry, hdepth, -⟩ := hgrown.exists_entry hx
      rw [hdepth, depth_eq_zero_of_feed hin (fun line => Text.feed_not_mem_of_mem_lines) hentry]
    refine ⟨hflat, fun x hx hlead => ?_⟩
    -- the sum of the depths that are read is larger than the sum of those that were written
    have hlines := lines_written (hfeed.mp hflat) hends width
    have hlength : (Text.lines (t.toIndented indent width)).length = t.size := by
      rw [hlines, List.length_map, length_preorder_content]
    have hsum := hgrown.depthSum_eq ((size_eq_of_content hcontent).trans hlength.symm)
    rw [depthSum_eq_of_content hcontent, depthSum, map_snd_descendants, hlines, List.map_map,
      content_preorder, List.map_map, List.map_map] at hsum
    obtain ⟨depth, hnode, -⟩ := h.exists_mem_preorder hx
    refine absurd hsum (Nat.ne_of_lt (List.sum_lt_sum _ _ (fun node _ => ?_) ⟨_, hnode, ?_⟩))
    · exact Nat.succ_le_succ (le_depth_lineOf hindent width _ _).1
    · exact Nat.succ_lt_succ ((le_depth_lineOf hindent width _ _).2 hlead)
  · rintro ⟨hflat, hlead⟩
    refine ⟨t.copyOf root, h.ofIndented_of_lead hindent (hfeed.mp hflat) fun code hcode => ?_,
      h.same_copyOf⟩
    obtain ⟨x, hx, rfl⟩ := h.mem_labels_content.mp hcode
    exact ⟨hcodes x hx, hlead x hx⟩

/-- The tree was read from a text, or from the bytes of a file. -/
inductive WasRead (indent total : String) (t : CodeTree) : Prop where
  | text {text : String} : ofIndented text indent total = .ok t → WasRead indent total t
  | file {bytes : ByteArray} :
      ofIndentedLines (Text.byteLines bytes) indent total = .ok t → WasRead indent total t

theorem WasRead.exists_lines (h : WasRead indent total t) :
    indent ≠ "" ∧ ∃ lines : List String, (∀ line ∈ lines, '\n' ∉ line.toList) ∧
      Grown (new total) (entriesOf indent lines) t := by
  cases h with
  | text hread =>
    obtain ⟨hindent, lines, hlines, hgrown⟩ := grown_of_ofIndentedLines hread
    obtain rfl := List.map_injective_iff.mpr (Option.some_injective _) hlines
    exact ⟨hindent, _, fun line => Text.feed_not_mem_of_mem_lines, hgrown⟩
  | file hread =>
    obtain ⟨hindent, lines, hlines, hgrown⟩ := grown_of_ofIndentedLines hread
    refine ⟨hindent, lines, fun line hline => ?_, hgrown⟩
    exact Text.feed_not_mem_of_mem_byteLines (hlines ▸ List.mem_map_of_mem hline)

/-- **A tree that was read is written and read as the same tree exactly when no code, lined up to the
longest one, starts with the indent.** -/
theorem WasRead.stable_iff (h : WasRead indent total t) :
    (∃ u, ofIndented (t.toIndented indent t.codeLength) indent total = .ok u ∧ u.same t = true) ↔
      ∀ x, root ∈ t.ancestors x →
        ¬ indent.toList <+: (Text.justifyRight t.codeLength (t.code x)).toList := by
  obtain ⟨hindent, lines, hlines, hgrown⟩ := h.exists_lines
  have htotal : t.totalCode = total := hgrown.totalCode_eq (linked_new total)
  have hends : ∀ x, root ∈ t.ancestors x → EndsLine (t.code x) := by
    intro x hx
    obtain ⟨entry, hentry, -, hcode⟩ := hgrown.exists_entry hx
    exact hcode ▸ endsLine_of_mem_entriesOf hlines hentry
  have hflat : '\n' ∈ indent.toList → t.Flat := by
    intro hfeed x hx
    obtain ⟨entry, hentry, hdepth, -⟩ := hgrown.exists_entry hx
    rw [hdepth, depth_eq_zero_of_feed hfeed hlines hentry]
  have hback := (hgrown.linked (linked_new total)).reads_back_iff hindent hends t.codeLength
  rw [htotal] at hback
  exact hback.trans (and_iff_right hflat)

/-- Two codes below a third, behind indents that no blank is taken for. -/
theorem stable_provinces : ∃ t u, ofIndented "North\n@A\n@  BB\n" "@" "Total" = .ok t ∧
    ofIndented (t.toIndented "@" t.codeLength) "@" "Total" = .ok u ∧ u.same t = true := by
  have hread : ofIndented "North\n@A\n@  BB\n" "@" "Total" =
      .ok (ofRows [["North", "A"], ["North", "BB"]] "Total") := rfl
  have hsound := sound_ofRows [["North", "A"], ["North", "BB"]] "Total"
  have hlead : ∀ x < 4, ¬ "@".toList <+: (Text.justifyRight 5
      ((ofRows [["North", "A"], ["North", "BB"]] "Total").code x)).toList := by
    decide
  obtain ⟨u, hu⟩ := (WasRead.text hread).stable_iff.mpr fun x hx =>
    hlead x (hsound.lt_size_of_mem_ancestors hx)
  exact ⟨_, u, hread, hu⟩

/-- The blanks that line a code up are taken for an indent of one blank: of two codes side by side,
the second is read below the first. -/
theorem padding_read_as_indent : ∃ t u, ofIndented "BB\nA\n" " " "Total" = .ok t ∧
    t.toIndented " " t.codeLength = "BB\n A\n" ∧
    ofIndented (t.toIndented " " t.codeLength) " " "Total" = .ok u ∧ u.same t = false :=
  ⟨ofRows [["BB"], ["A"]] "Total", ofRows [["BB", "A"]] "Total", rfl, rfl, rfl, rfl⟩

end Disclosure.CodeTree
