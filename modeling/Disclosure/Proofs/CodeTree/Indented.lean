import Disclosure.Proofs.CodeTree.Reachable
import Disclosure.Proofs.Text.Line
import Disclosure.Proofs.Text.Split
import Mathlib.Data.List.Forall2

/-!
# Hierarchy files read as they were written

The writer walks down a tree with depths, and the reader keeps the nodes that are open in a list
that is cut at every line. They meet in one invariant: after the lines of a forest at depth `d`, the
reader has grafted the forest at the node that is open at depth `d`, and has the same nodes open
down to that depth. `addLines_preorder` says this by induction on the forest. Reading all lines of a
tree is then grafting all that is below the root to a new root, which is how a tree is copied.

That a line is read as it was written is a matter of where its indents end. They end before the
blanks that line the code up, since an indent does not start with a blank, and before the code,
since a code does not start with the indent.
-/

namespace Disclosure.CodeTree

/-- An indent that can be told from the blanks behind it. -/
structure IsIndent (indent : String) : Prop where
  /-- There is something to see. -/
  ne_empty : indent ≠ ""
  /-- It does not end the line. -/
  no_feed : '\n' ∉ indent.toList
  /-- It does not start with a blank. -/
  no_blank : indent.toList.head? ≠ some ' '

/-- A code that can be told from what is in front of it. -/
structure IsLineCode (indent code : String) : Prop where
  /-- There is something to see. -/
  ne_empty : code ≠ ""
  /-- There are no blanks around it. -/
  trimmed : Text.IsTrimmed code
  /-- It does not end the line. -/
  no_feed : '\n' ∉ code.toList
  /-- It does not start with the indent. -/
  not_indented : ¬ indent.toList <+: code.toList

/-- A code that a line can end with. -/
structure EndsLine (code : String) : Prop where
  /-- There is something to see. -/
  ne_empty : code ≠ ""
  /-- There are no blanks around it. -/
  trimmed : Text.IsTrimmed code
  /-- It does not end the line itself. -/
  no_feed : '\n' ∉ code.toList

theorem IsLineCode.endsLine {indent code : String} (h : IsLineCode indent code) : EndsLine code :=
  ⟨h.ne_empty, h.trimmed, h.no_feed⟩

instance (indent : String) : Decidable (IsIndent indent) :=
  decidable_of_iff (indent ≠ "" ∧ '\n' ∉ indent.toList ∧ indent.toList.head? ≠ some ' ')
    ⟨fun h => ⟨h.1, h.2.1, h.2.2⟩, fun h => ⟨h.ne_empty, h.no_feed, h.no_blank⟩⟩

instance (indent code : String) : Decidable (IsLineCode indent code) :=
  decidable_of_iff (code ≠ "" ∧ Text.IsTrimmed code ∧ '\n' ∉ code.toList ∧
      ¬ indent.toList <+: code.toList)
    ⟨fun h => ⟨h.1, h.2.1, h.2.2.1, h.2.2.2⟩,
      fun h => ⟨h.ne_empty, h.trimmed, h.no_feed, h.not_indented⟩⟩

/-- The line of a code that is `depth` levels down. -/
def lineOf (indent : String) (width : Nat) (code : String) (depth : Nat) : String :=
  Text.repeatText depth indent ++ Text.justifyRight width code

variable {indent code : String} {width : Nat} {t : CodeTree}

theorem toList_lineOf (indent : String) (width : Nat) (code : String) (depth : Nat) :
    (lineOf indent width code depth).toList =
      (List.replicate depth indent.toList).flatten ++ (Text.justifyRight width code).toList := by
  rw [lineOf, String.toList_append, Text.toList_repeatText]

/-! ## One line -/

/-- As many indents are taken as there are in front of a text that does not start with one. -/
theorem takeIndents_replicate {indent cs : List Char} (hcs : ¬ indent <+: cs) {depth fuel : Nat}
    (hfuel : depth ≤ fuel) :
    takeIndents indent fuel ((List.replicate depth indent).flatten ++ cs) = (depth, cs) := by
  induction depth generalizing fuel with
  | zero =>
    cases fuel with
    | zero => rfl
    | succ fuel =>
      have hnone := Text.dropLead?_eq_none_iff.mpr hcs
      simp [takeIndents, hnone]
  | succ depth ih =>
    obtain ⟨fuel, rfl⟩ : ∃ n, fuel = n + 1 := Nat.exists_eq_succ_of_ne_zero (by omega)
    have hsome : Text.dropLead? indent ((List.replicate (depth + 1) indent).flatten ++ cs) =
        some ((List.replicate depth indent).flatten ++ cs) :=
      Text.dropLead?_eq_some_iff.mpr (by simp [List.replicate_succ])
    rw [takeIndents, hsome]
    simp [ih (Nat.le_of_succ_le_succ hfuel)]

/-- A code that is lined up does not start with the indent either. -/
theorem not_isPrefix_justifyRight (hindent : IsIndent indent) (hcode : IsLineCode indent code)
    (width : Nat) : ¬ indent.toList <+: (Text.justifyRight width code).toList := by
  rw [Text.toList_justifyRight]
  cases width - code.length with
  | zero => simpa using hcode.not_indented
  | succ n =>
    intro hlead
    cases hchars : indent.toList with
    | nil => exact Text.toList_ne_nil hindent.ne_empty hchars
    | cons c cs =>
      rw [hchars, List.replicate_succ, List.cons_append, List.cons_prefix_cons] at hlead
      exact hindent.no_blank (by rw [hchars, hlead.1]; rfl)

theorem readIndentedLine_lineOf (hindent : indent ≠ "") (hcode : EndsLine code) {depth : Nat}
    (hlead : ¬ indent.toList <+: (Text.justifyRight width code).toList) :
    readIndentedLine indent (lineOf indent width code depth) = (depth, code) := by
  have hpos : 0 < indent.toList.length :=
    List.length_pos_iff.mpr (Text.toList_ne_nil hindent)
  have hfuel : depth ≤ (lineOf indent width code depth).toList.length := by
    have hmul := Nat.le_mul_of_pos_right depth hpos
    have hlength : (List.replicate depth indent.toList).flatten.length =
        depth * indent.toList.length := by simp
    rw [toList_lineOf, List.length_append]
    omega
  have htake := takeIndents_replicate hlead hfuel
  rw [← toList_lineOf] at htake
  rw [readIndentedLine, htake]
  exact congrArg (Prod.mk depth) (Text.trim_justifyRight width hcode.trimmed)

/-- A written line has no line feed inside, and no carriage return at its end. -/
theorem lineOf_isLine {depth : Nat} (hindent : '\n' ∉ indent.toList ∨ depth = 0)
    (hcode : EndsLine code) (width : Nat) : '\n' ∉ (lineOf indent width code depth).toList ∧
      (lineOf indent width code depth).toList.getLast? ≠ some '\r' := by
  obtain ⟨hfree, -⟩ := Text.justifyRight_isLine hcode.ne_empty hcode.trimmed hcode.no_feed width
  rw [toList_lineOf]
  constructor
  · intro hfeed
    rcases List.mem_append.mp hfeed with hfeed | hfeed
    · obtain ⟨_, hmem, hfeed⟩ := List.mem_flatten.mp hfeed
      obtain ⟨hdepth, rfl⟩ := List.mem_replicate.mp hmem
      exact hindent.elim (· hfeed) hdepth
    · exact hfree hfeed
  · rw [Text.toList_justifyRight, ← List.append_assoc]
    exact hcode.trimmed.getLast?_append_ne hcode.ne_empty (by decide) _

/-! ## All lines -/

/-- Reading a written line makes a new node below the one that is open at its depth. -/
theorem Reading.addLines_lineOf (hindent : indent ≠ "") (hcode : EndsLine code)
    (hlead : ¬ indent.toList <+: (Text.justifyRight width code).toList) {r : Reading}
    {depth p : Nat} (hlevel : r.levels[depth]? = some p)
    (hfree : code ∉ (r.tree.children p).map r.tree.code) (line : Nat)
    (rest : List (Nat × Option String)) :
    r.addLines indent ((line, some (lineOf indent width code depth)) :: rest) =
      Reading.addLines indent
        ⟨(r.tree.pushChild p code).1, r.levels.take (depth + 1) ++ [r.tree.nodes.size]⟩ rest := by
  have hnew : r.tree.createUnder p [code] = r.tree.pushChild p code := by
    rw [createUnder, child?_eq_none_iff.mpr hfree]
    rfl
  have hplace : r.place line depth code =
      .ok ⟨(r.tree.pushChild p code).1, r.levels.take (depth + 1) ++ [r.tree.nodes.size]⟩ := by
    rw [Reading.place, hlevel]
    simp only [hnew]
    rfl
  rw [Reading.addLines_cons, readIndentedLine_lineOf hindent hcode hlead, if_neg hcode.ne_empty,
    hplace]
  rfl

theorem length_take_levels {levels : List Nat} {depth p : Nat} (hlevel : levels[depth]? = some p) :
    (levels.take (depth + 1)).length = depth + 1 := by
  obtain ⟨hlt, _⟩ := List.getElem?_eq_some_iff.mp hlevel
  rw [List.length_take]
  omega

/-- Whatever happens further down, a level and those above it stay open. -/
theorem levels_kept {levels deeper : List Nat} {depth p id : Nat}
    (hlevel : levels[depth]? = some p)
    (hdeeper : deeper.take (depth + 2) = (levels.take (depth + 1) ++ [id]).take (depth + 2)) :
    deeper.take (depth + 1) = levels.take (depth + 1) ∧ deeper[depth]? = some p := by
  have htake : deeper.take (depth + 1) = levels.take (depth + 1) := by
    have hcut := congrArg (List.take (depth + 1)) hdeeper
    simpa [List.take_take, length_take_levels hlevel] using hcut
  refine ⟨htake, ?_⟩
  rw [← List.getElem?_take_of_lt (Nat.lt_succ_self depth), htake,
    List.getElem?_take_of_lt (Nat.lt_succ_self depth), hlevel]

/-- **Reading the lines of a forest grafts the forest.** -/
theorem Reading.addLines_preorder (hindent : indent ≠ "") {f : Forest String} (hf : f.Distinct)
    (hcodes : ∀ code ∈ f.labels, EndsLine code ∧
      ¬ indent.toList <+: (Text.justifyRight width code).toList) {r : Reading} (h : r.tree.Sound)
    {depth p : Nat} (hp : p < r.tree.nodes.size) (hlevel : r.levels[depth]? = some p)
    (hfree : ∀ code ∈ f.tops, code ∉ (r.tree.children p).map r.tree.code)
    {ls : List (Nat × Option String)}
    (hls : ls.map Prod.snd =
      (f.preorder depth).map fun node => some (lineOf indent width node.1 node.2))
    (rest : List (Nat × Option String)) :
    ∃ levels, levels.take (depth + 1) = r.levels.take (depth + 1) ∧
      r.addLines indent (ls ++ rest) =
        Reading.addLines indent ⟨r.tree.graft p f, levels⟩ rest := by
  induction f generalizing r depth p ls rest with
  | nil =>
    obtain rfl : ls = [] := List.map_eq_nil_iff.mp hls
    exact ⟨r.levels, rfl, rfl⟩
  | cons code below next ihb ihn =>
    obtain ⟨hcode, hbelow, hnext⟩ := hf
    rw [Forest.tops, List.forall_mem_cons] at hfree
    rw [Forest.labels_cons, List.forall_mem_cons, List.forall_mem_append] at hcodes
    rw [Forest.preorder, List.map_cons, List.map_append, List.map_eq_cons_iff] at hls
    obtain ⟨⟨line, _⟩, after, rfl, rfl, hafter⟩ := hls
    obtain ⟨lsb, lsn, rfl, hlsb, hlsn⟩ := List.map_eq_append_iff.mp hafter
    have hchild := h.sound_pushChild hp hfree.1
    have hsize : r.tree.nodes.size < (r.tree.pushChild p code).1.nodes.size := by simp
    have hnone := children_pushChild_self hp code
    -- the new node is open one level further down, and at this level it is still its parent
    have hdeeper : (r.levels.take (depth + 1) ++ [r.tree.nodes.size])[depth + 1]? =
        some r.tree.nodes.size := by
      simp [length_take_levels hlevel]
    obtain ⟨levelsb, hlevelsb, hrunb⟩ := ihb hbelow hcodes.2.1
      (r := ⟨_, r.levels.take (depth + 1) ++ [r.tree.nodes.size]⟩) hchild hsize hdeeper
      (by simp [hnone]) hlsb (lsn ++ rest)
    obtain ⟨htake, hlevel'⟩ := levels_kept hlevel hlevelsb
    have hgrafted := h.toLinked.grafted_first hp hfree.1 hbelow
    obtain ⟨levels, hlevels, hrun⟩ := ihn hnext hcodes.2.2 (r := ⟨_, levelsb⟩) hgrafted.sound
      (hp.trans_le hgrafted.grows.size_le) hlevel' (hgrafted.free_next hcode hfree.2) hlsn rest
    refine ⟨levels, hlevels.trans htake, ?_⟩
    rw [List.cons_append, Reading.addLines_lineOf hindent hcodes.1.1 hcodes.1.2 hlevel hfree.1,
      List.append_assoc, hrunb, hrun]
    rfl

/-! ## The whole file -/

/-- The lines of a file are those that were written, unless an indent with a line feed in it was. -/
theorem lines_written
    (hindent : '\n' ∉ indent.toList ∨ ∀ node ∈ t.content.preorder 0, node.2 = 0)
    (hcodes : ∀ code ∈ t.content.labels, EndsLine code) (width : Nat) :
    Text.lines (t.toIndented indent width) =
      (t.content.preorder 0).map fun node => lineOf indent width node.1 node.2 := by
  refine Text.lines_unlines fun line hline => ?_
  obtain ⟨⟨code, depth⟩, hnode, rfl⟩ := List.mem_map.mp hline
  have hcode : code ∈ t.content.labels := by
    rw [← Forest.map_fst_preorder t.content 0]
    exact List.mem_map_of_mem hnode
  exact lineOf_isLine (hindent.imp_right fun hflat => hflat _ hnode) (hcodes code hcode) width

/-- What was written with nothing in it to mislead the reader is read as it was. -/
theorem Linked.ofIndented_of_lead (h : t.Linked) (hindent : indent ≠ "")
    (hfeed : '\n' ∉ indent.toList ∨ ∀ node ∈ t.content.preorder 0, node.2 = 0)
    (hcodes : ∀ code ∈ t.content.labels, EndsLine code ∧
      ¬ indent.toList <+: (Text.justifyRight width code).toList) :
    ofIndented (t.toIndented indent width) indent t.totalCode = .ok (t.copyOf root) := by
  have hlines : (Text.numbered ((Text.lines (t.toIndented indent width)).map some)).map Prod.snd =
      (t.content.preorder 0).map fun node => some (lineOf indent width node.1 node.2) := by
    rw [Text.map_snd_numbered, lines_written hfeed fun code hcode => (hcodes code hcode).1,
      List.map_map]
    rfl
  have hstart : ([root] : List Nat)[0]? = some root := rfl
  obtain ⟨levels, _, hrun⟩ := Reading.addLines_preorder hindent (h.distinct_codesBelow root) hcodes
    (r := ⟨new t.totalCode, [root]⟩) (sound_new _) Nat.zero_lt_one hstart (by simp) hlines []
  rw [List.append_nil] at hrun
  rw [ofIndented, ofIndentedLines, if_neg hindent, hrun]
  rfl

theorem lines_toIndented (hindent : IsIndent indent)
    (hcodes : ∀ code ∈ t.content.labels, IsLineCode indent code) :
    Text.lines (t.toIndented indent width) =
      (t.content.preorder 0).map fun node => lineOf indent width node.1 node.2 :=
  lines_written (.inl hindent.no_feed) (fun code hcode => (hcodes code hcode).endsLine) width

theorem Linked.ofIndented_written (h : t.Linked) (hindent : IsIndent indent)
    (hcodes : ∀ code ∈ t.content.labels, IsLineCode indent code) :
    ofIndented (t.toIndented indent width) indent t.totalCode = .ok (t.copyOf root) :=
  h.ofIndented_of_lead hindent.ne_empty (.inl hindent.no_feed) fun code hcode =>
    ⟨(hcodes code hcode).endsLine, not_isPrefix_justifyRight hindent (hcodes code hcode) width⟩

/-- **A tree that is written as indented lines is read as the same tree.** Every node has one line,
and a line has `width` characters behind its indents as soon as all codes fit. -/
theorem Reachable.ofIndented_toIndented (h : t.Reachable) (hindent : IsIndent indent) (width : Nat)
    (hcodes : ∀ x, root ∈ t.ancestors x → IsLineCode indent (t.code x)) :
    (∃ u, ofIndented (t.toIndented indent width) indent t.totalCode = .ok u ∧ u.same t = true) ∧
    (Text.lines (t.toIndented indent width)).length = t.size ∧
    List.Forall₂ (fun line (x, depth) => ∃ rest,
        line = Text.repeatText (depth - 1) indent ++ rest ∧ ¬ indent.toList <+: rest.toList ∧
        Text.trim rest = t.code x ∧ (t.codeLength ≤ width → rest.length = width))
      (Text.lines (t.toIndented indent width)) (t.descendants root) := by
  have hl := h.sound.toLinked
  have hbelow : ∀ node ∈ (t.below root).preorder 0, root ∈ t.ancestors node.1 := by
    intro node hnode
    rw [← hl.mem_labels_below, ← Forest.map_fst_preorder _ 0]
    exact List.mem_map_of_mem hnode
  have hlabels : ∀ code ∈ t.content.labels, IsLineCode indent code := by
    intro code hcode
    rw [content, codesBelow, Forest.labels_map, List.mem_map] at hcode
    obtain ⟨x, hx, rfl⟩ := hcode
    exact hcodes x (hl.mem_labels_below.mp hx)
  -- lines and nodes are told from one list, the nodes with the number of codes above each
  have hlines : Text.lines (t.toIndented indent width) =
      ((t.below root).preorder 0).map fun node => lineOf indent width (t.code node.1) node.2 := by
    rw [lines_toIndented hindent hlabels, content, codesBelow, Forest.preorder_map, List.map_map]
    rfl
  have hnodes : t.descendants root =
      ((t.below root).preorder 0).map fun node => (node.1, node.2 + 1) :=
    Forest.preorder_succ _ 0
  refine ⟨⟨t.copyOf root, hl.ofIndented_written hindent hlabels, hl.same_copyOf⟩, ?_, ?_⟩
  · rw [size, hlines, hnodes, List.length_map, List.length_map]
  · rw [hlines, hnodes, List.forall₂_map_left_iff, List.forall₂_map_right_iff, List.forall₂_same]
    intro node hnode
    have hx := hbelow node hnode
    have hcode := hcodes node.1 hx
    refine ⟨Text.justifyRight width (t.code node.1), rfl,
      not_isPrefix_justifyRight hindent hcode width, Text.trim_justifyRight width hcode.trimmed,
      fun hwidth => ?_⟩
    rw [h.sound.codeLength_eq] at hwidth
    exact Text.length_justifyRight ((hl.length_le_longestCode hx).trans hwidth)

/-- A tree with one code in two branches. -/
def sharedCodeTree : CodeTree :=
  ofRows [["A", "X"], ["B", "X"], ["B", "YY"]] "Total"

theorem sharedCodeTree_read_back :
    sharedCodeTree.toIndented ".." 3 = "  A\n..  X\n  B\n..  X\n.. YY\n" ∧
    ∃ u, ofIndented (sharedCodeTree.toIndented ".." 3) ".." "Total" = .ok u ∧
      u.same sharedCodeTree = true := by
  have hreach : sharedCodeTree.Reachable := .ofRows _ _
  have hcodes : ∀ x < 6, root ∈ sharedCodeTree.ancestors x →
      IsLineCode ".." (sharedCodeTree.code x) := by decide
  have hindent : IsIndent ".." := by decide
  have hread := hreach.ofIndented_toIndented hindent 3 fun x hx =>
    hcodes x (hreach.sound.lt_size_of_mem_ancestors hx) hx
  exact ⟨by decide, hread.1⟩

end Disclosure.CodeTree
