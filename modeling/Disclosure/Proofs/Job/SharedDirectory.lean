import Disclosure.Proofs.Slug

/-!
# Jobs that share a directory

Jobs with different names may share a directory, because the name of a job is in the place of each
of its files. Between that name and the rest stands an underscore, and names may hold underscores
too. So a place tells which job it belongs to only if no name goes on from the other behind an
underscore: the column `b_region` of a job `a` has its hierarchy where the column `region` of a job
`a_b` has it.

That is the only way for two places to meet. Behind the directory a place has one of three shapes,
which differ in their first name or in the number of names, and within one shape the names of the
jobs have to match up to an underscore. Names of columns can hold slashes, so the shapes are about the first
names of a place and leave the others open.
-/

namespace Disclosure

/-! ## The shapes of places -/

/-- The text goes on from a name behind an underscore. -/
def Continues (name longer : String) : Prop :=
  (name ++ "_").toList <+: longer.toList

instance (name longer : String) : Decidable (Continues name longer) :=
  inferInstanceAs (Decidable (_ <+: _))

/-- If two names with something behind an underscore are one text, the names are the same or one
goes on from the other. -/
theorem underscore_split {n m : String} {x y : List Char}
    (h : n.toList ++ '_' :: x = m.toList ++ '_' :: y) : n = m ∨ Continues n m ∨ Continues m n := by
  have key : ∀ {a b : String} {u v rest : List Char}, b.toList = a.toList ++ rest →
      '_' :: u = rest ++ '_' :: v → a = b ∨ Continues a b := by
    intro a b u v rest hb hrest
    cases rest with
    | nil => exact .inl (String.toList_inj.mp (hb.trans (List.append_nil _)).symm)
    | cons c more =>
      injection hrest with hc _
      refine .inr ⟨more, ?_⟩
      rw [hb, String.toList_append, ← hc, List.append_assoc]
      rfl
  -- one name is the beginning of the other, and what it lacks starts with its underscore
  rcases List.append_eq_append_iff.mp h with ⟨rest, hm, hx⟩ | ⟨rest, hn, hy⟩
  · exact (key hm hx).imp id .inl
  · exact (key hn hy).imp Eq.symm .inr

/-- What stands behind the directory in a place of a job, piece by piece. -/
inductive Shape (name : String) (pieces : List (List Char)) : Prop where
  /-- A file that the engine reads or writes. -/
  | inside (folder e : List Char) (es : List (List Char))
      (hfolder : folder = "input".toList ∨ folder = "output".toList)
      (h : pieces = folder :: (name.toList ++ '_' :: e) :: es)
  /-- The directory that the engine works in. -/
  | work (h : pieces = ["work".toList, name.toList])
  /-- The batch file or the logbook. -/
  | top (ending : List Char) (hending : ending = ".arb".toList ∨ ending = "_logbook.txt".toList)
      (h : pieces = [name.toList ++ ending])

/-- **The shapes of places tell jobs apart**, unless the name of one goes on from the other's. -/
theorem Shape.names {n m : String} {pieces : List (List Char)} (h : Shape n pieces)
    (h' : Shape m pieces) : n = m ∨ Continues n m ∨ Continues m n := by
  cases h with
  | inside folder e es hfolder hn =>
    subst hn
    cases h' with
    | inside folder' e' es' _ hm =>
      injection hm with _ hm
      injection hm with hnames _
      exact underscore_split hnames
    | work hm =>
      injection hm with hwork _
      rcases hfolder with rfl | rfl <;> exact absurd hwork (by decide)
    | top ending' _ hm => exact absurd hm (by simp)
  | work hn =>
    subst hn
    cases h' with
    | inside folder' e' es' hfolder' hm =>
      injection hm with hwork _
      rcases hfolder' with rfl | rfl <;> exact absurd hwork (by decide)
    | work hm =>
      injection hm with _ hm
      injection hm with hnames _
      exact .inl (String.toList_inj.mp hnames)
    | top ending' _ hm => exact absurd hm (by simp)
  | top ending hending hn =>
    subst hn
    cases h' with
    | inside folder' e' es' _ hm => exact absurd hm (by simp)
    | work hm => exact absurd hm (by simp)
    | top ending' hending' hm =>
      injection hm with hnames _
      -- the batch file and the logbook are told apart by their last letter
      rcases hending with rfl | rfl <;> rcases hending' with rfl | rfl
      · exact .inl (String.toList_inj.mp (List.append_cancel_right hnames))
      · exact absurd (congrArg List.getLast? hnames) (by simp)
      · exact absurd (congrArg List.getLast? hnames) (by simp)
      · exact .inl (String.toList_inj.mp (List.append_cancel_right hnames))

/-- Pieces that do not count can be left out of a shape. -/
theorem Shape.continued {name : String} {text : List Char} (hname : IsJobName name)
    (h : Shape name (Text.piecesAt '/' text)) :
    Shape name (Path.continued text) ∧
      ∃ head tail, Text.piecesAt '/' text = head :: tail ∧ Path.counts head = true := by
  have hcounts : ∀ {cs : List Char} {c : Char}, c ∈ cs → c ≠ '.' → Path.counts cs = true := by
    intro cs c hc hdot
    refine Path.counts_iff.mpr ⟨List.ne_nil_of_mem hc, fun he => ?_⟩
    rw [he, List.mem_singleton] at hc
    exact hdot hc
  have hunderscore : ∀ e : List Char, Path.counts (name.toList ++ '_' :: e) = true := fun e =>
    hcounts (List.mem_append_right _ List.mem_cons_self) (by decide)
  cases h with
  | inside folder e es hfolder h =>
    -- the piece with the name has an underscore, so it is not the one that a dot would be
    refine ⟨.inside folder e (es.filter Path.counts) hfolder ?_, _, _, h, ?_⟩
    · rw [Path.continued_of_pieces h, List.filter_cons_of_pos (hunderscore e)]
    · rcases hfolder with rfl | rfl <;> decide
  | work h =>
    obtain ⟨c, hc⟩ := List.exists_mem_of_ne_nil _ hname.nonempty
    have hwhole : Path.counts name.toList = true := hcounts hc fun he => hname.noDot (he ▸ hc)
    refine ⟨.work ?_, _, _, h, by decide⟩
    rw [Path.continued_of_pieces h, List.filter_cons_of_pos hwhole, List.filter_nil]
  | top ending hending h =>
    refine ⟨.top ending hending (Path.continued_of_pieces h), _, _, h, ?_⟩
    rcases hending with rfl | rfl
    · exact hcounts (c := 'a') (List.mem_append_right _ (by decide)) (by decide)
    · exact hcounts (c := 'l') (List.mem_append_right _ (by decide)) (by decide)

/-! ## Texts of places -/

/-- What begins with the name of a job is relative. -/
theorem IsJobName.relative {name : String} (h : IsJobName name) (rest : String) :
    (Path.mk (name ++ rest)).isAbsolute = false := by
  obtain ⟨c, cs, hname⟩ := List.exists_cons_of_ne_nil h.nonempty
  have hc : c ≠ '/' := fun he => h.noSlash (hname ▸ he ▸ List.mem_cons_self)
  rw [Path.isAbsolute, String.toList_append, hname]
  simpa using hc

namespace JobPaths

variable {directory : Path} {name : String}

theorem inputFile_text (hname : IsJobName name) (ending : String) :
    ((JobPaths.mk directory name).inputFile ending).text.toList =
      directory.lead ++ ("input".toList ++ '/' :: (name.toList ++ '_' :: ending.toList)) := by
  have hrelative : (Path.mk (name ++ "_" ++ ending)).isAbsolute = false := by
    rw [String.append_assoc]
    exact hname.relative _
  rw [inputFile, Path.text_join hrelative, input,
    Path.lead_join (by decide) (by decide) (by decide), String.toList_append, String.toList_append]
  simp

theorem tableOutput_text (hname : IsJobName name) (table : String) :
    ((JobPaths.mk directory name).tableOutput table).text.toList = directory.lead ++
      ("output".toList ++ '/' :: (name.toList ++ '_' :: ((slug table).toList ++ ".csv".toList))) := by
  have hrelative : (Path.mk (name ++ "_" ++ slug table ++ ".csv")).isAbsolute = false := by
    rw [String.append_assoc, String.append_assoc]
    exact hname.relative _
  rw [tableOutput, Path.text_join hrelative, output,
    Path.lead_join (by decide) (by decide) (by decide), String.toList_append, String.toList_append,
    String.toList_append]
  simp

theorem work_text (hname : IsJobName name) :
    (JobPaths.mk directory name).work.text.toList =
      directory.lead ++ ("work".toList ++ '/' :: name.toList) := by
  have hrelative : (Path.mk (name ++ "")).isAbsolute = false := hname.relative ""
  rw [String.append_empty] at hrelative
  rw [work, Path.text_join hrelative, Path.lead_join (by decide) (by decide) (by decide)]
  simp

theorem top_text (hname : IsJobName name) (ending : String) :
    (directory.join (name ++ ending)).text.toList =
      directory.lead ++ (name.toList ++ ending.toList) := by
  rw [Path.text_join (hname.relative ending), String.toList_append]

/-- Behind the directory, the place has a shape of the name, and does not lead up if columns are
`straight`. -/
def Behind (directory : Path) (name : String) (straight : Prop) (p : Path) : Prop :=
  ∃ text, p.text.toList = directory.lead ++ text ∧ Shape name (Text.piecesAt '/' text) ∧
    (straight → Path.Straight text)

variable {straight : Prop}

theorem inputFile_behind (hname : IsJobName name) {ending : String}
    (h : straight → Path.Straight ending.toList) :
    Behind directory name straight ((JobPaths.mk directory name).inputFile ending) := by
  refine ⟨_, inputFile_text hname ending, ?_, fun hstraight => ?_⟩
  · obtain ⟨e, es, he⟩ := List.exists_cons_of_ne_nil (Text.piecesAt_ne_nil '/' ending.toList)
    refine .inside _ e es (.inl rfl) ?_
    rw [Text.piecesAt_append_sep _ (by decide),
      Text.piecesAt_append_of_not_mem hname.noSlash (Text.piecesAt_cons_of_ne (by decide) he)]
  · have hfront : Path.IsEnding (name.toList ++ ['_']) :=
      ⟨by simp [hname.noSlash], '_', by simp, by decide⟩
    have hbehind := (h hstraight).behind hfront
    rw [List.append_assoc] at hbehind
    exact hbehind.below (by decide)

theorem tableOutput_behind (hname : IsJobName name) (table : String) :
    Behind directory name straight ((JobPaths.mk directory name).tableOutput table) := by
  have hlast : Path.IsEnding (name.toList ++ '_' :: ((slug table).toList ++ ".csv".toList)) :=
    ⟨by simp [hname.noSlash, not_mem_slug (.inl rfl) table], '_', by simp, by decide⟩
  refine ⟨_, tableOutput_text hname table,
    .inside _ ((slug table).toList ++ ".csv".toList) [] (.inr rfl) ?_, fun _ => ?_⟩
  · rw [Text.piecesAt_append_sep _ (by decide), Text.piecesAt_of_not_mem hlast.1]
  · exact (Path.straight_of_ending hlast).below (by decide)

theorem work_behind (hname : IsJobName name) :
    Behind directory name straight (JobPaths.mk directory name).work := by
  obtain ⟨c, hc⟩ := List.exists_mem_of_ne_nil _ hname.nonempty
  have hlast : Path.IsEnding name.toList :=
    ⟨hname.noSlash, c, hc, fun h => hname.noDot (h ▸ hc)⟩
  refine ⟨_, work_text hname, .work ?_, fun _ => ?_⟩
  · rw [Text.piecesAt_append_sep _ (by decide), Text.piecesAt_of_not_mem hname.noSlash]
  · exact (Path.straight_of_ending hlast).below (by decide)

/-- The batch file and the logbook. -/
theorem top_behind (hname : IsJobName name) {ending : String}
    (hending : ending.toList = ".arb".toList ∨ ending.toList = "_logbook.txt".toList) :
    Behind directory name straight (directory.join (name ++ ending)) := by
  have hlast : Path.IsEnding (name.toList ++ ending.toList) := by
    rcases hending with h | h <;> rw [h]
    · exact ⟨by simp [hname.noSlash], 'a', by simp, by decide⟩
    · exact ⟨by simp [hname.noSlash], '_', by simp, by decide⟩
  exact ⟨_, top_text hname ending, .top _ hending (Text.piecesAt_of_not_mem hlast.1),
    fun _ => Path.straight_of_ending hlast⟩

/-- What is known of a place, in the form in which two places behind one lead are compared. -/
theorem Behind.inversion {p : Path} (h : Behind directory name straight p)
    (hname : IsJobName name) : ∃ (text head : List Char) (tail : List (List Char)),
      p = ⟨String.ofList (directory.lead ++ text)⟩ ∧ Text.piecesAt '/' text = head :: tail ∧
      Path.counts (Text.lastPiece '/' directory.lead ++ head) = true ∧
      Shape name (Path.continued text) ∧
      (straight → ∀ piece ∈ (Text.lastPiece '/' directory.lead ++ head) :: tail,
        piece ≠ ['.', '.']) := by
  obtain ⟨text, htext, hshape, hup⟩ := h
  obtain ⟨hcontinued, head, tail, hpieces, hcounts⟩ := hshape.continued hname
  -- the lead ends in a slash, so the first piece behind it is a name of its own
  rw [Path.Straight, hpieces] at hup
  exact ⟨text, head, tail, Path.eq_of_text htext, hpieces, by rwa [Path.lastPiece_lead],
    hcontinued, by rwa [Path.lastPiece_lead]⟩

end JobPaths

namespace Job

/-- The places that the files of a job have unless they are given others. -/
def defaultPaths (j : Job) : List Path :=
  [j.paths.data j.input.kind.name, j.paths.metadata j.input.kind.name, j.paths.batch,
    j.paths.logbook, j.paths.work] ++
    (j.input.columns.flatMap fun c => [j.paths.hierarchy c.name, j.paths.codeList c.name]) ++
    j.tables.flatMap fun t => j.paths.tableOutput t.1 :: j.paths.apriori t.1 ::
      t.2.recodes.map fun r => j.paths.recode t.1 r.1

/-- No column is named in a way that leads up. -/
structure Straight (j : Job) : Prop where
  /-- The columns of the input. -/
  columns : ∀ c ∈ j.input.columns, ".." ∉ (Path.mk c.name).names
  /-- The columns that tables recode. -/
  recodes : ∀ t ∈ j.tables, ∀ r ∈ t.2.recodes, ".." ∉ (Path.mk r.1).names

/-- **Behind the directory, every place of a job has one of the shapes of the job's name.** -/
theorem of_mem_defaultPaths {j : Job} {directory : Path} {name : String}
    (hpaths : j.paths = ⟨directory, name⟩) (hname : IsJobName name) {p : Path}
    (hp : p ∈ j.defaultPaths) :
    JobPaths.Behind directory name j.Straight p := by
  rw [defaultPaths, hpaths] at hp
  rcases List.mem_append.mp hp with hp | hp
  · rcases List.mem_append.mp hp with hp | hp
    · simp only [List.mem_cons, List.not_mem_nil, or_false] at hp
      -- data, metadata, batch file, logbook and the directory of the engine
      rcases hp with rfl | rfl | rfl | rfl | rfl
      · refine JobPaths.inputFile_behind hname fun _ => Path.straight_of_ending ?_
        cases j.input.kind <;> decide
      · refine JobPaths.inputFile_behind hname fun _ => Path.straight_of_ending ?_
        cases j.input.kind <;> decide
      · exact JobPaths.top_behind hname (.inl rfl)
      · exact JobPaths.top_behind hname (.inr rfl)
      · exact JobPaths.work_behind hname
    · obtain ⟨c, hc, hp⟩ := List.mem_flatMap.mp hp
      simp only [List.mem_cons, List.not_mem_nil, or_false] at hp
      rcases hp with rfl | rfl
      · refine JobPaths.inputFile_behind hname fun h => ?_
        rw [String.toList_append]
        exact (Path.straight_iff.mpr (h.columns c hc)).append_ending (by decide)
      · refine JobPaths.inputFile_behind hname fun h => ?_
        rw [String.toList_append]
        exact (Path.straight_iff.mpr (h.columns c hc)).append_ending (by decide)
  · obtain ⟨t, ht, hp⟩ := List.mem_flatMap.mp hp
    rcases List.mem_cons.mp hp with rfl | hp
    · exact JobPaths.tableOutput_behind hname t.1
    rcases List.mem_cons.mp hp with rfl | hp
    · refine JobPaths.inputFile_behind hname fun _ => Path.straight_of_ending ?_
      rw [String.toList_append]
      exact ⟨by simp [not_mem_slug (.inl rfl) t.1], '_', by simp, by decide⟩
    · obtain ⟨r, hr, rfl⟩ := List.mem_map.mp hp
      exact JobPaths.inputFile_behind hname fun h =>
        Path.straight_recode t.1 (h.recodes t ht r hr)

/-! ## Two jobs in one directory -/

variable {directory : Path} {n m : String} {straight straight' : Prop} {p q : Path}

/-- The same place belongs to one job, unless the name of one goes on from the other's. -/
theorem names_of_sameAs (hn : IsJobName n) (hm : IsJobName m)
    (hp : JobPaths.Behind directory n straight p) (hq : JobPaths.Behind directory m straight' q)
    (h : p.SameAs q) : n = m ∨ Continues n m ∨ Continues m n := by
  obtain ⟨text, head, tail, rfl, hpieces, hcounts, hshape, _⟩ := hp.inversion hn
  obtain ⟨text', head', tail', rfl, hpieces', hcounts', hshape', _⟩ := hq.inversion hm
  rw [Path.sameAs_append_iff hpieces hpieces' hcounts hcounts'] at h
  rw [← h] at hshape'
  exact hshape.names hshape'

/-- One file belongs to one job, unless the name of one goes on from the other's or a column leads
up. -/
theorem names_of_target {fs : FileSystem} (hn : IsJobName n) (hm : IsJobName m)
    (hp : JobPaths.Behind directory n straight p) (hq : JobPaths.Behind directory m straight' q)
    (hstraight : straight) (hstraight' : straight') (h : fs.target p = fs.target q) :
    n = m ∨ Continues n m ∨ Continues m n := by
  obtain ⟨text, head, tail, rfl, hpieces, hcounts, hshape, hup⟩ := hp.inversion hn
  obtain ⟨text', head', tail', rfl, hpieces', hcounts', hshape', hup'⟩ := hq.inversion hm
  rw [FileSystem.target_append_iff hpieces hpieces' hcounts hcounts' (hup hstraight)
    (hup' hstraight')] at h
  rw [← h] at hshape'
  exact hshape.names hshape'

/-! ## Jobs that meet -/

/-- A new job in `/jobs` with one column. -/
def withColumn (name column : String) : Job :=
  .new ⟨"/"⟩ (.microdata ⟨[⟨column, .text []⟩]⟩) ⟨"/jobs"⟩ name

/-- A job with one column, somewhere. -/
def ofColumn (paths : JobPaths) (column : String) : Job :=
  { withColumn paths.job column with paths }

theorem ofColumn_straight (paths : JobPaths) {column : String}
    (h : Path.IsEnding column.toList) : (ofColumn paths column).Straight where
  columns c hc := by
    rw [List.mem_singleton.mp hc]
    exact Path.straight_iff.mp (Path.straight_of_ending h)
  recodes t ht := absurd ht (by simp [ofColumn, withColumn, Job.new, tables, Input.table?,
    Input.microdata, Input.ofFrame])

theorem hierarchy_mem_defaultPaths (paths : JobPaths) (column : String) :
    paths.hierarchy column ∈ (ofColumn paths column).defaultPaths := by
  refine List.mem_append_left _ (List.mem_append_right _ ?_)
  exact List.mem_cons_self

/-- If one name goes on from the other, there are jobs of these names with a place in common. -/
theorem exists_common_path (directory : Path) (h : Continues n m) (hm : '/' ∉ m.toList) :
    ∃ j k : Job, j.paths = ⟨directory, n⟩ ∧ k.paths = ⟨directory, m⟩ ∧ j.Straight ∧ k.Straight ∧
      ∃ p, p ∈ j.defaultPaths ∧ p ∈ k.defaultPaths := by
  obtain ⟨u, hu⟩ := h
  have hm' : m = n ++ "_" ++ String.ofList u := by
    rw [← String.toList_inj, String.toList_append, String.toList_ofList, hu]
  have hslash : '/' ∉ u := fun hmem => hm (hu ▸ List.mem_append_right _ hmem)
  -- the rest of the longer name moves over to the column
  refine ⟨ofColumn ⟨directory, n⟩ (String.ofList u ++ "_x"), ofColumn ⟨directory, m⟩ "x", rfl, rfl,
    ofColumn_straight _ ⟨by simp [hslash], 'x', by simp, by decide⟩,
    ofColumn_straight _ (by decide), _, hierarchy_mem_defaultPaths _ _, ?_⟩
  have hsame : JobPaths.hierarchy ⟨directory, n⟩ (String.ofList u ++ "_x") =
      JobPaths.hierarchy ⟨directory, m⟩ "x" := by
    simp only [JobPaths.hierarchy, JobPaths.inputFile, JobPaths.input, hm', String.append_assoc]
    rfl
  rw [hsame]
  exact hierarchy_mem_defaultPaths _ _

/-- **Jobs in one directory keep out of each other's way exactly if neither name goes on from the
other behind an underscore.** Then no place of one is a place of the other, and if no column leads
up, none leads to a file of the other either; otherwise there are jobs of these names that share a
place. -/
theorem defaultPaths_apart_iff (directory : Path) {g h : String} (hne : nameOf g ≠ nameOf h) :
    ((∀ j k : Job, j.paths = ⟨directory, nameOf g⟩ → k.paths = ⟨directory, nameOf h⟩ →
      ∀ p ∈ j.defaultPaths, ∀ q ∈ k.defaultPaths, ¬ p.SameAs q) ↔
        ¬ Continues (nameOf g) (nameOf h) ∧ ¬ Continues (nameOf h) (nameOf g)) ∧
    ((∀ j k : Job, j.paths = ⟨directory, nameOf g⟩ → k.paths = ⟨directory, nameOf h⟩ →
      j.Straight → k.Straight →
      ∀ p ∈ j.defaultPaths, ∀ q ∈ k.defaultPaths, ∀ fs : FileSystem, fs.target p ≠ fs.target q) ↔
        ¬ Continues (nameOf g) (nameOf h) ∧ ¬ Continues (nameOf h) (nameOf g)) := by
  have hg := nameOf_isJobName g
  have hh := nameOf_isJobName h
  have hmeet : ∀ {a b : String}, '/' ∉ b.toList → Continues a b → ∃ j k : Job,
      j.paths = ⟨directory, a⟩ ∧ k.paths = ⟨directory, b⟩ ∧ j.Straight ∧ k.Straight ∧
        ∃ p, p ∈ j.defaultPaths ∧ p ∈ k.defaultPaths := fun hb hc =>
    exists_common_path directory hc hb
  -- both halves go the same way: jobs that meet show that names may not go on, and a place or a
  -- file in common would have one name go on from the other
  refine ⟨⟨fun hapart => ⟨fun hc => ?_, fun hc => ?_⟩, ?_⟩,
    ⟨fun hapart => ⟨fun hc => ?_, fun hc => ?_⟩, ?_⟩⟩
  · obtain ⟨j, k, hj, hk, _, _, p, hp, hp'⟩ := hmeet hh.noSlash hc
    exact hapart j k hj hk p hp p hp' (.refl p)
  · obtain ⟨k, j, hk, hj, _, _, p, hp', hp⟩ := hmeet hg.noSlash hc
    exact hapart j k hj hk p hp p hp' (.refl p)
  · rintro ⟨hgh, hhg⟩ j k hj hk p hp q hq hsame
    have hp' := of_mem_defaultPaths hj hg hp
    have hq' := of_mem_defaultPaths hk hh hq
    rcases names_of_sameAs hg hh hp' hq' hsame with heq | hc | hc
    · exact hne heq
    · exact hgh hc
    · exact hhg hc
  · obtain ⟨j, k, hj, hk, hsj, hsk, p, hp, hp'⟩ := hmeet hh.noSlash hc
    exact hapart j k hj hk hsj hsk p hp p hp' (.empty []) rfl
  · obtain ⟨k, j, hk, hj, hsk, hsj, p, hp', hp⟩ := hmeet hg.noSlash hc
    exact hapart j k hj hk hsj hsk p hp p hp' (.empty []) rfl
  · rintro ⟨hgh, hhg⟩ j k hj hk hsj hsk p hp q hq fs htarget
    have hp' := of_mem_defaultPaths hj hg hp
    have hq' := of_mem_defaultPaths hk hh hq
    rcases names_of_target hg hh hp' hq' hsj hsk htarget with heq | hc | hc
    · exact hne heq
    · exact hgh hc
    · exact hhg hc

/-- A survey and a census in one directory: their data is kept apart. -/
theorem survey_apart_census :
    ¬ ((withColumn "survey" "region").paths.data "microdata").SameAs
      ((withColumn "census" "region").paths.data "microdata") := by
  have hapart := (defaultPaths_apart_iff ⟨"/jobs"⟩ (g := "survey") (h := "census")
    (by decide +kernel)).1.mpr ⟨by decide +kernel, by decide +kernel⟩
  exact hapart (withColumn "survey" "region") (withColumn "census" "region") (by decide +kernel)
    (by decide +kernel) _ List.mem_cons_self _ List.mem_cons_self

/-- **Two jobs with different names can have a place in common**: the jobs `a` and `a_b` have the
hierarchies of `b_region` and of `region` in one file. -/
theorem different_jobs_share_path :
    (withColumn "a" "b_region").name ≠ (withColumn "a_b" "region").name ∧
      (withColumn "a" "b_region").paths.directory = (withColumn "a_b" "region").paths.directory ∧
      ⟨"/jobs/input/a_b_region_hierarchy.hrc"⟩ ∈ (withColumn "a" "b_region").defaultPaths ∧
      ⟨"/jobs/input/a_b_region_hierarchy.hrc"⟩ ∈ (withColumn "a_b" "region").defaultPaths := by
  decide +kernel

end Job

end Disclosure
