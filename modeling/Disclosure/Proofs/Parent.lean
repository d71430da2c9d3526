import Disclosure.Proofs.Path
import Mathlib.Data.List.TakeDrop

/-!
# The directory of a path

Cutting the last name off a path leaves its directory, and joining a name to a directory puts one
behind it. Both are about texts, where slashes may be doubled and dots may stand between them; what
the paths say are the names that count. `parts_join` and `parent?_spec` tell the two steps in terms
of these, and from there on no text is looked at.

So what is joined to a directory lies in it if it is one name. A text with a slash in it is more
than one, and then the directory of the path is further down, or somewhere else.
-/

namespace Disclosure

theorem Text.piecesAt_append_sep_append (sep : Char) (xs ys : List Char) :
    piecesAt sep (xs ++ sep :: ys) = piecesAt sep xs ++ piecesAt sep ys := by
  obtain ⟨init, hx, hxy⟩ := piecesAt_append sep (sep :: ys) (piecesAt_cons_self sep ys) xs
  rw [hxy, hx, List.append_nil, List.append_assoc]
  rfl

/-- A character that the text is not cut at is in one of the pieces. -/
theorem Text.exists_mem_piecesAt {sep c : Char} (hc : c ≠ sep) : ∀ {cs : List Char}, c ∈ cs →
    ∃ piece ∈ piecesAt sep cs, c ∈ piece
  | d :: rest, h => by
    obtain ⟨head, tail, hrest⟩ := List.exists_cons_of_ne_nil (piecesAt_ne_nil sep rest)
    have hlater : c ∈ rest → ∃ piece ∈ piecesAt sep (d :: rest), c ∈ piece := by
      intro hin
      obtain ⟨piece, hpiece, hmem⟩ := exists_mem_piecesAt hc hin
      by_cases hd : d = sep
      · subst hd
        exact ⟨piece, by rw [piecesAt_cons_self]; exact List.mem_cons_of_mem _ hpiece, hmem⟩
      · rw [piecesAt_cons_of_ne hd hrest]
        rw [hrest] at hpiece
        rcases List.mem_cons.mp hpiece with rfl | hpiece
        · exact ⟨_, List.mem_cons_self, List.mem_cons_of_mem _ hmem⟩
        · exact ⟨piece, List.mem_cons_of_mem _ hpiece, hmem⟩
    rcases List.mem_cons.mp h with rfl | hin
    · exact ⟨c :: head, by rw [piecesAt_cons_of_ne hc hrest]; exact List.mem_cons_self,
        List.mem_cons_self⟩
    · exact hlater hin

namespace Path

/-- The path with the given characters. -/
def ofChars (cs : List Char) : Path :=
  ⟨String.ofList cs⟩

@[simp] theorem ofChars_toList (p : Path) : ofChars p.text.toList = p :=
  congrArg Path.mk String.ofList_toList

/-- Two paths are equal when they start from the same place and the same names count in them. -/
structure Equal (p q : Path) : Prop where
  /-- Both start at the root directory, or neither does. -/
  isAbsolute_eq : p.isAbsolute = q.isAbsolute
  /-- The same names count. -/
  parts_eq : p.parts = q.parts

theorem Equal.trans {p q r : Path} (h : p.Equal q) (h' : q.Equal r) : p.Equal r :=
  ⟨h.isAbsolute_eq.trans h'.isAbsolute_eq, h.parts_eq.trans h'.parts_eq⟩

/-! ## Names of texts -/

theorem isAbsolute_ofChars (cs : List Char) : (ofChars cs).isAbsolute = (cs.head? == some '/') := by
  rw [isAbsolute, ofChars, String.toList_ofList]

theorem names_ofChars (cs : List Char) : (ofChars cs).names =
    ((Text.piecesAt '/' cs).map String.ofList).filter (!·.isEmpty) := by
  rw [names, ofChars, Text.splitAt, String.toList_ofList]

theorem names_append_sep (xs ys : List Char) :
    (ofChars (xs ++ '/' :: ys)).names = (ofChars xs).names ++ (ofChars ys).names := by
  rw [names_ofChars, names_ofChars, names_ofChars, Text.piecesAt_append_sep_append, List.map_append,
    List.filter_append]

theorem names_empty : (ofChars []).names = [] :=
  names_ofChars []

theorem names_of_not_mem {cs : List Char} (hslash : '/' ∉ cs) (hne : cs ≠ []) :
    (ofChars cs).names = [String.ofList cs] := by
  rw [names_ofChars, Text.piecesAt_of_not_mem hslash, List.map_singleton,
    List.filter_cons_of_pos (by simpa using hne), List.filter_nil]

/-- A relative text has a name, unless it is empty. -/
theorem names_ne_nil {cs : List Char} (hne : cs ≠ []) (h : (ofChars cs).isAbsolute = false) :
    (ofChars cs).names ≠ [] := by
  obtain ⟨c, rest, rfl⟩ := List.exists_cons_of_ne_nil hne
  have hc : c ≠ '/' := by simpa [isAbsolute_ofChars] using h
  obtain ⟨head, tail, hrest⟩ := List.exists_cons_of_ne_nil (Text.piecesAt_ne_nil '/' rest)
  rw [names_ofChars, Text.piecesAt_cons_of_ne hc hrest, List.map_cons,
    List.filter_cons_of_pos (by simp)]
  exact List.cons_ne_nil _ _

/-! ## Names that count -/

theorem parts_eq_of_names {p q : Path} (habsolute : p.isAbsolute = q.isAbsolute)
    (hnames : p.names = q.names) : p.parts = q.parts := by
  rw [parts, parts, habsolute, hnames]

/-- What is put behind the names of a path counts as far as it is not a single dot. -/
theorem parts_of_names_append {p q : Path} {more : List String}
    (habsolute : p.isAbsolute = q.isAbsolute) (hnames : p.names = q.names ++ more)
    (hhead : q.names = [] → p.isAbsolute = false → more.head? ≠ some ".") :
    p.parts = q.parts ++ more.filter (· != ".") := by
  rw [parts, parts, hnames, ← habsolute]
  cases hp : p.isAbsolute with
  | true => exact List.filter_append ..
  | false =>
    cases hq : q.names with
    | cons first rest => exact congrArg (first :: ·) (List.filter_append ..)
    | nil =>
      cases more with
      | nil => rfl
      | cons first rest =>
        have hfirst : first ≠ "." := fun he => hhead hq hp (congrArg some he)
        simp [hfirst]

/-! ## Cutting the last name off -/

theorem equal_drop_slash {xs : List Char} (hne : xs ≠ []) :
    (ofChars xs).Equal (ofChars (xs ++ ['/'])) := by
  have habsolute : (ofChars xs).isAbsolute = (ofChars (xs ++ ['/'])).isAbsolute := by
    obtain ⟨c, rest, rfl⟩ := List.exists_cons_of_ne_nil hne
    rw [isAbsolute_ofChars, isAbsolute_ofChars]
    rfl
  refine ⟨habsolute, parts_eq_of_names habsolute ?_⟩
  rw [names_append_sep]
  exact (List.append_nil _).symm

theorem equal_drop_dot (xs : List Char) :
    (ofChars (xs ++ ['/'])).Equal (ofChars (xs ++ ['/', '.'])) := by
  have habsolute :
      (ofChars (xs ++ ['/'])).isAbsolute = (ofChars (xs ++ ['/', '.'])).isAbsolute := by
    rw [isAbsolute_ofChars, isAbsolute_ofChars]
    cases xs <;> rfl
  have hnames : (ofChars (xs ++ ['/', '.'])).names = (ofChars (xs ++ ['/'])).names ++ ["."] := by
    rw [names_append_sep, names_append_sep, List.append_assoc]
    rfl
  refine ⟨habsolute, ?_⟩
  rw [parts_of_names_append habsolute.symm hnames]
  · exact (List.append_nil _).symm
  · -- without a name before the dot the path starts at the root
    intro hnil hrelative
    rw [← habsolute] at hrelative
    exact absurd hnil (names_ne_nil (by simp) hrelative)

/-- Slashes and dots at the end say nothing. -/
theorem equal_dropTail (fuel : Nat) (cs : List Char) :
    (ofChars (dropTail fuel cs).reverse).Equal (ofChars cs.reverse) := by
  fun_induction dropTail fuel cs with
  | case1 cs => exact ⟨rfl, rfl⟩
  | case2 fuel => exact ⟨rfl, rfl⟩
  | case3 fuel rest hrest ih =>
    rw [List.reverse_cons]
    refine ih.trans (equal_drop_slash fun hnil => ?_)
    exact hrest (List.reverse_eq_nil_iff.mp hnil)
  | case4 fuel rest ih =>
    rw [List.reverse_cons, List.reverse_cons, List.append_assoc]
    rw [List.reverse_cons] at ih
    exact ih.trans (equal_drop_dot rest.reverse)
  | case5 fuel cs => exact ⟨rfl, rfl⟩

/-- The text breaks off within a name: it ends in no slash and no dot. -/
def EndsInName (cs : List Char) : Prop :=
  ∃ c, cs.getLast? = some c ∧ c ≠ '/' ∧ c ≠ '.'

instance (cs : List Char) : Decidable (EndsInName cs) :=
  decidable_of_iff (cs.getLast?.any (fun c => c ≠ '/' && c ≠ '.') = true) <| by
    simp [EndsInName, Option.any_eq_true]

theorem EndsInName.behind {cs : List Char} (h : EndsInName cs) (front : List Char) :
    EndsInName (front ++ cs) := by
  obtain ⟨c, hc, hne⟩ := h
  exact ⟨c, by rw [List.getLast?_append, hc]; rfl, hne⟩

theorem EndsInName.dropTail_reverse {cs : List Char} (h : EndsInName cs) (fuel : Nat) :
    dropTail fuel cs.reverse = cs.reverse := by
  obtain ⟨c, hc, hslash, hdot⟩ := h
  obtain ⟨init, rfl⟩ := List.getLast?_eq_some_iff.mp hc
  rw [List.reverse_concat]
  cases fuel with
  | zero => rfl
  | succ fuel => simp [dropTail, hslash, hdot]

/-- A text that breaks off within a name has this name at its end, and in front of it nothing or a
slash. -/
theorem EndsInName.split {cs : List Char} (h : EndsInName cs) : ∃ front name : List Char,
    cs = front ++ name ∧ '/' ∉ name ∧ EndsInName name ∧
      (front = [] ∨ ∃ init, front = init ++ ['/']) ∧
      cs.reverse.span (· != '/') = (name.reverse, front.reverse) := by
  obtain ⟨c, hc, hslash, hdot⟩ := h
  obtain ⟨init, rfl⟩ := List.getLast?_eq_some_iff.mp hc
  refine ⟨((init ++ [c]).reverse.dropWhile (· != '/')).reverse,
    ((init ++ [c]).reverse.takeWhile (· != '/')).reverse, ?_, fun hmem => ?_, ⟨c, ?_, hslash, hdot⟩,
    ?_, ?_⟩
  · rw [← List.reverse_append, List.takeWhile_append_dropWhile, List.reverse_reverse]
  · exact absurd (List.mem_takeWhile_imp (List.mem_reverse.mp hmem)) (by simp)
  · rw [List.reverse_concat, List.takeWhile_cons_of_pos (by simpa using hslash),
      List.reverse_cons, List.getLast?_concat]
  · have hhead := List.head?_dropWhile_not (· != '/') (init ++ [c]).reverse
    cases hrest : (init ++ [c]).reverse.dropWhile (· != '/') with
    | nil => exact .inl rfl
    | cons d rest =>
      rw [hrest, List.head?_cons] at hhead
      obtain rfl : d = '/' := by simpa using hhead
      exact .inr ⟨rest.reverse, List.reverse_cons⟩
  · rw [List.span_eq_takeWhile_dropWhile, List.reverse_reverse, List.reverse_reverse]

/-- A name behind a slash, or behind nothing, is one more name. -/
theorem names_append_name {front name : List Char} (hslash : '/' ∉ name) (hne : name ≠ [])
    (hfront : front = [] ∨ ∃ init, front = init ++ ['/']) :
    (ofChars (front ++ name)).isAbsolute = (ofChars front).isAbsolute ∧
      (ofChars (front ++ name)).names = (ofChars front).names ++ [String.ofList name] := by
  rcases hfront with rfl | ⟨init, rfl⟩
  · refine ⟨?_, names_of_not_mem hslash hne⟩
    obtain ⟨d, rest, rfl⟩ := List.exists_cons_of_ne_nil hne
    have hd : d ≠ '/' := fun he => hslash (he ▸ List.mem_cons_self)
    simp [isAbsolute_ofChars, hd]
  · constructor
    · rw [isAbsolute_ofChars, isAbsolute_ofChars]
      cases init <;> rfl
    · rw [List.append_assoc, List.singleton_append, names_append_sep, names_append_sep,
        names_of_not_mem hslash hne, List.append_assoc]
      rfl

/-- **The directory of a path that ends in a name is the path without that name.** -/
theorem parent?_spec {p : Path} (h : EndsInName p.text.toList) : ∃ above,
    p.parent? = some above ∧ above.isAbsolute = p.isAbsolute ∧ above.parts = p.parts.dropLast := by
  obtain ⟨front, name, htext, hslash, ⟨c, hc, _, hdot⟩, hfront, hspan⟩ := h.split
  have hne : name ≠ [] := by
    rintro rfl
    exact nomatch hc
  have hlast : String.ofList name ≠ "." := by
    intro he
    obtain rfl : name = ['.'] := by simpa using congrArg String.toList he
    exact hdot (Option.some.inj hc).symm
  have hparent : p.parent? =
      some (ofChars (dropTail front.reverse.length front.reverse).reverse) := by
    rw [parent?, h.dropTail_reverse, hspan]
    split
    · rename_i heq
      exact absurd (List.reverse_eq_nil_iff.mp (Prod.mk.inj heq).1) hne
    · rename_i heq
      rw [(Prod.mk.inj heq).2, ofChars]
  have hdrop := equal_dropTail front.reverse.length front.reverse
  rw [List.reverse_reverse] at hdrop
  obtain rfl : ofChars (front ++ name) = p := htext ▸ ofChars_toList p
  obtain ⟨habsolute, hnames⟩ := names_append_name hslash hne hfront
  have hparts := parts_of_names_append habsolute hnames fun _ _ he => hlast (Option.some.inj he)
  refine ⟨_, hparent, hdrop.isAbsolute_eq.trans habsolute.symm, hdrop.parts_eq.trans ?_⟩
  rw [hparts, List.filter_cons_of_pos (by simpa using hlast), List.filter_nil,
    List.dropLast_concat]

/-! ## Joining -/

theorem isAbsolute_join {base : Path} {name : String} (h : (Path.mk name).isAbsolute = false) :
    (base.join name).isAbsolute = base.isAbsolute := by
  rw [join, if_neg (by simp [h])]
  cases hbase : base.text.toList with
  | nil =>
    have hempty : base.text = "" := String.toList_eq_nil_iff.mp hbase
    simpa [isAbsolute, hempty] using h
  | cons c rest =>
    split <;> simp [isAbsolute, hbase]

/-- Joining puts the names of a text behind those of the path. -/
theorem names_join {base : Path} {name : String} (h : (Path.mk name).isAbsolute = false) :
    (base.join name).names = base.names ++ (Path.mk name).names := by
  have hjoined : base.join name = ofChars (base.lead ++ name.toList) := by
    rw [← text_join h, ofChars_toList]
  have hname : Path.mk name = ofChars name.toList := (ofChars_toList ⟨name⟩).symm
  rw [hjoined, hname, lead]
  split
  · rename_i hbase
    rw [Bool.or_eq_true] at hbase
    rcases hbase with hempty | hslash
    · have hchars : base.text.toList = [] := by simpa using hempty
      obtain rfl : ofChars [] = base := hchars ▸ ofChars_toList base
      rw [hchars, names_empty, List.nil_append, List.nil_append]
    · obtain ⟨init, hinit⟩ := List.getLast?_eq_some_iff.mp (by simpa [endsInSlash] using hslash)
      obtain rfl : ofChars (init ++ ['/']) = base := hinit ▸ ofChars_toList base
      rw [hinit, List.append_assoc, List.singleton_append, names_append_sep, names_append_sep,
        names_empty, List.append_nil]
  · rw [List.append_assoc, List.singleton_append, names_append_sep, ofChars_toList]

theorem endsInName_join {base : Path} {name : String} (h : (Path.mk name).isAbsolute = false)
    (hname : EndsInName name.toList) : EndsInName (base.join name).text.toList := by
  rw [text_join h]
  exact hname.behind base.lead

/-- Where a joined text leads: through its names, from where the path leads. -/
theorem target_join (fs : FileSystem) {base : Path} {name : String}
    (h : (Path.mk name).isAbsolute = false) : fs.target (base.join name) =
      FileSystem.resolve (fs.target base) (Path.mk name).names := by
  rw [FileSystem.target, FileSystem.target, names_join h, FileSystem.resolve_append,
    FileSystem.start, isAbsolute_join h, FileSystem.start]

/-- A text in which no name leads up stays below the path. -/
theorem target_join_of_straight (fs : FileSystem) {base : Path} {name : String}
    (h : (Path.mk name).isAbsolute = false) (hstraight : Straight name.toList) :
    fs.target (base.join name) =
      fs.target base ++ (Path.mk name).names.filter (· != ".") := by
  rw [target_join fs h, ← FileSystem.resolve_filter]
  refine FileSystem.resolve_straight _ fun other hother => ?_
  obtain ⟨hmem, hdot⟩ := List.mem_filter.mp hother
  exact ⟨by simpa using hdot, fun hup => straight_iff.mp hstraight (hup ▸ hmem)⟩

/-! ## What lies in a directory -/

/-- The path is that of something right below the directory. -/
structure LiesIn (p directory : Path) : Prop where
  /-- Without its last name the path is that of the directory. -/
  parent : ∃ above, p.parent? = some above ∧ above.Equal directory
  /-- Wherever the directory is, the path leads one name further down. -/
  target : ∀ fs : FileSystem, ∃ name, fs.target p = fs.target directory ++ [name]

/-- What is joined to a directory as one name lies in the directory. -/
theorem liesIn_join {name : String} (hslash : '/' ∉ name.toList) (hname : EndsInName name.toList)
    (base : Path) : (base.join name).LiesIn base := by
  obtain ⟨c, hc, hne, hdot⟩ := id hname
  have hnil : name.toList ≠ [] := by
    intro he
    rw [he] at hc
    exact nomatch hc
  have hrelative : (Path.mk name).isAbsolute = false := by
    obtain ⟨d, rest, hchars⟩ := List.exists_cons_of_ne_nil hnil
    have hd : d ≠ '/' := fun he => hslash (hchars ▸ he ▸ List.mem_cons_self)
    simp [isAbsolute, hchars, hd]
  have hnames : (Path.mk name).names = [name] := by
    have hsingle := names_of_not_mem hslash hnil
    rwa [String.ofList_toList, ofChars, String.ofList_toList] at hsingle
  have hdots : name ≠ "." ∧ name ≠ ".." := by
    constructor <;> rintro rfl <;> exact hdot (Option.some.inj hc).symm
  refine ⟨?_, fun fs => ⟨name, ?_⟩⟩
  · obtain ⟨above, habove, habsolute, hparts⟩ := parent?_spec (endsInName_join hrelative hname)
    refine ⟨above, habove, habsolute.trans (isAbsolute_join hrelative), hparts.trans ?_⟩
    have hjoined : (base.join name).names = base.names ++ (Path.mk name).names :=
      names_join hrelative
    rw [hnames] at hjoined
    rw [parts_of_names_append (isAbsolute_join hrelative) hjoined fun _ _ he =>
      hdots.1 (Option.some.inj he), List.filter_cons_of_pos (by simpa using hdots.1),
      List.filter_nil, List.dropLast_concat]
  · rw [target_join fs hrelative, hnames]
    exact FileSystem.resolve_straight _ fun other hother => List.mem_singleton.mp hother ▸ hdots

theorem filter_parts (p : Path) : p.parts.filter (· != ".") = p.names.filter (· != ".") := by
  rw [parts]
  split
  · rename_i first rest _ hnames
    rw [hnames, List.filter_cons, List.filter_cons, List.filter_filter]
    simp
  · rw [List.filter_filter]
    simp

/-- What is joined to a directory as several names does not lie right below it. -/
theorem not_liesIn_join {base : Path} {name : String} (h : (Path.mk name).isAbsolute = false)
    (hname : EndsInName name.toList)
    (hmany : 2 ≤ ((Path.mk name).names.filter (· != ".")).length) :
    ¬ (base.join name).LiesIn base := by
  rintro ⟨⟨above, habove, -, hparts⟩, -⟩
  have hends : EndsInName (base.join name).text.toList := endsInName_join h hname
  obtain ⟨other, hother, -, hcut⟩ := parent?_spec hends
  obtain rfl : other = above := Option.some.inj (hother.symm.trans habove)
  have hcount : (base.parts.filter (· != ".")).length + 2 ≤
      ((base.join name).parts.filter (· != ".")).length := by
    rw [filter_parts, filter_parts, names_join h, List.filter_append, List.length_append]
    omega
  rw [← hparts, hcut] at hcount
  -- cutting one name off takes no more than one name away
  have hcutCount : ((base.join name).parts.filter (· != ".")).length ≤
      ((base.join name).parts.dropLast.filter (· != ".")).length + 1 := by
    rcases List.eq_nil_or_concat (base.join name).parts with hnil | ⟨init, last, hconcat⟩
    · simp [hnil]
    · rw [hconcat, List.concat_eq_append, List.dropLast_concat, List.filter_append,
        List.length_append]
      have hlast := List.length_filter_le (· != ".") [last]
      exact Nat.add_le_add_left hlast _
  omega

/-- A character that is neither a slash nor a dot is in a name that counts. -/
theorem one_le_counted {cs : List Char} {c : Char} (hc : c ∈ cs) (hslash : c ≠ '/')
    (hdot : c ≠ '.') : 1 ≤ ((ofChars cs).names.filter (· != ".")).length := by
  obtain ⟨piece, hpiece, hmem⟩ := Text.exists_mem_piecesAt hslash hc
  have hcounts : counts piece = true := by
    refine counts_iff.mpr ⟨List.ne_nil_of_mem hmem, fun he => ?_⟩
    rw [he] at hmem
    exact hdot (List.mem_singleton.mp hmem)
  rw [counted_names, List.length_map, ofChars, String.toList_ofList]
  exact List.length_pos_of_mem (List.mem_filter.mpr ⟨hpiece, hcounts⟩)

/-- **Behind a name and an underscore, a text stays in the directory exactly if no slash is in
it.** -/
theorem join_liesIn_iff {front e : String} (hfront : '/' ∉ front.toList)
    (he : EndsInName e.toList) (base : Path) :
    (base.join (front ++ "_" ++ e)).LiesIn base ↔ '/' ∉ e.toList := by
  have htext : (front ++ "_" ++ e).toList = (front.toList ++ ['_']) ++ e.toList := by
    rw [String.toList_append, String.toList_append]
    rfl
  have hends : EndsInName (front ++ "_" ++ e).toList := htext ▸ he.behind _
  constructor
  · intro hlies hslash
    obtain ⟨before, after, hsplit⟩ := List.append_of_mem hslash
    obtain ⟨c, hc, hcslash, hcdot⟩ := he
    have hafter : c ∈ after := by
      rw [hsplit, List.getLast?_append] at hc
      cases after with
      | nil => exact absurd (Option.some.inj hc).symm hcslash
      | cons d rest => exact List.mem_of_getLast? (by simpa using hc)
    have hrelative : (Path.mk (front ++ "_" ++ e)).isAbsolute = false := by
      rw [isAbsolute, htext]
      cases hchars : front.toList with
      | nil => rfl
      | cons d rest =>
        have hd : d ≠ '/' := fun hd => hfront (hchars ▸ hd ▸ List.mem_cons_self)
        simpa using hd
    refine not_liesIn_join hrelative hends ?_ hlies
    have hname : Path.mk (front ++ "_" ++ e) =
        ofChars ((front.toList ++ ['_'] ++ before) ++ '/' :: after) := by
      rw [List.append_assoc, ← hsplit, ← htext, ofChars, String.ofList_toList]
    rw [hname, names_append_sep, List.filter_append, List.length_append]
    have hunderscore : '_' ∈ front.toList ++ ['_'] ++ before := by simp
    have hfirst := one_le_counted hunderscore (by decide) (by decide)
    have hsecond := one_le_counted hafter hcslash hcdot
    omega
  · intro hslash
    refine liesIn_join ?_ hends base
    rw [htext]
    simp [hfront, hslash]

end Path

end Disclosure
