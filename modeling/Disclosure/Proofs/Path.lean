import Disclosure.Path
import Disclosure.Proofs.FileSystem
import Disclosure.Proofs.Text.Split

/-!
# How the text of a path decides where it leads

Job files are named by writing texts one behind the other: a directory, the name of a job, an
underscore, the name of a column, an ending. Some of these texts come from people and may hold
slashes, so a name can fall apart into several.

Two facts about cutting at slashes carry everything here. A text behind another one goes on with
the other's last piece (`Text.piecesAt_append`), and opens new pieces only at its own slashes. And
an ending without a slash stays at the end of the last name, so paths with different endings lead to
different places however they begin.
-/

namespace Disclosure

namespace Path

/-! ## Paths that say the same -/

/-- A name that leads on: it is not empty and not a single dot. -/
def counts (piece : List Char) : Bool :=
  piece != [] && piece != ['.']

/-- Two paths are the same when the same names lead on in both, in the same order, from the same
start. How many slashes stand between the names does not matter. -/
def SameAs (p q : Path) : Prop :=
  p.isAbsolute = q.isAbsolute ∧ p.names.filter (· != ".") = q.names.filter (· != ".")

instance (p q : Path) : Decidable (p.SameAs q) :=
  inferInstanceAs (Decidable (_ ∧ _))

theorem SameAs.refl (p : Path) : p.SameAs p := ⟨rfl, rfl⟩

theorem counts_iff {piece : List Char} : counts piece = true ↔ piece ≠ [] ∧ piece ≠ ['.'] := by
  simp [counts]

theorem counted_names (p : Path) :
    p.names.filter (· != ".") =
      ((Text.piecesAt '/' p.text.toList).filter counts).map String.ofList := by
  rw [names, Text.splitAt, List.filter_filter, List.filter_map]
  congr 1
  refine List.filter_congr fun piece _ => Bool.eq_iff_iff.mpr ?_
  have hdot : String.ofList piece = "." ↔ piece = ['.'] := by
    rw [← String.toList_inj, String.toList_ofList]; rfl
  simp [counts, hdot, And.comm]

theorem sameAs_iff {p q : Path} :
    p.SameAs q ↔ p.isAbsolute = q.isAbsolute ∧
      (Text.piecesAt '/' p.text.toList).filter counts =
        (Text.piecesAt '/' q.text.toList).filter counts := by
  rw [SameAs, counted_names, counted_names]
  exact and_congr_right fun _ =>
    List.map_inj_right fun a b h => by simpa using congrArg String.toList h

theorem text_inj : ∀ {p q : Path}, p.text = q.text → p = q
  | ⟨_⟩, ⟨_⟩, h => congrArg Path.mk h

theorem eq_of_text {p : Path} {cs : List Char} (h : p.text.toList = cs) :
    p = ⟨String.ofList cs⟩ := by
  obtain ⟨text⟩ := p
  rw [← h, String.ofList_toList]

/-- The pieces that a text adds where it goes on behind another: the first one as it is, as it only
ends a piece, and of the others those that lead on. -/
def continued (cs : List Char) : List (List Char) :=
  match Text.piecesAt '/' cs with
  | [] => []
  | head :: tail => head :: tail.filter counts

theorem continued_of_pieces {cs head : List Char} {tail : List (List Char)}
    (h : Text.piecesAt '/' cs = head :: tail) : continued cs = head :: tail.filter counts := by
  rw [continued, h]

theorem continued_of_not_mem {cs : List Char} (h : '/' ∉ cs) : continued cs = [cs] :=
  continued_of_pieces (Text.piecesAt_of_not_mem h)

/-- A text behind a lead adds its pieces to those of the lead. -/
theorem counted_append {lead cs head : List Char} {tail : List (List Char)}
    (h : Text.piecesAt '/' cs = head :: tail)
    (hjoint : counts (Text.lastPiece '/' lead ++ head) = true) :
    (Text.piecesAt '/' (lead ++ cs)).filter counts =
      (Text.piecesAt '/' lead).dropLast.filter counts ++
        (Text.lastPiece '/' lead ++ head) :: tail.filter counts := by
  obtain ⟨init, hlead, hall⟩ := Text.piecesAt_append '/' cs h lead
  have hdrop : (Text.piecesAt '/' lead).dropLast = init := by
    rw [hlead, List.dropLast_concat]
  rw [hdrop, hall, List.filter_append, List.filter_cons_of_pos hjoint]

/-- Whether a text starts at the root is decided by its lead, unless there is none. -/
theorem isAbsolute_append {lead cs head : List Char} {tail : List (List Char)}
    (h : Text.piecesAt '/' cs = head :: tail)
    (hjoint : counts (Text.lastPiece '/' lead ++ head) = true) :
    (Path.mk (String.ofList (lead ++ cs))).isAbsolute = (lead.head? == some '/') := by
  rw [isAbsolute, String.toList_ofList]
  cases lead with
  | cons c rest => rfl
  | nil =>
    cases cs with
    | nil => rfl
    | cons c rest =>
      by_cases hc : c = '/'
      · -- behind no lead a slash would leave an empty first piece, which does not count
        subst hc
        rw [Text.piecesAt_cons_self] at h
        injection h with hhead _
        rw [← hhead] at hjoint
        exact absurd hjoint (by decide)
      · simpa using hc

/-- **Behind one lead, texts make the same path exactly if they go on in the same way.** -/
theorem sameAs_append_iff {lead cs ds : List Char} {c d : List Char} {cs' ds' : List (List Char)}
    (hc : Text.piecesAt '/' cs = c :: cs') (hd : Text.piecesAt '/' ds = d :: ds')
    (hjc : counts (Text.lastPiece '/' lead ++ c) = true)
    (hjd : counts (Text.lastPiece '/' lead ++ d) = true) :
    (Path.mk (String.ofList (lead ++ cs))).SameAs ⟨String.ofList (lead ++ ds)⟩ ↔
      continued cs = continued ds := by
  rw [sameAs_iff, isAbsolute_append hc hjc, isAbsolute_append hd hjd, String.toList_ofList,
    String.toList_ofList, counted_append hc hjc, counted_append hd hjd, continued_of_pieces hc,
    continued_of_pieces hd]
  simp

/-! ## Joining -/

/-- What a name is written behind when it is joined to a path. -/
def lead (base : Path) : List Char :=
  if base.text.isEmpty || base.endsInSlash then base.text.toList else base.text.toList ++ ['/']

theorem lastPiece_lead (base : Path) : Text.lastPiece '/' base.lead = [] := by
  rw [lead]
  split
  · rename_i h
    rw [Bool.or_eq_true] at h
    rcases h with h | h
    · have hnil : base.text.toList = [] := by simpa using h
      rw [hnil]; rfl
    · obtain ⟨init, hinit⟩ := List.getLast?_eq_some_iff.mp (by simpa [endsInSlash] using h)
      rw [hinit]
      exact Text.lastPiece_append_sep init
  · exact Text.lastPiece_append_sep _

theorem text_join {base : Path} {name : String} (h : (Path.mk name).isAbsolute = false) :
    (base.join name).text.toList = base.lead ++ name.toList := by
  rw [join, if_neg (by simp [h]), lead]
  split
  · exact String.toList_append
  · rw [String.toList_append, String.toList_append]; rfl

/-- A path below a name is written behind the same lead, with the name in between. -/
theorem lead_join {base : Path} {name : String} (hname : (Path.mk name).isAbsolute = false)
    (hslash : (Path.mk name).endsInSlash = false) (hne : name.toList ≠ []) :
    (base.join name).lead = base.lead ++ (name.toList ++ ['/']) := by
  have htext : (base.join name).text.toList = base.lead ++ name.toList := text_join hname
  have hend : (base.join name).endsInSlash = false := by
    obtain ⟨c, hc⟩ := Option.isSome_iff_exists.mp (List.getLast?_isSome.mpr hne)
    rw [endsInSlash, htext, List.getLast?_append, hc]
    rw [endsInSlash, hc] at hslash
    exact hslash
  have hnonempty : (base.join name).text.isEmpty = false := by
    have hnil : (base.join name).text.toList ≠ [] := by
      rw [htext]
      exact fun h => hne (List.append_eq_nil_iff.mp h).2
    simpa using hnil
  rw [lead, hend, hnonempty, htext, List.append_assoc]
  rfl

theorem suffix_join (base : Path) (name : String) :
    name.toList <:+ (base.join name).text.toList := by
  rw [join]
  split
  · exact List.suffix_rfl
  · split
    · rw [String.toList_append]; exact List.suffix_append _ _
    · rw [String.toList_append]; exact List.suffix_append _ _

/-! ## Endings -/

/-- An ending stays in one name and keeps that name from being dots alone. -/
def IsEnding (ending : List Char) : Prop :=
  '/' ∉ ending ∧ ∃ c ∈ ending, c ≠ '.'

instance (ending : List Char) : Decidable (IsEnding ending) :=
  decidable_of_iff ('/' ∉ ending ∧ ending.any (· != '.') = true)
    (and_congr_right fun _ => by simp [List.any_eq_true])

theorem IsEnding.ne_dots {ending : List Char} (h : IsEnding ending) (piece : List Char) :
    piece ++ ending ≠ [] ∧ piece ++ ending ≠ ['.'] ∧ piece ++ ending ≠ ['.', '.'] := by
  obtain ⟨_, c, hc, hdot⟩ := h
  have hmem : c ∈ piece ++ ending := List.mem_append_right _ hc
  refine ⟨fun he => ?_, fun he => ?_, fun he => ?_⟩ <;> rw [he] at hmem <;> simp [hdot] at hmem

/-- The last name of a path has the ending of the path. -/
theorem names_of_ending {p : Path} {ending : List Char} (he : IsEnding ending)
    (h : ending <:+ p.text.toList) :
    ∃ init piece, p.names = init ++ [String.ofList (piece ++ ending)] := by
  obtain ⟨front, hfront⟩ := h
  obtain ⟨init, _, hall⟩ :=
    Text.piecesAt_append '/' ending (Text.piecesAt_of_not_mem he.1) front
  have hne : (!(String.ofList (Text.lastPiece '/' front ++ ending)).isEmpty) = true := by
    simpa using (he.ne_dots (Text.lastPiece '/' front)).1
  refine ⟨(init.map String.ofList).filter (!·.isEmpty), Text.lastPiece '/' front, ?_⟩
  rw [names, Text.splitAt, ← hfront, hall, List.map_append, List.filter_append, List.map_singleton,
    List.filter_cons_of_pos (p := fun name : String => !name.isEmpty) hne, List.filter_nil]

theorem suffix_unique {cs ds e e' : List Char} (hlen : e.length = e'.length) (hne : e ≠ e') :
    String.ofList (cs ++ e) ≠ String.ofList (ds ++ e') := fun h => by
  have hl : cs ++ e = ds ++ e' := by simpa using congrArg String.toList h
  exact hne (List.append_inj' hl hlen).2

/-- **Paths with different endings are different**, however they begin. -/
theorem not_sameAs_of_endings {p q : Path} {e e' : List Char} (he : IsEnding e)
    (he' : IsEnding e') (hlen : e.length = e'.length) (hne : e ≠ e') (hp : e <:+ p.text.toList)
    (hq : e' <:+ q.text.toList) : ¬ p.SameAs q := by
  rintro ⟨_, hnames⟩
  obtain ⟨init, piece, hpn⟩ := names_of_ending he hp
  obtain ⟨init', piece', hqn⟩ := names_of_ending he' hq
  have hdot : ∀ {cs e : List Char}, IsEnding e → (String.ofList (cs ++ e) != ".") = true := by
    intro cs e he
    have hnd := (he.ne_dots cs).2.1
    simpa [← String.toList_inj] using hnd
  rw [hpn, hqn, List.filter_append, List.filter_append,
    List.filter_cons_of_pos (p := fun name => name != ".") (hdot he),
    List.filter_cons_of_pos (p := fun name => name != ".") (hdot he'), List.filter_nil] at hnames
  exact suffix_unique hlen hne (List.singleton_inj.mp (List.append_inj' hnames rfl).2)

/-! ## Texts that never lead up -/

/-- No piece of the text leads up. -/
def Straight (cs : List Char) : Prop :=
  ∀ piece ∈ Text.piecesAt '/' cs, piece ≠ ['.', '.']

theorem straight_of_ending {cs : List Char} (h : IsEnding cs) : Straight cs := by
  intro piece hpiece
  rw [Text.piecesAt_of_not_mem h.1, List.mem_singleton] at hpiece
  exact hpiece ▸ (h.ne_dots []).2.2

theorem Straight.append_ending {cs ending : List Char} (h : Straight cs) (he : IsEnding ending) :
    Straight (cs ++ ending) := by
  obtain ⟨init, hcs, hall⟩ :=
    Text.piecesAt_append '/' ending (Text.piecesAt_of_not_mem he.1) cs
  intro piece hpiece
  rw [hall] at hpiece
  rcases List.mem_append.mp hpiece with hinit | hlast
  · exact h piece (hcs ▸ List.mem_append_left _ hinit)
  · -- the last piece has grown by the ending
    rw [List.mem_singleton.mp hlast]
    exact (he.ne_dots _).2.2

theorem Straight.behind {cs front : List Char} (h : Straight cs) (hf : IsEnding front) :
    Straight (front ++ cs) := by
  obtain ⟨head, tail, hcs⟩ := List.exists_cons_of_ne_nil (Text.piecesAt_ne_nil '/' cs)
  intro piece hpiece
  rw [Text.piecesAt_append_of_not_mem hf.1 hcs] at hpiece
  rcases List.mem_cons.mp hpiece with rfl | htail
  · obtain ⟨c, hc, hdot⟩ := hf.2
    intro hup
    have hmem : c ∈ front ++ head := List.mem_append_left _ hc
    rw [hup] at hmem
    simp [hdot] at hmem
  · exact h piece (hcs ▸ List.mem_cons_of_mem _ htail)

theorem Straight.below {cs name : List Char} (h : Straight cs) (hn : IsEnding name) :
    Straight (name ++ '/' :: cs) := by
  intro piece hpiece
  rw [Text.piecesAt_append_sep _ hn.1] at hpiece
  rcases List.mem_cons.mp hpiece with rfl | hrest
  · exact (hn.ne_dots []).2.2
  · exact h piece hrest

/-- A text never leads up if no name in it is a double dot. -/
theorem straight_iff {text : String} :
    Straight text.toList ↔ ".." ∉ (Path.mk text).names := by
  constructor
  · intro h hup
    obtain ⟨piece, hpiece, hname⟩ := List.mem_map.mp (List.mem_filter.mp hup).1
    exact h piece hpiece (by simpa using congrArg String.toList hname)
  · intro h piece hpiece hup
    refine h (List.mem_filter.mpr ⟨List.mem_map.mpr ⟨piece, hpiece, ?_⟩, by decide⟩)
    rw [hup]

end Path

namespace FileSystem

theorem resolve_append : ∀ (place : Location) (names more : List String),
    resolve place (names ++ more) = resolve (resolve place names) more
  | _, [], _ => rfl
  | place, name :: rest, more => by
    rw [List.cons_append, resolve_cons, resolve_cons]
    exact resolve_append _ rest more

/-- The location that a path leads to ends in the ending of the path. -/
theorem target_of_ending (fs : FileSystem) {p : Path} {ending : List Char}
    (he : Path.IsEnding ending) (h : ending <:+ p.text.toList) :
    ∃ init piece, fs.target p = init ++ [String.ofList (piece ++ ending)] := by
  obtain ⟨names, piece, hnames⟩ := Path.names_of_ending he h
  obtain ⟨_, hdot, hup⟩ := he.ne_dots piece
  have hdot' : String.ofList (piece ++ ending) ≠ "." := by
    simpa [← String.toList_inj] using hdot
  have hup' : String.ofList (piece ++ ending) ≠ ".." := by
    simpa [← String.toList_inj] using hup
  refine ⟨resolve (fs.start p) names, piece, ?_⟩
  rw [target, hnames, resolve_append, resolve, if_neg hdot', if_neg hup', resolve]

/-- **Paths with different endings never lead to one file.** -/
theorem target_ne_of_endings {fs : FileSystem} {p q : Path} {e e' : List Char}
    (he : Path.IsEnding e) (he' : Path.IsEnding e') (hlen : e.length = e'.length) (hne : e ≠ e')
    (hp : e <:+ p.text.toList) (hq : e' <:+ q.text.toList) : fs.target p ≠ fs.target q := by
  intro htarget
  obtain ⟨init, piece, hpt⟩ := target_of_ending fs he hp
  obtain ⟨init', piece', hqt⟩ := target_of_ending fs he' hq
  rw [hpt, hqt] at htarget
  exact Path.suffix_unique hlen hne (List.singleton_inj.mp (List.append_inj' htarget rfl).2)

/-! ## The same path and the same place -/

theorem resolve_filter : ∀ (place : Location) (names : List String),
    resolve place (names.filter (· != ".")) = resolve place names
  | _, [] => rfl
  | place, name :: rest => by
    by_cases hdot : name = "."
    · subst hdot
      rw [List.filter_cons_of_neg (by simp), resolve, if_pos rfl]
      exact resolve_filter place rest
    · rw [List.filter_cons_of_pos (by simpa using hdot), resolve_cons, resolve_cons]
      exact resolve_filter _ rest

/-- Names without dots go straight down. -/
theorem resolve_straight : ∀ (place : Location) {names : List String},
    (∀ name ∈ names, name ≠ "." ∧ name ≠ "..") → resolve place names = place ++ names
  | place, [], _ => (List.append_nil place).symm
  | place, name :: rest, h => by
    obtain ⟨hdot, hup⟩ := h name List.mem_cons_self
    rw [resolve, if_neg hdot, if_neg hup,
      resolve_straight _ fun other hm => h other (List.mem_cons_of_mem _ hm), List.append_assoc]
    rfl

/-- **Behind one lead, paths that never go up lead to one place only if they are the same.** -/
theorem target_append_iff {fs : FileSystem} {lead cs ds c d : List Char}
    {cs' ds' : List (List Char)} (hc : Text.piecesAt '/' cs = c :: cs')
    (hd : Text.piecesAt '/' ds = d :: ds')
    (hjc : Path.counts (Text.lastPiece '/' lead ++ c) = true)
    (hjd : Path.counts (Text.lastPiece '/' lead ++ d) = true)
    (huc : ∀ piece ∈ (Text.lastPiece '/' lead ++ c) :: cs', piece ≠ ['.', '.'])
    (hud : ∀ piece ∈ (Text.lastPiece '/' lead ++ d) :: ds', piece ≠ ['.', '.']) :
    fs.target ⟨String.ofList (lead ++ cs)⟩ = fs.target ⟨String.ofList (lead ++ ds)⟩ ↔
      Path.continued cs = Path.continued ds := by
  -- the lead is followed to some location, and from there the rest goes straight down
  have htarget : ∀ {es e : List Char} {es' : List (List Char)}, Text.piecesAt '/' es = e :: es' →
      Path.counts (Text.lastPiece '/' lead ++ e) = true →
      (∀ piece ∈ (Text.lastPiece '/' lead ++ e) :: es', piece ≠ ['.', '.']) →
      fs.target ⟨String.ofList (lead ++ es)⟩ =
        resolve (if lead.head? == some '/' then [] else fs.here)
          (((Text.piecesAt '/' lead).dropLast.filter Path.counts).map String.ofList) ++
          ((Text.lastPiece '/' lead ++ e) :: es'.filter Path.counts).map String.ofList := by
    intro es e es' he hje hue
    rw [target, ← resolve_filter, Path.counted_names, String.toList_ofList,
      Path.counted_append he hje, List.map_append, resolve_append, start,
      Path.isAbsolute_append he hje]
    refine resolve_straight _ fun name hname => ?_
    obtain ⟨piece, hpiece, rfl⟩ := List.mem_map.mp hname
    have hcounts : Path.counts piece = true := by
      rcases List.mem_cons.mp hpiece with rfl | hmem
      · exact hje
      · exact (List.mem_filter.mp hmem).2
    have hup : piece ≠ ['.', '.'] := hue piece <| by
      rcases List.mem_cons.mp hpiece with rfl | hmem
      · exact List.mem_cons_self
      · exact List.mem_cons_of_mem _ (List.mem_filter.mp hmem).1
    exact ⟨fun h => (Path.counts_iff.mp hcounts).2 (by simpa using congrArg String.toList h),
      fun h => hup (by simpa using congrArg String.toList h)⟩
  rw [htarget hc hjc huc, htarget hd hjd hud, List.append_cancel_left_eq,
    List.map_inj_right fun a b h => by simpa using congrArg String.toList h,
    Path.continued_of_pieces hc, Path.continued_of_pieces hd, List.cons.injEq, List.cons.injEq,
    List.append_cancel_left_eq]

end FileSystem

/-! ## Names with a common front -/

namespace Path

/-- What stands before the underscore is the lead of all that can stand behind it. -/
theorem exists_lead (base : Path) (front : String) : ∃ lead : List Char, ∀ e : String,
    (base.join (front ++ "_" ++ e)).text.toList = lead ++ '_' :: e.toList := by
  have hhead : ∀ e : String,
      (Path.mk (front ++ "_" ++ e)).isAbsolute = (Path.mk (front ++ "_")).isAbsolute := by
    intro e
    rw [isAbsolute, isAbsolute, String.toList_append, String.toList_append]
    cases front.toList <;> rfl
  have htext : ∀ e : String, (front ++ "_" ++ e).toList = front.toList ++ '_' :: e.toList := by
    intro e
    rw [String.toList_append, String.toList_append, List.append_assoc]
    rfl
  -- an absolute name stands for itself, so the base drops out
  cases habs : (Path.mk (front ++ "_")).isAbsolute with
  | true =>
    refine ⟨front.toList, fun e => ?_⟩
    rw [join, if_pos ((hhead e).trans habs)]
    exact htext e
  | false =>
    refine ⟨base.lead ++ front.toList, fun e => ?_⟩
    rw [text_join ((hhead e).trans habs), htext, List.append_assoc]

theorem continued_underscore {e e' : List Char} :
    continued ('_' :: e) = continued ('_' :: e') ↔ continued e = continued e' := by
  obtain ⟨head, tail, he⟩ := List.exists_cons_of_ne_nil (Text.piecesAt_ne_nil '/' e)
  obtain ⟨head', tail', he'⟩ := List.exists_cons_of_ne_nil (Text.piecesAt_ne_nil '/' e')
  rw [continued_of_pieces (Text.piecesAt_cons_of_ne (by decide) he),
    continued_of_pieces (Text.piecesAt_cons_of_ne (by decide) he'), continued_of_pieces he,
    continued_of_pieces he']
  simp

theorem counts_underscore (front e : List Char) : counts (front ++ '_' :: e) = true := by
  have hmem : '_' ∈ front ++ '_' :: e := List.mem_append_right _ List.mem_cons_self
  refine counts_iff.mpr ⟨List.ne_nil_of_mem hmem, fun h => ?_⟩
  rw [h] at hmem
  exact absurd hmem (by decide)

/-- **Behind a common front, names make the same path exactly if they go on in the same way.** -/
theorem join_sameAs_iff (base : Path) (front e e' : String) :
    (base.join (front ++ "_" ++ e)).SameAs (base.join (front ++ "_" ++ e')) ↔
      continued e.toList = continued e'.toList := by
  obtain ⟨lead, hlead⟩ := exists_lead base front
  obtain ⟨head, tail, he⟩ := List.exists_cons_of_ne_nil (Text.piecesAt_ne_nil '/' e.toList)
  obtain ⟨head', tail', he'⟩ := List.exists_cons_of_ne_nil (Text.piecesAt_ne_nil '/' e'.toList)
  rw [eq_of_text (hlead e), eq_of_text (hlead e'),
    sameAs_append_iff (Text.piecesAt_cons_of_ne (by decide) he)
      (Text.piecesAt_cons_of_ne (by decide) he') (counts_underscore _ _) (counts_underscore _ _),
    continued_underscore]

/-- Behind a common front, names that never lead up make one place only if they go on in the same
way. -/
theorem join_target_iff {fs : FileSystem} (base : Path) (front : String) {e e' : String}
    (hs : Straight e.toList) (hs' : Straight e'.toList) :
    fs.target (base.join (front ++ "_" ++ e)) = fs.target (base.join (front ++ "_" ++ e')) ↔
      continued e.toList = continued e'.toList := by
  obtain ⟨lead, hlead⟩ := exists_lead base front
  have hup : ∀ {cs head : List Char} {tail : List (List Char)},
      Text.piecesAt '/' cs = head :: tail → Straight cs →
      ∀ piece ∈ (Text.lastPiece '/' lead ++ '_' :: head) :: tail, piece ≠ ['.', '.'] := by
    intro cs head tail hcs hstraight piece hpiece
    rcases List.mem_cons.mp hpiece with rfl | htail
    · intro h
      have hmem : '_' ∈ Text.lastPiece '/' lead ++ '_' :: head :=
        List.mem_append_right _ List.mem_cons_self
      rw [h] at hmem
      exact absurd hmem (by decide)
    · exact hstraight piece (hcs ▸ List.mem_cons_of_mem _ htail)
  obtain ⟨head, tail, he⟩ := List.exists_cons_of_ne_nil (Text.piecesAt_ne_nil '/' e.toList)
  obtain ⟨head', tail', he'⟩ := List.exists_cons_of_ne_nil (Text.piecesAt_ne_nil '/' e'.toList)
  rw [eq_of_text (hlead e), eq_of_text (hlead e'),
    FileSystem.target_append_iff (Text.piecesAt_cons_of_ne (by decide) he)
      (Text.piecesAt_cons_of_ne (by decide) he') (counts_underscore _ _) (counts_underscore _ _)
      (hup he hs) (hup he' hs'), continued_underscore]

end Path

end Disclosure
