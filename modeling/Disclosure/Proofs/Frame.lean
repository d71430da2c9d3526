import Disclosure.Frame.Reading
import Disclosure.Proofs.Fault
import Mathlib.Data.List.Nodup

/-!
# What all frames have in common

A frame is made from columns of different names and one height, or not at all. A data file that is
read comes to a frame in the same way.
-/

namespace Disclosure

@[simp] theorem Values.length_toList (v : Values) : v.toList.length = v.size := by
  cases v <;> exact List.length_map _

@[simp] theorem AnyValues.length_cells (v : AnyValues) : v.cells.length = v.size := by
  cases v with
  | known values => rw [cells, size, List.length_map, Values.length_toList]
  | foreign values => exact List.length_map _

namespace Frame

section

variable {κ : Type} [FrameColumn κ]

/-- Columns of different names and one height. -/
structure Sound (f : Frame κ) : Prop where
  /-- No name occurs twice. -/
  names : f.names.Nodup
  /-- Every column is as high as the frame. -/
  size_eq : ∀ s ∈ f.columns, (FrameColumn.view s.values).size = f.height

theorem nodup_of_repeated? : ∀ {names : List String}, repeated? names = none → names.Nodup
  | [], _ => .nil
  | name :: rest, h => by
    rw [repeated?] at h
    split at h
    · exact absurd h (by simp)
    · rename_i hnew
      exact List.nodup_cons.mpr ⟨by simpa using hnew, nodup_of_repeated? h⟩

/-- A frame that is made has the columns that were given, and they fit together. -/
theorem ofSeries_inversion {columns : List (Series κ)} {f : Frame κ}
    (h : ofSeries columns = .ok f) : f.columns = columns ∧ f.Sound := by
  rw [ofSeries] at h
  split at h
  · exact nomatch h
  · rename_i hnew
    split at h
    · rename_i hsize
      obtain rfl : (⟨columns⟩ : Frame κ) = f := Except.ok.inj h
      exact ⟨rfl, nodup_of_repeated? hnew, by simpa using hsize⟩
    · exact nomatch h

theorem find?_eq_some_iff {f : Frame κ} (hf : f.Sound) {name : String} {s : Series κ} :
    f.find? name = some s ↔ s ∈ f.columns ∧ s.name = name := by
  constructor
  · intro h
    exact ⟨List.mem_of_find?_eq_some h, by simpa using List.find?_some h⟩
  · rintro ⟨hmem, rfl⟩
    obtain ⟨found, hfound⟩ : ∃ found, f.find? s.name = some found :=
      Option.isSome_iff_exists.mp (List.find?_isSome.mpr ⟨s, hmem, by simp⟩)
    have hname : found.name = s.name := by simpa using List.find?_some hfound
    rw [hfound, List.inj_on_of_nodup_map hf.names (List.mem_of_find?_eq_some hfound) hmem hname]

end

theorem exists_of_mem_mapM {α β : Type} {f : α → Option β} :
    ∀ {xs : List α} {ys : List β}, xs.mapM f = some ys → ∀ y ∈ ys, ∃ x ∈ xs, f x = some y
  | [], _, h, y, hy => by
    obtain rfl := Option.some.inj h
    exact absurd hy List.not_mem_nil
  | x :: rest, _, h, y, hy => by
    simp only [List.mapM_cons, Option.bind_eq_bind, Option.bind_eq_some_iff] at h
    obtain ⟨first, hfirst, others, hothers, heq⟩ := h
    obtain rfl := Option.some.inj heq
    rcases List.mem_cons.mp hy with rfl | hy
    · exact ⟨x, List.mem_cons_self, hfirst⟩
    · obtain ⟨x', hx', hread⟩ := exists_of_mem_mapM hothers y hy
      exact ⟨x', List.mem_cons_of_mem _ hx', hread⟩

theorem exists_mem_of_mapM {α β : Type} {f : α → Option β} :
    ∀ {xs : List α} {ys : List β}, xs.mapM f = some ys → ∀ x ∈ xs, ∃ y ∈ ys, f x = some y
  | [], _, _, x, hx => absurd hx List.not_mem_nil
  | first :: rest, _, h, x, hx => by
    simp only [List.mapM_cons, Option.bind_eq_bind, Option.bind_eq_some_iff] at h
    obtain ⟨found, hfound, others, hothers, heq⟩ := h
    obtain rfl := Option.some.inj heq
    rcases List.mem_cons.mp hx with rfl | hx
    · exact ⟨found, List.mem_cons_self, hfound⟩
    · obtain ⟨y, hy, hread⟩ := exists_mem_of_mapM hothers x hx
      exact ⟨y, List.mem_cons_of_mem _ hy, hread⟩

theorem exists_mapM_eq_some {α β : Type} {f : α → Option β} {xs : List α}
    (h : ∀ x ∈ xs, ∃ y, f x = some y) : ∃ ys, xs.mapM f = some ys := by
  induction xs with
  | nil => exact ⟨[], rfl⟩
  | cons first rest ih =>
    obtain ⟨found, hfound⟩ := h first List.mem_cons_self
    obtain ⟨others, hothers⟩ := ih fun x hx => h x (List.mem_cons_of_mem _ hx)
    exact ⟨found :: others, by simp [List.mapM_cons, hfound, hothers]⟩

/-- Data that is read is made of columns that are read one by one. -/
theorem ofDataFile?_inversion {separator : UInt8} {codes : List String} {content : ByteArray}
    {frame : Frame} (h : ofDataFile? separator codes content = some frame) :
    ∃ rows names series, List.mapM (DataFile.readColumn? codes rows) names = some series ∧
      ofSeries series = .ok frame := by
  unfold ofDataFile? at h
  split at h
  · exact nomatch h
  · simp only [Option.bind_eq_bind, Option.bind_eq_some_iff] at h
    obtain ⟨given, _, h⟩ := h
    split at h
    · exact nomatch h
    · simp only [Option.bind_eq_some_iff] at h
      obtain ⟨columns, hcolumns, h⟩ := h
      exact ⟨_, _, columns, hcolumns, ok_of_toOption h⟩

/-- Columns that are asked for as text hold text. -/
theorem text_of_ofDataFile? {separator : UInt8} {codes : List String} {content : ByteArray}
    {frame : Frame} (h : ofDataFile? separator codes content = some frame) {s : Series}
    (hs : s ∈ frame.columns) (hname : s.name ∈ codes) : ∃ values, s.values = .text values := by
  obtain ⟨rows, names, series, hseries, hframe⟩ := ofDataFile?_inversion h
  rw [(ofSeries_inversion hframe).1] at hs
  obtain ⟨column, _, hread⟩ := exists_of_mem_mapM hseries s hs
  rw [DataFile.readColumn?] at hread
  split at hread
  · obtain ⟨type, htype, hread⟩ := Option.bind_eq_some_iff.mp hread
    obtain rfl := Option.some.inj htype
    obtain ⟨values, hvalues, heq⟩ := Option.bind_eq_some_iff.mp hread
    obtain rfl := Option.some.inj heq
    obtain ⟨texts, _, rfl⟩ := Option.map_eq_some_iff.mp hvalues
    exact ⟨texts, rfl⟩
  · rename_i hcode
    obtain ⟨_, _, hread⟩ := Option.bind_eq_some_iff.mp hread
    obtain ⟨_, _, heq⟩ := Option.bind_eq_some_iff.mp hread
    obtain rfl := Option.some.inj heq
    exact absurd (List.contains_iff_mem.mpr hname) hcode

end Frame

end Disclosure
