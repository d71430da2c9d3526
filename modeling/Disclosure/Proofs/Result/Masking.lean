import Disclosure.Proofs.Result.Cells
import Mathlib.Algebra.BigOperators.Group.List.Basic
import Mathlib.Algebra.GroupWithZero.Nat

/-!
# What a masked table gives away

The statuses and the values of a protected table are two columns of one frame, taken out of it one
by one and put side by side again. They have the height of the frame, so no row is shifted or lost,
and the row of a value is shown by its own status: by the marker if the cell is suppressed, and as
its own text if not.

A value that must not be published stands under a suppressed status only. So it cannot be told from
the masked column: two tables that differ in such values alone are masked alike, whatever the types
of the columns are, and whether a status is a number at all. Where the column of statuses has no
cast to integers, nothing is shown.
-/

namespace Disclosure

/-- The numbers that stand for a suppressed cell. -/
def suppressedCodes : List Int :=
  [3, 4, 5, 6, 9, 11, 12]

theorem CellStatus.isSuppressed_ofCode (code : Int) :
    (ofCode code).isSuppressed = true ↔ code ∈ suppressedCodes := by
  unfold ofCode
  split_ifs <;> simp [isSuppressed, suppressedCodes] <;> omega

theorem CellStatus.isSuppressed_iff (status : CellStatus) :
    status.isSuppressed = true ↔ status = sensitive ∨ status = secondary := by
  cases status <;> simp [isSuppressed]

/-- Every status is counted once, so every cell is. -/
theorem CellStatus.sum_count (statuses : List CellStatus) :
    (all.map statuses.count).sum = statuses.length := by
  induction statuses with
  | nil => rfl
  | cons status rest ih =>
    have hone : (all.map fun counted => if status = counted then 1 else 0).sum = 1 := by
      cases status <;> rfl
    simp only [List.count_cons, List.sum_map_add, ih, beq_iff_eq, hone, List.length_cons]

namespace ProtectedTable

variable {κ : Type} [FrameColumn κ]

/-- The tables that can be made. -/
inductive Reachable : ProtectedTable κ → Prop
  | ofFrame {series : List (Series κ)} {frame : Frame κ} {index : List String} {response : String}
      {t : ProtectedTable κ} : Frame.ofSeries series = .ok frame →
      ProtectedTable.ofFrame frame index response = .ok t → Reachable t

/-- A table that is read is made from a frame. -/
theorem reachable_of_load {fs : FileSystem} {path : Path} {index : List String} {response : String}
    {t : ProtectedTable} (h : load fs path index response = .ok t) : t.Reachable := by
  obtain ⟨frame, hread, h⟩ := Fault.ok_of_bind h
  rw [readFrame] at hread
  split at hread
  · exact nomatch hread
  · split at hread
    · exact nomatch hread
    · rename_i found hfound
      obtain rfl : found = frame := Except.ok.inj hread
      obtain ⟨_, _, _, _, hseries⟩ := Frame.ofDataFile?_inversion hfound
      exact .ofFrame hseries h

theorem reachable_of_ofTable {fs : FileSystem} {table : Table} {t : ProtectedTable}
    (h : ofTable fs table = .ok t) : t.Reachable := by
  rw [ofTable] at h
  split at h
  · exact nomatch h
  · exact reachable_of_load h

/-- A frame of one height that has the columns of the table. -/
structure Sound (t : ProtectedTable κ) : Prop where
  /-- The columns fit together. -/
  frame : t.frame.Sound
  /-- The index, the response and the statuses are there. -/
  columns : ∀ name ∈ t.index ++ [t.response, statusColumn], name ∈ t.frame.names

theorem Reachable.sound {t : ProtectedTable κ} (h : t.Reachable) : t.Sound := by
  obtain @⟨series, frame, index, response, _, hframe, h⟩ := h
  rw [ProtectedTable.ofFrame] at h
  split at h
  · exact nomatch h
  · rename_i hnone
    obtain rfl : (⟨frame, index, response⟩ : ProtectedTable κ) = t := Except.ok.inj h
    rw [missing?, List.find?_eq_none] at hnone
    exact ⟨(Frame.ofSeries_inversion hframe).2, fun name hname => by simpa using hnone name hname⟩

/-! ## The two columns -/

/-- The columns that the statuses and the values of a table are taken from. -/
structure Columns (t : ProtectedTable κ) (status raw : κ) : Prop where
  status_eq : t.column? statusColumn = some status
  raw_eq : t.column? t.response = some raw
  /-- They have a value for every cell. -/
  size_status : (FrameColumn.view status).size = t.size
  size_raw : (FrameColumn.view raw).size = t.size

theorem Sound.exists_column {t : ProtectedTable κ} (h : t.Sound) {name : String}
    (hname : name ∈ t.frame.names) :
    ∃ column, t.column? name = some column ∧ t.frame.find? name = some ⟨name, column⟩ ∧
      (FrameColumn.view column).size = t.size := by
  obtain ⟨s, hs, rfl⟩ := List.mem_map.mp hname
  have hfind : t.frame.find? s.name = some s := (Frame.find?_eq_some_iff h.frame).mpr ⟨hs, rfl⟩
  exact ⟨s.values, congrArg (Option.map _) hfind, hfind, h.frame.size_eq s hs⟩

theorem Sound.exists_columns {t : ProtectedTable κ} (h : t.Sound) :
    ∃ status raw, t.Columns status raw := by
  obtain ⟨status, hstatus, -, hsize⟩ := h.exists_column (h.columns statusColumn (by simp))
  obtain ⟨raw, hraw, -, hsize'⟩ := h.exists_column (h.columns t.response (by simp))
  exact ⟨status, raw, hstatus, hraw, hsize, hsize'⟩

/-- The cell of the response in a row. -/
def cell? (t : ProtectedTable κ) (row : Nat) : Option Cell :=
  (t.column? t.response).bind fun raw => (FrameColumn.view raw).cells[row]?

/-- The masked values as a column, which has the name of the response. -/
def maskedColumn? (t : ProtectedTable κ) (marker : String) : Option Series :=
  (t.maskedValues? marker).map fun texts => ⟨t.response, .text (texts.map some)⟩

namespace Columns

variable {t : ProtectedTable κ} {status raw : κ} (h : t.Columns status raw)

include h

theorem cell?_eq (row : Nat) : t.cell? row = (FrameColumn.view raw).cells[row]? := by
  rw [cell?, h.raw_eq]
  rfl

/-- Without a cast there is nothing to go by. -/
theorem statuses?_eq_none (hcast : ∀ codes, ¬ IsCast (FrameColumn.view status) codes) :
    t.statuses? = none := by
  have hnone : castCodes? (FrameColumn.view status) = none :=
    Option.eq_none_iff_forall_ne_some.mpr fun codes hcodes =>
      hcast codes (castCodes?_eq_some_iff.mp hcodes)
  simp [statuses?, h.status_eq, hnone]

variable {codes : List (Option Int)} (hcast : IsCast (FrameColumn.view status) codes)

include hcast

theorem length_codes : codes.length = t.size := by
  rw [← h.size_status]
  exact hcast.length_eq

theorem statuses?_eq : t.statuses? = some (codes.map statusOf) := by
  simp [statuses?, h.status_eq, castCodes?_eq_some_iff.mpr hcast]

/-- What is shown in a row comes from the status and the value of that row. -/
theorem maskedValues?_eq (marker : String) :
    t.maskedValues? marker = some (codes.mapIdx fun row code =>
      maskedText marker (statusOf code) ((t.cell? row).getD (.value .missing))) := by
  simp only [maskedValues?, h.raw_eq, h.statuses?_eq hcast, h.cell?_eq]
  refine congrArg some (List.ext_getElem? fun row => ?_)
  rw [List.getElem?_mapIdx, List.getElem?_mapIdx, List.getElem?_map, Option.map_map]
  rfl

end Columns

/-! ## Two tables -/

/-- Two tables that differ, if at all, in values that must not be published. -/
structure SamePublished (s t : ProtectedTable κ) : Prop where
  /-- The response has the same name. -/
  response : s.response = t.response
  /-- The statuses are the same. -/
  status : s.column? statusColumn = t.column? statusColumn
  /-- A value is the same wherever its cell is neither unsafe nor secondary unsafe. -/
  values : ∀ statuses, t.statuses? = some statuses → ∀ (row : Nat) (status : CellStatus),
    statuses[row]? = some status → status ≠ .sensitive → status ≠ .secondary →
    s.cell? row = t.cell? row

/-- A cell that is suppressed is shown alike whatever its value is. -/
theorem maskedText_congr (marker : String) {status : CellStatus} {cell other : Cell}
    (h : status ≠ .sensitive → status ≠ .secondary → cell = other) :
    maskedText marker status cell = maskedText marker status other := by
  unfold maskedText
  split
  · rfl
  · rename_i hnot
    rw [CellStatus.isSuppressed_iff, not_or] at hnot
    rw [h hnot.1 hnot.2]

/-- Suppressed values cannot be told from what is shown. -/
theorem SamePublished.maskedColumn?_eq {s t : ProtectedTable κ} (hs : s.Sound) (ht : t.Sound)
    (h : s.SamePublished t) (marker : String) :
    s.maskedColumn? marker = t.maskedColumn? marker := by
  obtain ⟨status, raw, hcolumns⟩ := ht.exists_columns
  obtain ⟨status', raw', hcolumns'⟩ := hs.exists_columns
  obtain rfl : status' = status :=
    Option.some.inj (hcolumns'.status_eq.symm.trans (h.status.trans hcolumns.status_eq))
  rw [maskedColumn?, maskedColumn?, h.response]
  congr 1
  by_cases hcast : ∃ codes, IsCast (FrameColumn.view status') codes
  · obtain ⟨codes, hcast⟩ := hcast
    rw [hcolumns.maskedValues?_eq hcast, hcolumns'.maskedValues?_eq hcast]
    congr 1
    refine List.ext_getElem? fun row => ?_
    rw [List.getElem?_mapIdx, List.getElem?_mapIdx]
    cases hcode : codes[row]? with
    | none => rfl
    | some code =>
      have hrow : (codes.map statusOf)[row]? = some (statusOf code) := by
        rw [List.getElem?_map, hcode]
        rfl
      refine congrArg some (maskedText_congr marker fun hunsafe hsecondary => ?_)
      rw [h.values _ (hcolumns.statuses?_eq hcast) row _ hrow hunsafe hsecondary]
  · have hnone := not_exists.mp hcast
    simp [maskedValues?, hcolumns.raw_eq, hcolumns'.raw_eq, hcolumns.statuses?_eq_none hnone,
      hcolumns'.statuses?_eq_none hnone]

/-! ## The table as it is shown -/

/-- How a cell with a given number is shown. -/
inductive ShownAs (marker : String) : Option Int → Cell → String → Prop
  | suppressed {n : Int} {cell : Cell} : n ∈ suppressedCodes → ShownAs marker (some n) cell marker
  | published {code : Option Int} {cell : Cell} {text : String} :
      (∀ n ∈ suppressedCodes, code ≠ some n) → cell.HasText text → ShownAs marker code cell text

theorem isSuppressed_statusOf (code : Option Int) :
    (statusOf code).isSuppressed = true ↔ ∃ n ∈ suppressedCodes, code = some n := by
  cases code with
  | none => simp [statusOf, CellStatus.isSuppressed]
  | some n => simp [statusOf, CellStatus.isSuppressed_ofCode]

theorem shownAs_maskedText (marker : String) (code : Option Int) (cell : Cell) :
    ShownAs marker code cell (maskedText marker (statusOf code) cell) := by
  unfold maskedText
  split
  · rename_i hsuppressed
    obtain ⟨n, hn, rfl⟩ := (isSuppressed_statusOf code).mp hsuppressed
    exact .suppressed hn
  · rename_i hnot
    exact .published (fun n hn hcode => hnot ((isSuppressed_statusOf code).mpr ⟨n, hn, hcode⟩))
      (hasText_cellText cell)

/-- What is shown of a table, given the numbers of its cells and the column of its values. -/
structure Shows (t : ProtectedTable κ) (codes : List (Option Int)) (raw : κ) (marker : String) :
    Prop where
  /-- Every row is shown, by its own number and its own value. -/
  masked : ∃ texts, t.maskedValues? marker = some texts ∧ texts.length = t.size ∧
    ∀ row < t.size, ∃ code cell text, codes[row]? = some code ∧
      (FrameColumn.view raw).cells[row]? = some cell ∧ texts[row]? = some text ∧
      ShownAs marker code cell text
  /-- Every row is counted once. -/
  counts : ∃ counts, t.statusCounts? = some counts ∧ (counts.map Prod.snd).sum = t.size
  /-- The index and the values that were read are kept, and the masked values are between them. -/
  frame : ∀ f, t.toFrame? marker = some f →
    (∀ name ∈ t.index, f.find? name = t.frame.find? name) ∧
      (f.find? "safe").map (FrameColumn.view ·.values) =
        (t.maskedValues? marker).map (fun texts => .known (.text (texts.map some))) ∧
      f.find? "unsafe" = some ⟨"unsafe", raw⟩

/-- Nothing is shown of a table. -/
structure ShowsNothing (t : ProtectedTable κ) (marker : String) : Prop where
  statuses : t.statuses? = none
  counts : t.statusCounts? = none
  masked : t.maskedValues? marker = none
  frame : t.toFrame? marker = none

variable {t : ProtectedTable κ} {status raw : κ}

theorem Columns.showsNothing (h : t.Columns status raw)
    (hcast : ∀ codes, ¬ IsCast (FrameColumn.view status) codes) (marker : String) :
    t.ShowsNothing marker := by
  have hstatuses := h.statuses?_eq_none hcast
  have hmasked : t.maskedValues? marker = none := by simp [maskedValues?, h.raw_eq, hstatuses]
  exact ⟨hstatuses, by simp [statusCounts?, hstatuses], hmasked,
    by simp [toFrame?, shownColumns?, hmasked]⟩

variable {codes : List (Option Int)}

theorem Columns.exists_masked (h : t.Columns status raw)
    (hcast : IsCast (FrameColumn.view status) codes) (marker : String) :
    ∃ texts, t.maskedValues? marker = some texts ∧ texts.length = t.size ∧
      ∀ row < t.size, ∃ code cell text, codes[row]? = some code ∧
        (FrameColumn.view raw).cells[row]? = some cell ∧ texts[row]? = some text ∧
        ShownAs marker code cell text := by
  have hlength := h.length_codes hcast
  refine ⟨_, h.maskedValues?_eq hcast marker, by rw [List.length_mapIdx, hlength],
    fun row hrow => ?_⟩
  obtain ⟨code, hcode⟩ : ∃ code, codes[row]? = some code :=
    ⟨_, List.getElem?_eq_getElem (hlength.symm ▸ hrow)⟩
  obtain ⟨cell, hcell⟩ : ∃ cell, (FrameColumn.view raw).cells[row]? = some cell :=
    ⟨_, List.getElem?_eq_getElem (by rwa [AnyValues.length_cells, h.size_raw])⟩
  refine ⟨code, cell, _, hcode, hcell, ?_, shownAs_maskedText marker code cell⟩
  rw [List.getElem?_mapIdx, hcode, h.cell?_eq, hcell]
  rfl

theorem Columns.exists_counts (h : t.Columns status raw)
    (hcast : IsCast (FrameColumn.view status) codes) :
    ∃ counts, t.statusCounts? = some counts ∧ (counts.map Prod.snd).sum = t.size := by
  have hlength : (codes.map statusOf).length = t.size := by
    rw [List.length_map, h.length_codes hcast]
  refine ⟨_, by rw [statusCounts?, h.statuses?_eq hcast]; rfl, ?_⟩
  rw [List.map_map]
  exact (CellStatus.sum_count _).trans hlength

/-- A shown table has the index and the values that were read, and the masked values between. -/
theorem Sound.find?_toFrame? (h : t.Sound) (hcolumns : t.Columns status raw) {marker : String}
    {f : Frame κ} (hf : t.toFrame? marker = some f) :
    (∀ name ∈ t.index, f.find? name = t.frame.find? name) ∧
      (f.find? "safe").map (FrameColumn.view ·.values) =
        (t.maskedValues? marker).map (fun texts => .known (.text (texts.map some))) ∧
      f.find? "unsafe" = some ⟨"unsafe", raw⟩ := by
  obtain ⟨columns, hshown, hmade⟩ := Option.bind_eq_some_iff.mp hf
  obtain ⟨rfl, hsound⟩ := Frame.ofSeries_inversion (ok_of_toOption hmade)
  obtain ⟨index, hindex, hshown⟩ := Option.bind_eq_some_iff.mp hshown
  obtain ⟨texts, hmasked, hshown⟩ := Option.bind_eq_some_iff.mp hshown
  obtain ⟨statuses, -, hshown⟩ := Option.bind_eq_some_iff.mp hshown
  obtain ⟨_, hraw, hshown⟩ := Option.bind_eq_some_iff.mp hshown
  obtain rfl := Option.some.inj (hcolumns.raw_eq.symm.trans hraw)
  have hfound : ∀ s ∈ f.columns, f.find? s.name = some s := fun s hs =>
    (Frame.find?_eq_some_iff hsound).mpr ⟨hs, rfl⟩
  rw [← Option.some.inj hshown] at hfound
  refine ⟨fun name hname => ?_, ?_, hfound ⟨"unsafe", raw⟩ (by simp)⟩
  · obtain ⟨s, hs, hread⟩ := Frame.exists_mem_of_mapM hindex name hname
    obtain rfl := ((Frame.find?_eq_some_iff h.frame).mp hread).2
    rw [hread]
    exact hfound s (List.mem_append_left _ hs)
  · rw [hmasked, hfound ⟨"safe", FrameColumn.ofValues (.text (texts.map some))⟩ (by simp)]
    exact congrArg some (FrameColumn.view_ofValues _)

/-- **Masking shows what may be published and nothing else.** Tables that differ in suppressed
values alone cannot be told apart by what is shown, for any marker. If the column of statuses has a
cast to integers, every row is shown: by the marker if its status is the number of a suppressed
cell, and by the text of its value if not, also where the status is missing or no number. Every row
is then counted under one status, and the values that were read are kept as they are, beside what is
shown. Without a cast nothing is shown; the types that data files have are all cast. -/
theorem Reachable.masked_safely {t : ProtectedTable κ} (h : t.Reachable) (marker : String) :
    (∀ s : ProtectedTable κ, s.Reachable → s.SamePublished t →
      s.maskedColumn? marker = t.maskedColumn? marker) ∧
    (∃ status raw, t.Columns status raw ∧
      (∀ codes, IsCast (FrameColumn.view status) codes → t.Shows codes raw marker) ∧
      ((∀ codes, ¬ IsCast (FrameColumn.view status) codes) → t.ShowsNothing marker)) ∧
    ∀ values : Values, ∃ codes, IsCast (.known values) codes := by
  refine ⟨fun s hs hsame => hsame.maskedColumn?_eq hs.sound h.sound marker, ?_, exists_isCast_known⟩
  obtain ⟨status, raw, hcolumns⟩ := h.sound.exists_columns
  exact ⟨status, raw, hcolumns,
    fun codes hcast => ⟨hcolumns.exists_masked hcast marker, hcolumns.exists_counts hcast,
      fun f hf => h.sound.find?_toFrame? hcolumns hf⟩,
    fun hcast => hcolumns.showsNothing hcast marker⟩

/-- Nothing fails that is asked of a table with columns as data files have them, except that two
columns of what is shown may have one name. -/
theorem Reachable.never_fails {t : ProtectedTable} (h : t.Reachable) (marker : String) :
    t.column? t.response = some t.rawValues ∧ t.statuses? = some t.statuses ∧
      t.statusCounts? = some t.statusCounts ∧
      t.maskedValues? marker = some (t.maskedValues marker) ∧
      t.toFrame? marker = (t.toFrame marker).toOption := by
  obtain ⟨status, raw, hcolumns⟩ := h.sound.exists_columns
  obtain ⟨codes, hcast⟩ := exists_isCast_known status
  have hstatuses := hcolumns.statuses?_eq hcast
  obtain ⟨texts, hmasked, -⟩ := hcolumns.exists_masked hcast marker
  obtain ⟨counts, hcounts, -⟩ := hcolumns.exists_counts hcast
  obtain ⟨index, hindex⟩ : ∃ index, t.index.mapM t.frame.find? = some index := by
    refine Frame.exists_mapM_eq_some fun name hname => ?_
    obtain ⟨column, -, hfind, -⟩ :=
      h.sound.exists_column (h.sound.columns name (List.mem_append_left _ hname))
    exact ⟨_, hfind⟩
  have hshown : ∃ columns, t.shownColumns? marker = some columns := by
    simp [shownColumns?, hindex, hmasked, hstatuses, hcolumns.raw_eq]
  obtain ⟨columns, hshown⟩ := hshown
  simp [rawValues, statuses, statusCounts, maskedValues, toFrame, toFrame?, hcolumns.raw_eq,
    hstatuses, hmasked, hcounts, hshown]

/-- Five cells: one that is safe, an unsafe one, one of unknown status and no value, one that
protects the second, and one that is protected. -/
def incomes (statuses : Values) (hidden : Float) : List Series :=
  [⟨"region", .text [some "01", some "02", some "03", some "04", some "05"]⟩,
    ⟨"income", .double [some 1200, some hidden, none, some (-hidden), some 350.5]⟩,
    ⟨statusColumn, statuses⟩]

/-- The table of the five cells. -/
def incomeTable (statuses : Values) (hidden : Float) : ProtectedTable :=
  ⟨⟨incomes statuses hidden⟩, ["region"], "income"⟩

/-- Their statuses as integers. -/
def statusNumbers : Values :=
  .integer .i64 [some 1, some 9, none, some 11, some 10]

/-- Their statuses as text. -/
def statusTexts : Values :=
  .text [some "1", some "9", some "n/a", some "+11", some "10"]

section

variable {statuses : Values}
  (hcodes : castCodes? (.known statuses) = some [some 1, some 9, none, some 11, some 10])

include hcodes

theorem reachable_incomeTable (hidden : Float) : (incomeTable statuses hidden).Reachable := by
  have hsize : 5 = statuses.size := (castCodes?_eq_some_iff.mp hcodes).length_eq
  have hheight : ((incomes statuses hidden).all fun series =>
      (FrameColumn.view series.values).size = 5) = true := by
    change (true && (true && (decide (statuses.size = 5) && true))) = true
    simp [← hsize]
  exact @Reachable.ofFrame _ _ (incomes statuses hidden) ⟨incomes statuses hidden⟩ ["region"]
    "income" _ (if_pos hheight) rfl

theorem samePublished_incomeTable (hidden other : Float) :
    (incomeTable statuses hidden).SamePublished (incomeTable statuses other) := by
  refine ⟨rfl, rfl, fun decoded hdecoded row status hstatus hunsafe hsecondary => ?_⟩
  have hstatuses : (incomeTable statuses other).statuses? =
      some [.safe, .sensitive, .unknown, .secondary, .guarded] := by
    change (castCodes? (.known statuses)).bind (fun codes => some (codes.map statusOf)) = _
    rw [hcodes]
    rfl
  obtain rfl := Option.some.inj (hstatuses.symm.trans hdecoded)
  match row with
  | 0 => rfl
  | 1 => exact absurd (Option.some.inj hstatus).symm hunsafe
  | 2 => rfl
  | 3 => exact absurd (Option.some.inj hstatus).symm hsecondary
  | 4 => rfl
  | _ + 5 => rfl

end

/-- Statuses of a type that has no cast to integers. -/
def statusLists : ForeignValues :=
  ⟨[some "[1]", some "[9]"], none, nofun⟩

/-- The last day that was heard of two regions, with such statuses. -/
def visits : List (Series AnyValues) :=
  [⟨"region", .known (.text [some "01", some "02"])⟩,
    ⟨"seen", .foreign ⟨[some "2024-03-17", none], some [some 19799, none], by simp⟩⟩,
    ⟨statusColumn, .foreign statusLists⟩]

/-- The table of the two regions. -/
def visitTable : ProtectedTable AnyValues :=
  ⟨⟨visits⟩, ["region"], "seen"⟩

theorem reachable_visitTable : visitTable.Reachable :=
  @Reachable.ofFrame _ _ visits ⟨visits⟩ ["region"] "seen" _ rfl rfl

theorem hidden_incomes_masked :
    (incomeTable statusNumbers 310.75).rawValues ≠ (incomeTable statusNumbers 77.5).rawValues ∧
    (incomeTable statusNumbers 310.75).maskedColumn? "x" =
      (incomeTable statusNumbers 77.5).maskedColumn? "x" ∧
    (incomeTable statusNumbers 310.75).maskedValues? "x" = some ["1200", "x", "", "x", "350.5"] ∧
    (incomeTable statusTexts 310.75).maskedColumn? "x" =
      (incomeTable statusTexts 77.5).maskedColumn? "x" ∧
    (incomeTable statusTexts 310.75).maskedValues? "x" = some ["1200", "x", "", "x", "350.5"] ∧
    visitTable.ShowsNothing "x" := by
  have hmasked : ∀ {statuses : Values},
      castCodes? (.known statuses) = some [some 1, some 9, none, some 11, some 10] →
      (incomeTable statuses 310.75).maskedColumn? "x" =
        (incomeTable statuses 77.5).maskedColumn? "x" := fun hcodes =>
    ((reachable_incomeTable hcodes 77.5).masked_safely "x").1 _
      (reachable_incomeTable hcodes 310.75) (samePublished_incomeTable hcodes 310.75 77.5)
  obtain ⟨-, ⟨status, raw, hcolumns, -, hnothing⟩, -⟩ := reachable_visitTable.masked_safely "x"
  obtain rfl : .foreign statusLists = status :=
    Option.some.inj ((show visitTable.column? statusColumn = _ from rfl).symm.trans
      hcolumns.status_eq)
  have hdiffer : (310.75 : Float) ≠ 77.5 := by decide
  refine ⟨fun h => ?_, hmasked rfl, by decide +kernel, hmasked (by decide +kernel),
    by decide +kernel, hnothing fun codes hcast => ?_⟩
  · have hvalues := Values.double.inj h
    simp [hdiffer] at hvalues
  · exact absurd (castCodes?_eq_some_iff.mpr hcast) (Option.some_ne_none codes).symm

end ProtectedTable

end Disclosure
