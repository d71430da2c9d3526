import Disclosure.Toml.Document
import Mathlib.Data.List.Nodup

/-!
# Names in TOML documents

A name is never given twice. That a line adds nothing to a name that has a value is the rule for the
last part of a name only; on the way there, tables are looked up and put back with more in them. So
what has to be carried along is not a fact about one table but about all tables that names lead to:
`Distinct` says it of the entries of a table and of everything below, and adding a line, adding a
section and reading a value keep it.
-/

namespace Disclosure.Toml

/-- No name comes twice, neither here nor in a table that a name leads to. -/
inductive Distinct : TomlEntries → Prop
  | intro {entries : TomlEntries} : (entries.map Prod.fst).Nodup →
      (∀ name origin below, (name, .table origin below) ∈ entries → Distinct below) →
      Distinct entries

variable {name : String} {value : TomlValue} {entries entries' : TomlEntries}

/-- If the value is a table, no name comes twice in it. -/
def DistinctIn (value : TomlValue) : Prop :=
  ∀ origin below, value = .table origin below → Distinct below

theorem Distinct.nodup (h : Distinct entries) : (entries.map Prod.fst).Nodup := by
  cases h with
  | intro hnodup _ => exact hnodup

theorem Distinct.of_mem (h : Distinct entries) (hmem : (name, value) ∈ entries) :
    DistinctIn value := by
  rintro origin below rfl
  cases h with
  | intro _ hbelow => exact hbelow name origin below hmem

theorem Distinct.of_lookup (h : Distinct entries) (hlookup : entries.lookup name = some value) :
    DistinctIn value := by
  obtain ⟨before, after, rfl, -⟩ := List.lookup_eq_some_iff.mp hlookup
  exact h.of_mem (List.mem_append_right _ List.mem_cons_self)

theorem distinct_nil : Distinct [] :=
  .intro .nil fun _ _ _ h => absurd h List.not_mem_nil

theorem distinctIn_tables (items : List TomlEntries) : DistinctIn (.tables items) :=
  fun _ _ h => absurd h (by simp)

theorem distinctIn_table (origin : TomlOrigin) (h : Distinct entries) :
    DistinctIn (.table origin entries) := by
  intro origin' below hbelow
  rw [TomlValue.table.injEq] at hbelow
  exact hbelow.2 ▸ h

/-! ## Adding to tables -/

theorem Distinct.add (h : Distinct entries) (hnew : entries.lookup name = none)
    (hvalue : DistinctIn value) : Distinct (entries ++ [(name, value)]) := by
  refine .intro ?_ fun other origin below hmem => ?_
  · rw [List.map_append, List.nodup_append]
    refine ⟨h.nodup, List.nodup_singleton _, ?_⟩
    rintro other hother _ hname rfl
    obtain rfl := List.mem_singleton.mp hname
    obtain ⟨⟨_, old⟩, hmem, rfl⟩ := List.mem_map.mp hother
    have hne := List.lookup_eq_none_iff.mp hnew _ hmem
    simp at hne
  · rcases List.mem_append.mp hmem with hold | hnew
    · exact h.of_mem hold origin below rfl
    · exact hvalue origin below (Prod.mk.inj (List.mem_singleton.mp hnew)).2.symm

theorem of_mem_replace {pair : String × TomlValue} : ∀ {entries : TomlEntries},
    pair ∈ replace name value entries → pair = (name, value) ∨ pair ∈ entries
  | [], h => .inl (List.mem_singleton.mp h)
  | (other, old) :: rest, h => by
    rw [replace] at h
    split at h
    · exact (List.mem_cons.mp h).imp_right (List.mem_cons_of_mem _)
    · rcases List.mem_cons.mp h with rfl | h
      · exact .inr List.mem_cons_self
      · exact (of_mem_replace h).imp_right (List.mem_cons_of_mem _)

theorem nodup_replace (name : String) (value : TomlValue) : ∀ {entries : TomlEntries},
    (entries.map Prod.fst).Nodup → ((replace name value entries).map Prod.fst).Nodup
  | [], _ => List.nodup_singleton _
  | (other, old) :: rest, h => by
    obtain ⟨hother, hrest⟩ := List.nodup_cons.mp h
    rw [replace]
    split
    · rename_i hname
      exact hname ▸ h
    · rename_i hne
      refine List.nodup_cons.mpr ⟨fun hmem => ?_, nodup_replace name value hrest⟩
      obtain ⟨pair, hpair, hfst⟩ := List.mem_map.mp hmem
      rcases of_mem_replace hpair with rfl | hold
      · exact hne hfst.symm
      · exact hother (hfst ▸ List.mem_map_of_mem hold)

theorem Distinct.replace (h : Distinct entries) (name : String) (hvalue : DistinctIn value) :
    Distinct (replace name value entries) := by
  refine .intro (nodup_replace name value h.nodup) fun other origin below hmem => ?_
  rcases of_mem_replace hmem with hnew | hold
  · exact hvalue origin below (Prod.mk.inj hnew).2.symm
  · exact h.of_mem hold origin below rfl

theorem Distinct.insertAt? {takesLast : Bool} {path : List String} (h : Distinct entries)
    (hvalue : DistinctIn value)
    (hinsert : insertAt? value takesLast path entries = some entries') : Distinct entries' := by
  induction takesLast, path, entries using insertAt?.induct generalizing entries' with
  | case1 => exact absurd hinsert (by simp [Toml.insertAt?])
  | case2 takesLast name entries hlast =>
    rw [Toml.insertAt?, if_pos hlast] at hinsert
    cases hinsert
    exact h.add (Option.isNone_iff_eq_none.mp (Bool.and_eq_true_iff.mp hlast).2) hvalue
  | case3 takesLast name entries hlast =>
    rw [Toml.insertAt?, if_neg hlast] at hinsert
    exact absurd hinsert (by simp)
  -- the parts before the last one: a table is made, or one is looked up and put back
  | case4 takesLast name rest entries _ hnew ih =>
    simp only [Toml.insertAt?, hnew, Option.map_eq_some_iff] at hinsert
    obtain ⟨below, hbelow, rfl⟩ := hinsert
    exact h.add hnew (distinctIn_table .dotted (ih distinct_nil hbelow))
  | case5 takesLast name rest entries _ below hold ih =>
    simp only [Toml.insertAt?, hold, Option.map_eq_some_iff] at hinsert
    obtain ⟨below', hbelow, rfl⟩ := hinsert
    exact h.replace name (distinctIn_table .dotted (ih (h.of_lookup hold .dotted below rfl) hbelow))
  | case6 takesLast name rest entries _ below hold ih =>
    simp only [Toml.insertAt?, hold, Option.map_eq_some_iff] at hinsert
    obtain ⟨below', hbelow, rfl⟩ := hinsert
    exact h.replace name (distinctIn_table .passed (ih (h.of_lookup hold .passed below rfl) hbelow))
  | case7 takesLast name rest entries _ items hold hlast =>
    simp [Toml.insertAt?, hold, hlast] at hinsert
  -- a list of tables is not a table, whatever its last one becomes
  | case8 takesLast name rest entries _ items hold last hlast ih =>
    simp only [Toml.insertAt?, hold, hlast, Option.map_eq_some_iff] at hinsert
    obtain ⟨last', _, rfl⟩ := hinsert
    exact h.replace name (distinctIn_tables _)
  | case9 takesLast name rest entries _ old hdotted hpassed htables hold =>
    simp [Toml.insertAt?, hold] at hinsert

/-- What adds one thing after another, and keeps names apart with each of them. -/
theorem Distinct.foldlM {α : Type} {add : TomlEntries → α → Option TomlEntries} {xs : List α}
    (hadd : ∀ x ∈ xs, ∀ {entries entries' : TomlEntries}, Distinct entries →
      add entries x = some entries' → Distinct entries') :
    ∀ {entries : TomlEntries}, Distinct entries → xs.foldlM add entries = some entries' →
      Distinct entries' := by
  induction xs with
  | nil =>
    intro entries h hrun
    cases hrun
    exact h
  | cons x rest ih =>
    intro entries h hrun
    obtain ⟨hfirst, hrest⟩ := List.forall_mem_cons.mp hadd
    rw [List.foldlM_cons, Option.bind_eq_bind, Option.bind_eq_some_iff] at hrun
    obtain ⟨between, hstep, hlater⟩ := hrun
    exact ih hrest (hfirst h hstep) hlater

theorem Distinct.insertAll? {pairs : List (List String × TomlValue)} (h : Distinct entries)
    (hpairs : ∀ pair ∈ pairs, DistinctIn pair.2)
    (hinsert : insertAll? pairs entries = some entries') : Distinct entries' :=
  h.foldlM (fun pair hpair _ _ h hstep => h.insertAt? (hpairs pair hpair) hstep) hinsert

theorem Distinct.underHeader? {change : String → TomlEntries → Option TomlEntries}
    (hchange : ∀ {name : String} {entries entries' : TomlEntries}, Distinct entries →
      change name entries = some entries' → Distinct entries')
    {path : List String} (h : Distinct entries)
    (hunder : underHeader? change path entries = some entries') : Distinct entries' := by
  induction path, entries using underHeader?.induct generalizing entries' with
  | case1 => exact absurd hunder (by simp [Toml.underHeader?])
  | case2 name entries => exact hchange h hunder
  | case3 name rest entries _ hnew ih =>
    simp only [Toml.underHeader?, hnew, Option.map_eq_some_iff] at hunder
    obtain ⟨below, hbelow, rfl⟩ := hunder
    exact h.add hnew (distinctIn_table .passed (ih distinct_nil hbelow))
  | case4 name rest entries _ below hold => simp [Toml.underHeader?, hold] at hunder
  | case5 name rest entries _ origin below hopen hold ih =>
    simp only [Toml.underHeader?, hold, Option.map_eq_some_iff] at hunder
    obtain ⟨below', hbelow, rfl⟩ := hunder
    exact h.replace name (distinctIn_table origin (ih (h.of_lookup hold origin below rfl) hbelow))
  | case6 name rest entries _ items hold hlast => simp [Toml.underHeader?, hold, hlast] at hunder
  | case7 name rest entries _ items hold last hlast ih =>
    simp only [Toml.underHeader?, hold, hlast, Option.map_eq_some_iff] at hunder
    obtain ⟨last', _, rfl⟩ := hunder
    exact h.replace name (distinctIn_tables _)
  | case8 name rest entries _ old _ _ _ hold => simp [Toml.underHeader?, hold] at hunder

variable {s : Section}

/-- What is given in the lines of a section. -/
def Section.Distinct (s : Section) : Prop :=
  ∀ pair ∈ s.pairs, DistinctIn pair.2

theorem Section.Distinct.addTo? (hs : s.Distinct) (h : Toml.Distinct entries)
    (hadd : s.addTo? name entries = some entries') : Toml.Distinct entries' := by
  rw [Section.addTo?] at hadd
  split at hadd
  · rename_i hnew
    obtain ⟨own, _, rfl⟩ := Option.map_eq_some_iff.mp hadd
    exact h.add hnew (distinctIn_tables _)
  · obtain ⟨own, _, rfl⟩ := Option.map_eq_some_iff.mp hadd
    exact h.replace name (distinctIn_tables _)
  · rename_i hnew
    obtain ⟨own, hown, rfl⟩ := Option.map_eq_some_iff.mp hadd
    exact h.add hnew (distinctIn_table .header (distinct_nil.insertAll? hs hown))
  · rename_i below _ hold
    obtain ⟨own, hown, rfl⟩ := Option.map_eq_some_iff.mp hadd
    have hbelow := h.of_lookup hold .passed below rfl
    exact h.replace name (distinctIn_table .header (hbelow.insertAll? hs hown))
  · exact absurd hadd (by simp)

theorem Section.Distinct.place? (hs : s.Distinct) (h : Toml.Distinct entries)
    (hplace : s.place? entries = some entries') : Toml.Distinct entries' := by
  rw [Section.place?] at hplace
  split at hplace
  · exact h.insertAll? hs hplace
  · exact h.underHeader? (fun h hadd => hs.addTo? h hadd) hplace

/-! ## Values -/

theorem distinctIn_of_wordValue? {word : List Char} (h : wordValue? word = some value) :
    DistinctIn value := by
  rintro origin below rfl
  rw [wordValue?] at h
  split at h
  · exact absurd h (by simp)
  · exact absurd h (by simp)
  · split at h
    · exact absurd h (by simp)
    · rcases hinteger : integer? word with _ | n
      · simp [hinteger] at h
      · simp [hinteger] at h

/-- What is read at the start of some characters: a value, the entries of a table in braces, and one
such entry. -/
structure ReadsDistinct (fuel : Nat) : Prop where
  value : ∀ {cs rest : List Char} {value : TomlValue},
    readValue? fuel cs = some (value, rest) → DistinctIn value
  pairs : ∀ {cs rest : List Char} {pairs : List (List String × TomlValue)},
    readPairs? fuel cs = some (pairs, rest) → ∀ pair ∈ pairs, DistinctIn pair.2
  pair : ∀ {cs rest : List Char} {pair : List String × TomlValue},
    readPair? fuel cs = some (pair, rest) → DistinctIn pair.2

theorem readsDistinct_zero : ReadsDistinct 0 where
  value h := absurd h (by simp [readValue?])
  pairs h := absurd h (by simp [readPairs?])
  pair h := absurd h (by simp [readPair?])

theorem ReadsDistinct.succ {fuel : Nat} (h : ReadsDistinct fuel) : ReadsDistinct (fuel + 1) where
  value := by
    intro cs rest value hread
    unfold readValue? at hread
    split at hread
    · obtain ⟨items, _, heq⟩ := Option.map_eq_some_iff.mp hread
      cases heq
      exact fun _ _ hlist => absurd hlist (by simp)
    · -- a table in braces is filled from its own pairs alone
      dsimp only at hread
      split at hread
      · cases hread
        exact distinctIn_table .braces distinct_nil
      · simp only [Option.bind_eq_bind, Option.bind_eq_some_iff] at hread
        obtain ⟨⟨pairs, behind⟩, hpairs, entries, hentries, heq⟩ := hread
        cases heq
        exact distinctIn_table .braces (distinct_nil.insertAll? (h.pairs hpairs) hentries)
    · obtain ⟨text, _, heq⟩ := Option.map_eq_some_iff.mp hread
      cases heq
      exact fun _ _ htext => absurd htext (by simp)
    · obtain ⟨text, _, heq⟩ := Option.map_eq_some_iff.mp hread
      cases heq
      exact fun _ _ htext => absurd htext (by simp)
    · obtain ⟨word, hword, heq⟩ := Option.map_eq_some_iff.mp hread
      cases heq
      exact distinctIn_of_wordValue? hword
  pairs := by
    intro cs rest pairs hread
    rw [readPairs?] at hread
    simp only [Option.bind_eq_bind, Option.bind_eq_some_iff] at hread
    obtain ⟨⟨pair, behind⟩, hpair, hread⟩ := hread
    have hfirst := h.pair hpair
    dsimp only at hread
    split at hread
    · cases hread
      simpa using hfirst
    · simp only [Option.bind_eq_some_iff] at hread
      obtain ⟨⟨more, behind⟩, hmore, heq⟩ := hread
      cases heq
      exact List.forall_mem_cons.mpr ⟨hfirst, h.pairs hmore⟩
    · exact absurd hread (by simp)
  pair := by
    intro cs rest pair hread
    rw [readPair?] at hread
    simp only [Option.bind_eq_bind, Option.bind_eq_some_iff] at hread
    obtain ⟨⟨path, behind⟩, _, hread⟩ := hread
    dsimp only at hread
    split at hread
    · simp only [Option.bind_eq_some_iff] at hread
      obtain ⟨⟨value, behind⟩, hvalue, heq⟩ := hread
      cases heq
      exact h.value hvalue
    · exact absurd hread (by simp)

theorem readsDistinct : ∀ fuel : Nat, ReadsDistinct fuel
  | 0 => readsDistinct_zero
  | fuel + 1 => (readsDistinct fuel).succ

/-! ## Documents -/

/-- What is given in a line. -/
def Line.Distinct : Line → Prop
  | .header _ _ => True
  | .pair _ value => DistinctIn value

theorem distinct_of_readLine? {cs rest : List Char} {line : Line}
    (h : readLine? cs = some (line, rest)) : line.Distinct := by
  unfold readLine? at h
  split at h
  · simp only [Option.bind_eq_bind, Option.bind_eq_some_iff] at h
    obtain ⟨⟨path, behind⟩, _, h⟩ := h
    dsimp only at h
    split at h
    · simp only [Option.bind_eq_some_iff] at h
      obtain ⟨_, _, heq⟩ := h
      cases heq
      trivial
    · exact absurd h (by simp)
  · simp only [Option.bind_eq_bind, Option.bind_eq_some_iff] at h
    obtain ⟨⟨path, behind⟩, _, h⟩ := h
    dsimp only at h
    split at h
    · simp only [Option.bind_eq_some_iff] at h
      obtain ⟨_, _, heq⟩ := h
      cases heq
      trivial
    · exact absurd h (by simp)
  · simp only [Option.bind_eq_bind, Option.bind_eq_some_iff] at h
    obtain ⟨⟨⟨path, value⟩, behind⟩, hpair, _, _, heq⟩ := h
    cases heq
    exact (readsDistinct _).pair hpair

theorem distinct_of_readLines? : ∀ {fuel : Nat} {cs : List Char} {lines : List Line},
    readLines? fuel cs = some lines → ∀ line ∈ lines, line.Distinct
  | 0, _, _, h => by
    cases h
    exact fun _ hmem => absurd hmem List.not_mem_nil
  | fuel + 1, cs, lines, h => by
    rw [readLines?] at h
    simp only [Option.bind_eq_bind, Option.bind_eq_some_iff] at h
    obtain ⟨left, _, h⟩ := h
    split at h
    · cases h
      exact fun _ hmem => absurd hmem List.not_mem_nil
    · simp only [Option.bind_eq_some_iff] at h
      obtain ⟨⟨line, behind⟩, hline, more, hmore, heq⟩ := h
      cases heq
      exact List.forall_mem_cons.mpr ⟨distinct_of_readLine? hline, distinct_of_readLines? hmore⟩

theorem distinct_of_mem_sections : ∀ {lines : List Line}, (∀ line ∈ lines, line.Distinct) →
    ∀ s ∈ sections lines, s.Distinct
  | [], _, s, hs => by
    rw [sections, List.mem_singleton] at hs
    exact hs ▸ fun _ hmem => absurd hmem List.not_mem_nil
  | .pair path value :: rest, h, s, hs => by
    obtain ⟨hvalue, hrest⟩ := List.forall_mem_cons.mp h
    have hall := distinct_of_mem_sections hrest
    rw [sections] at hs
    split at hs
    · exact absurd hs List.not_mem_nil
    · rename_i first more hsections
      obtain ⟨hfirst, hmore⟩ := List.forall_mem_cons.mp (hsections ▸ hall)
      rcases List.mem_cons.mp hs with rfl | hs
      · exact List.forall_mem_cons.mpr ⟨hvalue, hfirst⟩
      · exact hmore s hs
  | .header path repeated :: rest, h, s, hs => by
    have hall := distinct_of_mem_sections (List.forall_mem_cons.mp h).2
    rw [sections] at hs
    split at hs
    · exact absurd hs List.not_mem_nil
    · rename_i first more hsections
      obtain ⟨hfirst, hmore⟩ := List.forall_mem_cons.mp (hsections ▸ hall)
      rcases List.mem_cons.mp hs with rfl | hs
      · exact fun _ hmem => absurd hmem List.not_mem_nil
      · rcases List.mem_cons.mp hs with rfl | hs
        · exact hfirst
        · exact hmore s hs

/-- **In no table of a document that is read, a name comes twice.** -/
theorem distinct_of_read? {text : String} (h : read? text = some entries) : Distinct entries := by
  rw [read?] at h
  obtain ⟨lines, hlines, hrun⟩ := Option.bind_eq_some_iff.mp h
  have hparts := distinct_of_mem_sections (distinct_of_readLines? hlines)
  exact distinct_nil.foldlM (fun s hs _ _ h hplace => (hparts s hs).place? h hplace) hrun

end Disclosure.Toml
