import Disclosure.Proofs.Text.Blank
import Disclosure.Proofs.Text.Split
import Disclosure.Rule.Composition

/-!
# Telling the levels apart

The engine finds the rules for holdings by counting: it takes the first rules of a kind for
individual ones, as many as the kind allows. So what stands before the rules for holdings has to
use up every place of a kind that is used for holdings, and this is what the dummies are for.

`paddings_eq` says what the composition comes to for any row of kinds, in one formula: the first
level that has too many rules of a kind is told, and without such a level the dummies of each kind
follow one another. All that is said about counts rests on one fact about dummies: a dummy is a rule
of its own kind and of no other.
-/

namespace Disclosure

theorem RuleKind.mem_all (kind : RuleKind) : kind ∈ RuleKind.all := by
  cases kind <;> decide

theorem RuleKind.classify?_dummy {kind : RuleKind} {dummy : String}
    (h : kind.dummy? = some dummy) : RuleKind.classify? dummy = some kind := by
  cases kind <;> cases h <;> decide

/-- A written rule that a list with bars keeps as it is. -/
structure IsPlainRule (rule : String) : Prop where
  /-- There is no bar in it. -/
  noBar : '|' ∉ rule.toList
  /-- It has no blanks at its ends. -/
  trimmed : Text.IsTrimmed rule
  /-- There is something. -/
  nonempty : rule ≠ ""

theorem RuleKind.dummy_isPlain {kind : RuleKind} {dummy : String}
    (h : kind.dummy? = some dummy) : IsPlainRule dummy := by
  cases kind <;> cases h <;> exact ⟨by decide, by decide, by decide⟩

theorem RuleKind.dummy_eq_none {kind : RuleKind} (h : kind.maximum? = none) :
    kind.dummy? = none := by
  cases kind <;> first | rfl | exact absurd h (by decide)

namespace RuleSet

/-! ## What the composition comes to -/

/-- The rules of one level. -/
def rulesAt (r : RuleSet) : RuleLevel → List String
  | .individual => r.individual
  | .holding => r.holding

/-- Whether a level has more rules of a kind than the kind allows. -/
def exceeds (r : RuleSet) (place : RuleKind × RuleLevel) : Bool :=
  place.1.maximum?.any fun maximum => maximum < countKind place.1 (r.rulesAt place.2)

/-- Both levels of each kind in turn, single contributors first. -/
def places (kinds : List RuleKind) : List (RuleKind × RuleLevel) :=
  kinds.flatMap fun kind => [(kind, .individual), (kind, .holding)]

/-- How many places of a kind the individual rules leave free, if holdings have rules of it. -/
def freePlaces (r : RuleSet) (kind : RuleKind) : Nat :=
  if countKind kind r.holding = 0 then 0
  else kind.maximum?.getD 0 - countKind kind r.individual

/-- The dummies of a kind. -/
def dummiesOf (r : RuleSet) (kind : RuleKind) : List String :=
  kind.dummy?.toList.flatMap (List.replicate (r.freePlaces kind))

/-- What the composition comes to for some kinds, told by the first place that has too many. -/
def outcome (r : RuleSet) (kinds : List RuleKind) : Except RuleFault (List String) :=
  match (places kinds).find? r.exceeds with
  | some (kind, level) => .error (.tooMany kind level (kind.maximum?.getD 0))
  | none => .ok (kinds.flatMap r.dummiesOf)

theorem exceeds_eq {r : RuleSet} {kind : RuleKind} {level : RuleLevel} {maximum : Nat}
    (h : kind.maximum? = some maximum) :
    r.exceeds (kind, level) = decide (maximum < countKind kind (r.rulesAt level)) := by
  simp [exceeds, h]

theorem dummiesOf_of_no_holding {r : RuleSet} {kind : RuleKind}
    (h : countKind kind r.holding = 0) : r.dummiesOf kind = [] := by
  simp [dummiesOf, freePlaces, h]

theorem padding_eq (r : RuleSet) (kind : RuleKind) : r.padding kind = r.outcome [kind] := by
  have hone : [kind].flatMap r.dummiesOf = r.dummiesOf kind := by simp
  rw [padding, outcome, places, List.flatMap_cons, List.flatMap_nil, List.append_nil, hone]
  cases hmax : kind.maximum? with
  | none => simp [exceeds, hmax, dummiesOf, RuleKind.dummy_eq_none hmax]
  | some maximum =>
    by_cases hi : maximum < countKind kind r.individual
    · simp [exceeds_eq hmax, rulesAt, hi, hmax]
    · by_cases hh : maximum < countKind kind r.holding
      · simp [exceeds_eq hmax, rulesAt, hi, hh, hmax]
      · -- no level has too many, so what is left are the dummies
        simp only [exceeds_eq hmax, rulesAt, hi, hh, decide_false, List.find?_cons, List.find?_nil,
          if_false]
        by_cases hzero : countKind kind r.holding = 0
        · rw [if_pos hzero, dummiesOf_of_no_holding hzero]
        · rw [if_neg hzero, dummiesOf, freePlaces, if_neg hzero, hmax]
          cases kind.dummy? <;> simp

theorem paddings_eq (r : RuleSet) (kinds : List RuleKind) : r.paddings kinds = r.outcome kinds := by
  induction kinds with
  | nil => rfl
  | cons kind rest ih =>
    have hplaces : places (kind :: rest) = places [kind] ++ places rest := by simp [places]
    have hone : [kind].flatMap r.dummiesOf = r.dummiesOf kind := by simp
    rw [paddings, padding_eq, ih, outcome, outcome, outcome, hplaces, List.find?_append, hone,
      List.flatMap_cons]
    -- the first place that has too many is one of this kind, or one of the rest
    cases (places [kind]).find? r.exceeds with
    | some place => rfl
    | none => cases (places rest).find? r.exceeds <;> rfl

theorem mem_places_all (place : RuleKind × RuleLevel) : place ∈ places RuleKind.all := by
  obtain ⟨kind, level⟩ := place
  refine List.mem_flatMap.mpr ⟨kind, RuleKind.mem_all kind, ?_⟩
  cases level <;> simp

/-- No level has too many rules of any kind. -/
def IsWithinLimits (r : RuleSet) : Prop :=
  ∀ kind maximum, kind.maximum? = some maximum →
    countKind kind r.individual ≤ maximum ∧ countKind kind r.holding ≤ maximum

theorem find?_exceeds_eq_none_iff (r : RuleSet) :
    (places RuleKind.all).find? r.exceeds = none ↔ r.IsWithinLimits := by
  rw [List.find?_eq_none]
  constructor
  · intro h kind maximum hmax
    have hi := h _ (mem_places_all (kind, .individual))
    have hh := h _ (mem_places_all (kind, .holding))
    rw [exceeds_eq hmax, decide_eq_true_eq, Nat.not_lt] at hi hh
    exact ⟨hi, hh⟩
  · rintro h ⟨kind, level⟩ -
    cases hmax : kind.maximum? with
    | none => simp [exceeds, hmax]
    | some maximum =>
      rw [exceeds_eq hmax, decide_eq_true_eq, Nat.not_lt]
      cases level with
      | individual => exact (h kind maximum hmax).1
      | holding => exact (h kind maximum hmax).2

/-- All dummies, one kind after another. -/
def dummies (r : RuleSet) : List String :=
  RuleKind.all.flatMap r.dummiesOf

theorem compose_eq_ok_iff {r : RuleSet} {rules : List String} :
    r.compose = .ok rules ↔ r.IsWithinLimits ∧ rules = r.individual ++ r.dummies ++ r.holding := by
  rw [compose, paddings_eq, outcome, ← find?_exceeds_eq_none_iff]
  cases (places RuleKind.all).find? r.exceeds with
  | some place => simp [bind, Except.bind]
  | none => simp [bind, Except.bind, pure, Except.pure, dummies, eq_comm]

theorem compose_eq_error_iff {r : RuleSet} {fault : RuleFault} :
    r.compose = .error fault ↔ ∃ kind level maximum, kind.maximum? = some maximum ∧
      (places RuleKind.all).find? r.exceeds = some (kind, level) ∧
      fault = .tooMany kind level maximum := by
  rw [compose, paddings_eq, outcome]
  cases hfind : (places RuleKind.all).find? r.exceeds with
  | none => simp [bind, Except.bind, pure, Except.pure]
  | some place =>
    obtain ⟨kind, level⟩ := place
    -- a place that was found has a maximum, and that is the one that is told
    obtain ⟨maximum, hmax⟩ : ∃ maximum, kind.maximum? = some maximum := by
      have hexceeds := List.find?_some hfind
      cases hmax : kind.maximum? with
      | none => exact absurd hexceeds (by simp [exceeds, hmax])
      | some maximum => exact ⟨maximum, rfl⟩
    show Except.error (.tooMany kind level (kind.maximum?.getD 0)) = .error fault ↔ _
    rw [hmax, Option.getD_some, Except.error.injEq]
    constructor
    · rintro rfl
      exact ⟨kind, level, maximum, hmax, rfl, rfl⟩
    · rintro ⟨_, _, other, hother, hplace, rfl⟩
      cases hplace
      rw [Option.some.inj (hmax.symm.trans hother)]

/-! ## Counting the rules before those for holdings -/

theorem countKind_append (kind : RuleKind) (rules more : List String) :
    countKind kind (rules ++ more) = countKind kind rules + countKind kind more :=
  List.countP_append

theorem countKind_dummiesOf (r : RuleSet) (kind other : RuleKind) :
    countKind kind (r.dummiesOf other) =
      if kind = other ∧ kind.dummy?.isSome then r.freePlaces kind else 0 := by
  rw [dummiesOf]
  cases hdummy : other.dummy? with
  | none =>
    rw [if_neg]
    · rfl
    · rintro ⟨rfl, hsome⟩
      rw [hdummy] at hsome
      exact absurd hsome (by simp)
  | some dummy =>
    have hclass := RuleKind.classify?_dummy hdummy
    by_cases h : kind = other
    · subst h
      simp [countKind, hdummy, List.countP_replicate, hclass]
    · simp [countKind, List.countP_replicate, hclass, h, Ne.symm h]

theorem countKind_dummies {r : RuleSet} {kind : RuleKind} (h : kind.dummy?.isSome) :
    countKind kind r.dummies = r.freePlaces kind := by
  simp only [dummies, RuleKind.all, List.flatMap_cons, List.flatMap_nil, countKind_append,
    countKind_dummiesOf, h, and_true, List.append_nil]
  cases kind <;> simp

/-- Dummies that let the engine tell the levels apart. -/
structure KeepsApart (r : RuleSet) (dummies : List String) : Prop where
  /-- There are dummies only, one kind after another. -/
  inOrder : ∃ free : RuleKind → Nat, dummies =
    RuleKind.all.flatMap fun kind => kind.dummy?.toList.flatMap (List.replicate (free kind))
  /-- Where holdings use a kind, all its places are taken before their rules. -/
  full : ∀ kind maximum, kind.dummy?.isSome → kind.maximum? = some maximum →
    countKind kind r.holding ≠ 0 → countKind kind (r.individual ++ dummies) = maximum
  /-- So a rule for holdings has as many rules of its kind before it as there are places of the kind
  and rules of it among the rules for holdings before. -/
  counted : ∀ kind maximum before rule after, kind.dummy?.isSome → kind.maximum? = some maximum →
    r.holding = before ++ rule :: after → RuleKind.classify? rule = some kind →
    countKind kind (r.individual ++ dummies ++ before) = maximum + countKind kind before
  /-- A kind that holdings do not use has no dummy. -/
  absent : ∀ kind dummy, kind.dummy? = some dummy → countKind kind r.holding = 0 → dummy ∉ dummies

theorem countKind_before {r : RuleSet} (hlimits : r.IsWithinLimits) {kind : RuleKind}
    {maximum : Nat} (hdummy : kind.dummy?.isSome) (hmax : kind.maximum? = some maximum)
    (hused : countKind kind r.holding ≠ 0) :
    countKind kind (r.individual ++ r.dummies) = maximum := by
  have hindividual := (hlimits kind maximum hmax).1
  rw [countKind_append, countKind_dummies hdummy, freePlaces, if_neg hused, hmax, Option.getD_some]
  omega

theorem countKind_ne_zero {kind : RuleKind} {before after : List String} {rule : String}
    (h : RuleKind.classify? rule = some kind) : countKind kind (before ++ rule :: after) ≠ 0 := by
  rw [countKind_append, countKind, countKind, List.countP_cons_of_pos (by simpa using h)]
  omega

theorem of_mem_dummies {r : RuleSet} {dummy : String} (h : dummy ∈ r.dummies) :
    ∃ kind, kind.dummy? = some dummy ∧ r.freePlaces kind ≠ 0 := by
  obtain ⟨kind, -, hmem⟩ := List.mem_flatMap.mp h
  obtain ⟨other, hother, hmem⟩ := List.mem_flatMap.mp hmem
  obtain ⟨hfree, rfl⟩ := List.mem_replicate.mp hmem
  exact ⟨kind, Option.mem_toList.mp hother, hfree⟩

theorem dummies_keepsApart {r : RuleSet} (hlimits : r.IsWithinLimits) :
    r.KeepsApart r.dummies where
  inOrder := ⟨r.freePlaces, rfl⟩
  full _ _ hdummy hmax hused := countKind_before hlimits hdummy hmax hused
  counted kind maximum before rule after hdummy hmax hholding hrule := by
    have hused : countKind kind r.holding ≠ 0 := hholding ▸ countKind_ne_zero hrule
    rw [countKind_append, countKind_before hlimits hdummy hmax hused]
  absent kind dummy hdummy hunused hmem := by
    obtain ⟨other, hother, hfree⟩ := of_mem_dummies hmem
    -- the same dummy is of one kind only, and that kind has no place to fill
    have hkind : some kind = some other :=
      (RuleKind.classify?_dummy hdummy).symm.trans (RuleKind.classify?_dummy hother)
    rw [← Option.some.inj hkind, freePlaces, if_pos hunused] at hfree
    exact hfree rfl

/-! ## Cutting the written list -/

theorem isPlain_of_mem_splitRules {text rule : String} (h : rule ∈ splitRules text) :
    IsPlainRule rule := by
  obtain ⟨hmem, hne⟩ := List.mem_filter.mp h
  obtain ⟨piece, hpiece, rfl⟩ := List.mem_map.mp hmem
  obtain ⟨cs, hcs, rfl⟩ := List.mem_map.mp hpiece
  refine ⟨fun hbar => ?_, Text.isTrimmed_trim _, by simpa using hne⟩
  rw [Text.toList_trim, String.toList_ofList] at hbar
  exact Text.not_mem_of_mem_piecesAt hcs (Text.of_mem_trimChars hbar)

theorem splitAt_intercalate {rules : List String} (h : ∀ rule ∈ rules, '|' ∉ rule.toList)
    (hne : rules ≠ []) : Text.splitAt '|' ("|".intercalate rules) = rules := by
  have hpieces : ∀ piece ∈ rules.map String.toList, '|' ∉ piece := by simpa using h
  rw [Text.splitAt, String.toList_intercalate, show "|".toList = ['|'] from rfl,
    Text.piecesAt_intercalate hpieces (by simpa using hne), List.map_map]
  simp

/-- A list of plain rules that was written with bars is read back. -/
theorem splitRules_intercalate {rules : List String} (h : ∀ rule ∈ rules, IsPlainRule rule) :
    splitRules ("|".intercalate rules) = rules := by
  by_cases hne : rules = []
  · subst hne
    decide
  · have htrim : rules.map Text.trim = rules := by
      conv_rhs => rw [← List.map_id rules]
      exact List.map_congr_left fun rule hrule => (h rule hrule).trimmed
    rw [splitRules, splitAt_intercalate (fun rule hrule => (h rule hrule).noBar) hne, htrim]
    exact List.filter_eq_self.mpr fun rule hrule => by simpa using (h rule hrule).nonempty

theorem isPlain_of_mem_compose {r : RuleSet} {rules : List String}
    (hcompose : r.compose = .ok rules)
    (h : ∀ rule ∈ r.individual ++ r.holding, IsPlainRule rule) :
    ∀ rule ∈ rules, IsPlainRule rule := by
  obtain ⟨-, rfl⟩ := compose_eq_ok_iff.mp hcompose
  intro rule hrule
  rcases List.mem_append.mp hrule with hrule | hrule
  · rcases List.mem_append.mp hrule with hrule | hrule
    · exact h rule (List.mem_append_left _ hrule)
    · obtain ⟨kind, hdummy, -⟩ := of_mem_dummies hrule
      exact RuleKind.dummy_isPlain hdummy
  · exact h rule (List.mem_append_right _ hrule)

/-! ## The levels are kept apart -/

/-- **The composed list keeps the levels apart.** There is one exactly when no level has too many
rules of a kind, and else the first such level is told. The list has the rules of both levels as
they are, with dummies between them that take the free places of the kinds holdings use. Where no
rule has a bar in it, cutting the written list at its bars gives the list back. -/
theorem compose_keeps_levels_apart (r : RuleSet) :
    ((∃ rules, r.compose = .ok rules) ↔ ∀ kind maximum, kind.maximum? = some maximum →
      countKind kind r.individual ≤ maximum ∧ countKind kind r.holding ≤ maximum) ∧
    (∀ rules, r.compose = .ok rules → ∃ dummies,
      rules = r.individual ++ dummies ++ r.holding ∧ r.KeepsApart dummies) ∧
    (∀ fault, r.compose = .error fault ↔ ∃ kind level maximum, kind.maximum? = some maximum ∧
      (places RuleKind.all).find? r.exceeds = some (kind, level) ∧
      fault = .tooMany kind level maximum) ∧
    (∀ rules, r.compose = .ok rules → (∀ rule ∈ r.individual ++ r.holding, IsPlainRule rule) →
      ∃ text, r.render = .ok text ∧ splitRules text = rules ∧
        (rules ≠ [] → Text.splitAt '|' text = rules)) ∧
    ∀ text, ∀ rule ∈ (ofText text).individual ++ (ofText text).holding, IsPlainRule rule := by
  refine ⟨⟨?_, fun hlimits => ⟨_, compose_eq_ok_iff.mpr ⟨hlimits, rfl⟩⟩⟩, ?_, fun fault =>
    compose_eq_error_iff, ?_, ?_⟩
  · rintro ⟨rules, hrules⟩
    exact (compose_eq_ok_iff.mp hrules).1
  · intro rules hrules
    obtain ⟨hlimits, rfl⟩ := compose_eq_ok_iff.mp hrules
    exact ⟨r.dummies, rfl, dummies_keepsApart hlimits⟩
  · intro rules hrules hplain
    have hall := isPlain_of_mem_compose hrules hplain
    refine ⟨"|".intercalate rules, ?_, splitRules_intercalate hall,
      splitAt_intercalate fun rule hrule => (hall rule hrule).noBar⟩
    rw [render, hrules]
    rfl
  · intro text rule hrule
    rw [ofText, List.append_nil] at hrule
    exact isPlain_of_mem_splitRules hrule

/-- Rules of several kinds, one of them spelled in its own way. -/
def mixedRules : RuleSet :=
  ⟨["NK(3, 75)", "FREQ(5, 20)"], ["P(5, 1)", " nk (2, 80)", "FREQ(6, 15)"]⟩

/-- One place of the one kind and two of the other are free, and unlimited kinds need nothing. -/
theorem mixedRules_kept_apart :
    mixedRules.compose = .ok ["NK(3, 75)", "FREQ(5, 20)", "NK(0, 0)", "P(0, 0)", "P(0, 0)",
      "P(5, 1)", " nk (2, 80)", "FREQ(6, 15)"] ∧
    ∃ dummies, ["NK(3, 75)", "FREQ(5, 20)", "NK(0, 0)", "P(0, 0)", "P(0, 0)", "P(5, 1)",
      " nk (2, 80)", "FREQ(6, 15)"] = mixedRules.individual ++ dummies ++ mixedRules.holding ∧
      mixedRules.KeepsApart dummies :=
  ⟨rfl, (compose_keeps_levels_apart mixedRules).2.1 _ rfl⟩

end RuleSet

end Disclosure
