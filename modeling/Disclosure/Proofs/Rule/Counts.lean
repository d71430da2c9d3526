import Disclosure.Proofs.Decimal.Whole
import Disclosure.Rule.Basic

/-!
# Counts in written rules

A rule keeps its counts as floats, next to percentages. A float stands for many numbers when it is
large, and the one that is written is the shortest of them (`IsShown`). So a count is written as it
was given up to 2^53, and above only if it is itself the shortest of the numbers that are carried as
the same float.
-/

namespace Disclosure

/-- The number that is written for a float: of the numbers that are carried as this float the one that
ends in the most zeros, and of those that end in as many the nearest to the float. -/
structure IsShown (x : Float) (k : ℕ) : Prop where
  carried : Float.ofInt k = x
  /-- No number that is carried alike ends in more zeros. -/
  zeros : ∀ l z : ℕ, Float.ofInt l = x → 10 ^ z ∣ l → 10 ^ z ∣ k
  /-- No number that ends in as many zeros is nearer, or as near and larger. -/
  nearest : ∀ (v : ℤ) (l : ℕ), truncated? x = some v → Float.ofInt l = x →
    (∀ z, 10 ^ z ∣ k → 10 ^ z ∣ l) → |k - v| < |l - v| ∨ |k - v| = |l - v| ∧ l ≤ k

/-- What is written for a count is the shortest decimal of its float. -/
theorem isShown_iff_isShortest {n : ℕ} (hn : n ≠ 0) (hlt : n < 2 ^ 64) {b : Binary} (h : b.Normal)
    (hreads : b.Reads n) (k : ℕ) : IsShown (Float.ofInt n) k ↔ b.IsShortest k := by
  have hcarried : ∀ l : ℕ, Float.ofInt l = Float.ofInt n ↔ b.Reads l :=
    ofNat_eq_ofNat_iff hn hlt h hreads
  obtain ⟨v, hv⟩ := h.exists_value_eq hn hreads
  have htruncated : truncated? (Float.ofInt n) = some (v : ℤ) := by
    change truncated? (Float.ofNat n) = _
    rw [ofNat_eq_of_reads hn h hreads]
    exact h.truncated?_toFloat (h.inRange_of_reads hn hlt hreads) hv
  have hprefers : ∀ k l : ℕ, b.Prefers k l ↔
      |(k : ℤ) - v| < |(l : ℤ) - v| ∨ |(k : ℤ) - v| = |(l : ℤ) - v| ∧ l ≤ k := by
    intro k l
    rw [Binary.Prefers, hv]
    exact_mod_cast Iff.rfl
  constructor
  · intro hshown
    refine ⟨(hcarried k).mp hshown.carried, fun unit p hp hp' => ?_, fun p hp hp' => ?_⟩
    · rcases le_or_gt unit 0 with hfine | hcoarse
      · exact onGrid_natCast hfine k
      · obtain ⟨l, rfl⟩ := hp.exists_natCast hcoarse.le
        obtain ⟨z, rfl⟩ := Int.eq_ofNat_of_zero_le hcoarse.le
        exact onGrid_natCast_iff.mpr
          (hshown.zeros l z ((hcarried l).mpr hp') (onGrid_natCast_iff.mp hp))
    · obtain ⟨l, rfl⟩ := (hp' 0 (onGrid_natCast le_rfl k)).exists_natCast le_rfl
      exact (hprefers k l).mpr (hshown.nearest v l htruncated ((hcarried l).mpr hp) fun z hz =>
        onGrid_natCast_iff.mp (hp' z (onGrid_natCast_iff.mpr hz)))
  · intro hshortest
    refine ⟨(hcarried k).mpr hshortest.reads, fun l z hl hz => ?_, fun w l hw hl hz => ?_⟩
    · exact onGrid_natCast_iff.mp
        (hshortest.coarsest z l (onGrid_natCast_iff.mpr hz) ((hcarried l).mp hl))
    · cases htruncated.symm.trans hw
      refine (hprefers k l).mp (hshortest.first l ((hcarried l).mp hl) fun unit hunit => ?_)
      rcases le_or_gt unit 0 with hfine | hcoarse
      · exact onGrid_natCast hfine l
      · obtain ⟨z, rfl⟩ := Int.eq_ofNat_of_zero_le hcoarse.le
        exact onGrid_natCast_iff.mpr (hz z (onGrid_natCast_iff.mp hunit))

/-- A count is written as the only number that is shown for its float. -/
theorem numberText_count {n : ℕ} (hn : n ≠ 0) (hlt : n < 2 ^ 64) : ∃ shown : ℕ,
    numberText (Float.ofInt n) = toString shown ∧
      (∀ k, IsShown (Float.ofInt n) k ↔ k = shown) ∧ (n ≤ 2 ^ 53 → shown = n) := by
  obtain ⟨b, h, hreads, hfloat⟩ := ofNat_eq_toFloat hn
  have hrange := h.inRange_of_reads hn hlt hreads
  have hgrid := h.isShortest.coarsest 0 n (onGrid_natCast le_rfl n) hreads
  obtain ⟨shown, hshown⟩ := hgrid.exists_natCast le_rfl
  have hshortest := h.isShortest
  rw [hshown] at hshortest
  refine ⟨shown, ?_, fun k => ?_, fun hle => ?_⟩
  · change numberText (Float.ofNat n) = _
    rw [hfloat, h.numberText_toFloat hrange, h.plainText_toFloat hrange hshortest]
  · rw [isShown_iff_isShortest hn hlt h hreads]
    constructor
    · intro hk
      exact_mod_cast hk.eq hshortest
    · rintro rfl
      exact hshortest
  · exact_mod_cast hshortest.eq (h.isShortest_of_le hn hle hreads)

/-- The largest count there is. -/
example : numberText (Float.ofInt 9223372036854775807) = "9223372036854776000" := by rfl

namespace SafetyRule

theorem render_pair (kind : RuleKind) (x y : Float) : render ⟨kind, [x, y]⟩ =
    kind.code ++ "(" ++ numberText x ++ ", " ++ numberText y ++ ")" := by
  have hjoin : ", ".intercalate ([x, y].map numberText) = numberText x ++ ", " ++ numberText y := rfl
  rw [render, hjoin, ← String.append_assoc, ← String.append_assoc]

/-- **A count is written as the shortest number that is carried as the same float.** Rules with a
count of at least one and a percentage are accepted, and where the count stands, there is this
number. It is the count itself up to 2^53, and from there on if nothing shorter is carried alike. -/
theorem count_shown {n : ℤ} (hn : 1 ≤ n) (hword : n < 2 ^ 63) {p : Float} (hp : 0 ≤ p)
    (hp' : p ≤ 100) : ∃ shown : ℕ,
      (∀ k : ℕ, IsShown (Float.ofInt n) k ↔ k = shown) ∧ (n ≤ 2 ^ 53 → (shown : ℤ) = n) ∧
      (dominance n p).map render =
        .ok ("NK(" ++ toString shown ++ ", " ++ numberText p ++ ")") ∧
      (percent p n).map render = .ok ("P(" ++ numberText p ++ ", " ++ toString shown ++ ")") ∧
      (frequency n p).map render =
        .ok ("FREQ(" ++ toString shown ++ ", " ++ numberText p ++ ")") := by
  obtain ⟨n, rfl⟩ := Int.eq_ofNat_of_zero_le (show 0 ≤ n by omega)
  obtain ⟨shown, htext, hshown, hexact⟩ := numberText_count (n := n) (by omega) (by omega)
  have hpositive : ∀ kind parameter, positive kind parameter n = .ok (Float.ofInt n) :=
    fun kind parameter => if_pos hn
  have hpercentage : ∀ kind parameter, percentage kind parameter p = .ok p :=
    fun kind parameter => if_pos (by simp [hp, hp'])
  refine ⟨shown, hshown, fun hle => ?_, ?_, ?_, ?_⟩
  · exact_mod_cast hexact (by exact_mod_cast hle)
  · rw [dominance, hpositive, hpercentage, ← htext]
    exact congrArg Except.ok (render_pair .dominance (Float.ofInt n) p)
  · rw [percent, hpositive, hpercentage, ← htext]
    exact congrArg Except.ok (render_pair .percent p (Float.ofInt n))
  · rw [frequency, hpositive, hpercentage, ← htext]
    exact congrArg Except.ok (render_pair .frequency (Float.ofInt n) p)

theorem count_shown_large : (1 : ℤ) ≤ 9007199254740993 ∧ (9007199254740993 : ℤ) < 2 ^ 63 ∧
    (0 : Float) ≤ 75 ∧ (75 : Float) ≤ 100 ∧ ∃ shown : ℕ,
      (∀ k : ℕ, IsShown (Float.ofInt 9007199254740993) k ↔ k = shown) ∧
      ((9007199254740993 : ℤ) ≤ 2 ^ 53 → (shown : ℤ) = 9007199254740993) ∧
      (dominance 9007199254740993 75).map render =
        .ok ("NK(" ++ toString shown ++ ", " ++ numberText 75 ++ ")") ∧
      (percent 75 9007199254740993).map render =
        .ok ("P(" ++ numberText 75 ++ ", " ++ toString shown ++ ")") ∧
      (frequency 9007199254740993 75).map render =
        .ok ("FREQ(" ++ toString shown ++ ", " ++ numberText 75 ++ ")") :=
  ⟨by decide, by decide, by decide, by decide,
    count_shown (by decide) (by decide) (by decide) (by decide)⟩

/-- The first count that is lost. -/
theorem count_not_shown : ¬ ∀ n : ℤ, 1 ≤ n → n < 2 ^ 63 → ∀ p : Float, 0 ≤ p → p ≤ 100 →
    (dominance n p).map render = .ok ("NK(" ++ toString n ++ ", " ++ numberText p ++ ")") ∧
    (percent p n).map render = .ok ("P(" ++ numberText p ++ ", " ++ toString n ++ ")") ∧
    (frequency n p).map render =
      .ok ("FREQ(" ++ toString n ++ ", " ++ numberText p ++ ")") := by
  intro h
  obtain ⟨hdominance, -⟩ := h 9007199254740993 (by decide) (by decide) 75 (by decide) (by decide)
  have hshown : (dominance 9007199254740993 75).map render = .ok "NK(9007199254740992, 75)" := rfl
  rw [hshown] at hdominance
  exact absurd (Except.ok.inj hdominance) (by decide)

end SafetyRule

end Disclosure
