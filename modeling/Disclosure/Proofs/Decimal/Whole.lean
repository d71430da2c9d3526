import Disclosure.Fault
import Disclosure.Proofs.Decimal
import Disclosure.Proofs.Decimal.Carried
import Disclosure.Proofs.Decimal.Shortest

/-!
# How whole floats are written

A whole float below 10^15 is written as an integer and any other float as its shortest decimal. For a
whole float this makes no difference (`numberText_toFloat`): the steps of floats below 10^15 are
smaller than one, so no other whole number is read as the float, and the shortest decimal is the float
itself.

Up to 2^53 this is so for every natural number. Two numbers are read as 2^53, but the second one does
not end in a zero either, and it is not as near.
-/

namespace Disclosure

namespace Decimal

theorem digitsOf_mul_pow {n : ℕ} (hn : 0 < n) (zeros : ℕ) :
    digitsOf (n * 10 ^ zeros) = digitsOf n ++ List.replicate zeros '0' := by
  induction zeros with
  | zero => simp
  | succ zeros ih =>
    have hone := Nat.toDigits_append_toDigits (b := 10) (n := n * 10 ^ zeros) (d := 0) (by decide)
      (by positivity) (by decide)
    rw [List.replicate_succ', ← List.append_assoc, ← ih, digitsOf, digitsOf, pow_succ,
      ← mul_assoc, mul_comm _ 10]
    exact hone.symm

/-- A whole number without a zero left over is written with its digits. -/
theorem positional_eq_digitsOf {d : Decimal} (hd : d.digits % 10 ≠ 0) {n : ℕ} (h : d.value = n) :
    d.positional = digitsOf n := by
  have hpos : d.digits ≠ 0 := by
    intro hzero
    simp [hzero] at hd
  unfold positional
  cases hexponent : d.exponent with
  | ofNat zeros =>
    rw [value, hexponent, Int.ofNat_eq_natCast, zpow_natCast] at h
    dsimp only
    rw [if_neg hpos, ← digitsOf_mul_pow (by omega)]
    congr 1
    exact_mod_cast h
  | negSucc places =>
    -- the last digit would be a zero
    exfalso
    rw [value, hexponent, zpow_negSucc, ← div_eq_mul_inv, div_eq_iff (by positivity)] at h
    have hdigits : d.digits = n * 10 ^ (places + 1) := by exact_mod_cast h
    rw [pow_succ, ← mul_assoc] at hdigits
    omega

end Decimal

/-- The grids that a natural number is on tell how many zeros it ends in. -/
theorem onGrid_natCast_iff {n z : ℕ} : OnGrid z (n : ℚ) ↔ 10 ^ z ∣ n := by
  constructor
  · rintro ⟨k, hk⟩
    rw [zpow_natCast] at hk
    exact ⟨k, by rw [mul_comm]; exact_mod_cast hk⟩
  · rintro ⟨k, rfl⟩
    exact ⟨k, by push_cast; rw [zpow_natCast, mul_comm]⟩

/-- A natural number is on all grids that are finer than the units. -/
theorem onGrid_natCast {unit : ℤ} (h : unit ≤ 0) (n : ℕ) : OnGrid unit (n : ℚ) :=
  OnGrid.of_le h (onGrid_natCast_iff (z := 0).mpr (one_dvd n))

theorem OnGrid.exists_natCast {unit : ℤ} (h : 0 ≤ unit) {q : ℚ} (hq : OnGrid unit q) :
    ∃ n : ℕ, q = n := by
  obtain ⟨n, hn⟩ := hq.of_le h
  exact ⟨n, by rwa [zpow_zero, mul_one] at hn⟩

/-- A whole float is its own shortest decimal if no number that ends in a zero is read as it, apart
from itself. -/
theorem Binary.isShortest_of_value_eq {b : Binary} {n : ℕ} (hvalue : b.value = n)
    (hzero : ∀ k : ℕ, b.Reads k → 10 ∣ k → k = n) : b.IsShortest n := by
  refine ⟨hvalue ▸ b.reads_value, fun unit p hp hp' => ?_, fun p _ _ => ?_⟩
  · rcases le_or_gt unit 0 with hfine | hcoarse
    · exact onGrid_natCast hfine n
    · obtain ⟨k, rfl⟩ := hp.exists_natCast hcoarse.le
      have hten : 10 ∣ k := onGrid_natCast_iff (z := 1).mp (hp.of_le hcoarse)
      rwa [← hzero k hp' hten]
  · rcases le_total p n with hle | hge
    · exact prefers_of_le hle hvalue.ge
    · exact prefers_of_ge hge hvalue.le

/-- Whole numbers that are read as a whole float are at most half a step away. -/
theorem Binary.Reads.two_mul_abs_sub_le {b : Binary} {n k step : ℕ} (hk : b.Reads k)
    (hvalue : b.value = n) (hstep : b.step ≤ step) : 2 * |(k : ℤ) - n| ≤ step := by
  have hbelow := b.reachBelow_le
  have hge := hk.ge
  have hle := hk.le
  have hnear : 2 * |(k : ℚ) - n| ≤ step := by
    rw [← hvalue, ← le_div_iff₀' two_pos, abs_le]
    constructor <;> linarith
  exact_mod_cast hnear

/-- A whole float with steps that are not larger than one is its own shortest decimal. -/
theorem Binary.isShortest_of_step_le_one {b : Binary} {n : ℕ} (hvalue : b.value = n)
    (hstep : b.step ≤ 1) : b.IsShortest n := by
  refine isShortest_of_value_eq hvalue fun k hk _ => ?_
  have hone : b.step ≤ (1 : ℕ) := by exact_mod_cast hstep
  have hnear := hk.two_mul_abs_sub_le hvalue hone
  have hzero : |(k : ℤ) - n| = 0 := by
    have hnonneg := abs_nonneg ((k : ℤ) - n)
    omega
  rw [abs_eq_zero] at hzero
  omega

namespace Binary.Normal

variable {b : Binary} (h : b.Normal)

include h

/-- Nothing is lost of a number with at most 53 bits. -/
theorem value_eq_of_lt {n : ℕ} (hn : n ≠ 0) (hlt : n < 2 ^ 53) (hreads : b.Reads n) :
    b.value = n ∧ b.step ≤ 1 := by
  obtain ⟨s, hs⟩ : ∃ s, n.log2 + s = 52 := by
    have hlog := (Nat.log2_lt hn).mpr hlt
    exact ⟨52 - n.log2, by omega⟩
  have hlog : (n * 2 ^ s).log2 = 52 := by rw [log2_mul_two_pow hn, hs]
  obtain ⟨hlow, hhigh⟩ := (Nat.log2_eq_iff (by positivity)).mp hlog
  have hnormal : (⟨n * 2 ^ s, -s, n * 2 ^ s == 2 ^ 52⟩ : Binary).Normal := ⟨hlow, hhigh, beq_iff_eq⟩
  have hvalue : (⟨n * 2 ^ s, -s, n * 2 ^ s == 2 ^ 52⟩ : Binary).value = n := by
    rw [value, step, zpow_neg, zpow_natCast]
    push_cast
    field_simp
  obtain rfl := h.eq_of_reads hnormal hreads (hvalue ▸ reads_value _)
  exact ⟨hvalue, zpow_le_one_of_nonpos₀ (by norm_num) (by dsimp only; omega)⟩

/-- A natural number is carried as a whole float. -/
theorem exists_value_eq {n : ℕ} (hn : n ≠ 0) (hreads : b.Reads n) : ∃ v : ℕ, b.value = v := by
  rcases Nat.lt_or_ge n (2 ^ 53) with hlt | hge
  · exact ⟨n, (h.value_eq_of_lt hn hlt hreads).1⟩
  · have hexponent := h.lt_exponent_add hreads (k := 53) (by exact_mod_cast hge)
    obtain ⟨e, he⟩ := Int.eq_ofNat_of_zero_le (show 0 ≤ b.exponent by omega)
    refine ⟨b.mantissa * 2 ^ e, ?_⟩
    rw [value, step, he, zpow_natCast]
    push_cast
    rfl

/-- **Up to 2^53 a natural number is the shortest decimal of its float.** -/
theorem isShortest_of_le {n : ℕ} (hn : n ≠ 0) (hle : n ≤ 2 ^ 53) (hreads : b.Reads n) :
    b.IsShortest n := by
  rcases hle.lt_or_eq with hlt | rfl
  · obtain ⟨hvalue, hstep⟩ := h.value_eq_of_lt hn hlt hreads
    exact isShortest_of_step_le_one hvalue hstep
  · have hnormal : (⟨2 ^ 52, 1, true⟩ : Binary).Normal := ⟨le_rfl, by norm_num, by simp⟩
    have hvalue : (⟨2 ^ 52, 1, true⟩ : Binary).value = (2 ^ 53 : ℕ) := by
      norm_num [value, step]
    have hstep : (⟨2 ^ 52, 1, true⟩ : Binary).step ≤ (2 : ℕ) := by norm_num [step]
    obtain rfl := h.eq_of_reads hnormal hreads (hvalue ▸ reads_value _)
    refine isShortest_of_value_eq hvalue fun k hk hten => ?_
    -- the numbers next to it end in a one and in a three
    have hnear := hk.two_mul_abs_sub_le hvalue hstep
    have hle : |(k : ℤ) - (2 ^ 53 : ℕ)| ≤ 1 := by omega
    rw [abs_le] at hle
    omega

theorem shortest_digits_mod_ten : (Decimal.shortest b).digits % 10 ≠ 0 := by
  have hpos := h.pos_of_reads h.isShortest.reads
  have hstrip : (Decimal.shortest b).digits = 0 ∨ (Decimal.shortest b).digits % 10 ≠ 0 := by
    unfold Decimal.shortest
    rw [if_neg h.mantissa_pos.ne']
    exact (Decimal.strip_spec _).2
  refine hstrip.resolve_left fun hzero => ?_
  rw [Decimal.value, hzero, Nat.cast_zero, zero_mul] at hpos
  exact lt_irrefl 0 hpos

/-- A whole number that is shortest is written with its digits. -/
theorem plainText_toFloat (hrange : b.InRange) {n : ℕ} (hn : b.IsShortest n) :
    plainText (b.toFloat h) = toString n := by
  rw [plainText, h.viewOf_toFloat hrange, FloatView.write, signed, if_neg Bool.false_ne_true,
    Decimal.positional_eq_digitsOf h.shortest_digits_mod_ten (h.isShortest.eq hn),
    ← String.toList_inj, String.toList_ofList, toList_toString_nat]

theorem truncated?_toFloat (hrange : b.InRange) {n : ℕ} (hvalue : b.value = n) :
    truncated? (b.toFloat h) = some (n : ℤ) := by
  rw [truncated?, h.viewOf_toFloat hrange]
  dsimp only
  rw [if_neg Bool.false_ne_true, value_eq_natCast_iff.mp hvalue,
    Nat.mul_div_cancel _ b.ratio_snd_pos]

theorem abs_toFloat (hrange : b.InRange) : (b.toFloat h).abs = b.toFloat h := by
  change (⟨Float.Model.pack (b.toFloat h).toModel.unpack.abs⟩ : Float) = _
  rw [h.unpack_toFloat hrange]
  rfl

/-- Floats below 10^15 have steps that are smaller than one. -/
theorem exponent_le_of_lt (hrange : b.InRange) (hlt : b.toFloat h < 1e15) : b.exponent ≤ -3 := by
  have hbound : (1e15 : Float).toModel.unpack =
      .finite .positive 8000000000000000 (-3) (by decide) := rfl
  have hmodel : (b.toFloat h).toModel < (1e15 : Float).toModel := of_decide_eq_true hlt
  have hcompare : ((b.toFloat h).toModel.unpack.compare (1e15 : Float).toModel.unpack ==
      some .lt) = true := hmodel
  rw [h.unpack_toFloat hrange, hbound] at hcompare
  by_contra hlarge
  have hgt : compare b.exponent (-3) = .gt := Int.compare_eq_gt.mpr (not_le.mp hlarge)
  simp [Float.Model.UnpackedFloat.compare, hgt] at hcompare

/-- **The two ways to write a float agree where it is whole.** -/
theorem numberText_toFloat (hrange : b.InRange) :
    numberText (b.toFloat h) = plainText (b.toFloat h) := by
  unfold numberText
  by_cases hsmall : (Disclosure.isWhole (b.toFloat h) && (b.toFloat h).abs < 1e15) = true
  · rw [if_pos hsmall]
    rw [Bool.and_eq_true, decide_eq_true_iff, h.abs_toFloat hrange] at hsmall
    obtain ⟨hwhole, hlt⟩ := hsmall
    rw [Disclosure.isWhole, h.viewOf_toFloat hrange] at hwhole
    obtain ⟨n, hn⟩ := Nat.dvd_of_mod_eq_zero (beq_iff_eq.mp hwhole)
    have hvalue : b.value = n := value_eq_natCast_iff.mpr (hn.trans (mul_comm _ _))
    have hexponent := h.exponent_le_of_lt hrange hlt
    have hstep : b.step ≤ 1 := zpow_le_one_of_nonpos₀ (by norm_num) (by omega)
    rw [h.plainText_toFloat hrange (isShortest_of_step_le_one hvalue hstep),
      h.truncated?_toFloat hrange hvalue]
    rfl
  · rw [if_neg hsmall]

end Binary.Normal

end Disclosure
