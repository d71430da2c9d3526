import Disclosure.Decimal.Layout
import Mathlib

/-!
# How floats are rounded and packed

A mantissa with more than 53 bits is shifted to the right. Of the bits that are shifted out two are
kept, the last one and whether there was any before it, and they are enough to go to the nearest
mantissa, ties going to even (`roundedMantissa_shiftRight`). This may give a mantissa of one bit more,
which is shifted once again.

A mantissa of 53 bits and an exponent that fits get into a row of bits and out of it again without a
change.
-/

namespace Disclosure

open Float.Model Float.Model.UnpackedFloat

/-! ## Rounding -/

theorem shiftRight_succ (em : ExtendedMantissa) (n : ℕ) :
    em >>> (n + 1) = (em >>> n).shiftRightOne := rfl

/-- The bits that are shifted out are remembered by the last one and by whether one before is set. -/
theorem shiftRight_eq (m n : ℕ) : (⟨m, false, false⟩ : ExtendedMantissa) >>> (n + 1) =
    ⟨m / 2 ^ (n + 1), m / 2 ^ n % 2 != 0, m % 2 ^ n != 0⟩ := by
  induction n with
  | zero =>
    rw [shiftRight_succ]
    simp [ExtendedMantissa.shiftRightOne, HShiftRight.hShiftRight, Nat.repeat, Nat.mod_one]
  | succ n ih =>
    have hbits : (m / 2 ^ n % 2 != 0 || m % 2 ^ n != 0) = (m % 2 ^ (n + 1) != 0) := by
      have hzero : m % 2 ^ (n + 1) = 0 ↔ m / 2 ^ n % 2 = 0 ∧ m % 2 ^ n = 0 := by
        rw [Nat.mod_pow_succ, Nat.add_eq_zero_iff, Nat.mul_eq_zero, and_comm]
        simp
      rw [Bool.eq_iff_iff]
      simp only [Bool.or_eq_true, bne_iff_ne, ne_eq, hzero]
      tauto
    rw [shiftRight_succ, ih, ExtendedMantissa.shiftRightOne]
    dsimp only
    rw [hbits, Nat.div_div_eq_div_mul, ← pow_succ]

/-- Rounding what is shifted goes to the nearest, ties to even. -/
theorem roundedMantissa_shiftRight (m n : ℕ) :
    ((⟨m, false, false⟩ : ExtendedMantissa) >>> n).roundedMantissa =
      Decimal.roundHalfEven m (2 ^ n) := by
  cases n with
  | zero =>
    simp [Decimal.roundHalfEven, HShiftRight.hShiftRight, Nat.repeat, Nat.mod_one]
    rfl
  | succ n =>
    rw [shiftRight_eq]
    have hpos := Nat.two_pow_pos n
    have hlow := Nat.mod_lt m hpos
    have hmod : m % 2 ^ (n + 1) = m % 2 ^ n + 2 ^ n * (m / 2 ^ n % 2) := Nat.mod_pow_succ
    unfold Decimal.roundHalfEven
    dsimp only
    rw [hmod, pow_succ]
    rcases Nat.mod_two_eq_zero_or_one (m / 2 ^ n) with hbit | hbit
    · have hdown : 2 * (m % 2 ^ n + 2 ^ n * (m / 2 ^ n % 2)) < 2 ^ n * 2 := by
        rw [hbit]
        omega
      rw [if_pos hdown, hbit]
      cases h : m % 2 ^ n != 0 <;> rfl
    · rw [hbit, mul_one, if_neg (by omega)]
      by_cases hrest : m % 2 ^ n = 0
      · rw [hrest, if_neg (by omega)]
        rfl
      · rw [if_pos (by omega), bne_iff_ne.mpr hrest]
        rfl

/-- What is rounded is at most half a unit away, and less if the result is odd. -/
theorem abs_sub_roundHalfEven (num : ℕ) {den : ℕ} (hden : 0 < den) :
    2 * |(num : ℤ) - Decimal.roundHalfEven num den * den| ≤ den ∧
      (Decimal.roundHalfEven num den % 2 = 1 →
        2 * |(num : ℤ) - Decimal.roundHalfEven num den * den| < den) := by
  have hmod := Nat.mod_lt num hden
  have hdown : (num : ℤ) - (num / den : ℕ) * den = (num % den : ℕ) := by
    rw [Int.natCast_mod, Int.emod_def, mul_comm]
    rfl
  have hup : (num : ℤ) - (num / den + 1 : ℕ) * den = (num % den : ℕ) - den := by
    rw [← hdown]
    push_cast
    ring
  have hrest : |((num % den : ℕ) : ℤ)| = (num % den : ℕ) := abs_of_nonneg (Int.natCast_nonneg _)
  have hgap : |((num % den : ℕ) : ℤ) - den| = den - (num % den : ℕ) := by
    rw [abs_sub_comm, abs_of_nonneg (by omega)]
  unfold Decimal.roundHalfEven
  dsimp only
  by_cases hlow : 2 * (num % den) < den
  · rw [if_pos hlow, hdown, hrest]
    omega
  · rw [if_neg hlow]
    by_cases hhigh : 2 * (num % den) > den
    · rw [if_pos hhigh, hup, hgap]
      omega
    · rw [if_neg hhigh]
      rcases Nat.mod_two_eq_zero_or_one (num / den) with heven | hodd
      · rw [heven, add_zero, hdown, hrest]
        omega
      · rw [hodd, hup, hgap]
        omega

theorem roundHalfEven_mem (num den : ℕ) :
    num / den ≤ Decimal.roundHalfEven num den ∧ Decimal.roundHalfEven num den ≤ num / den + 1 := by
  unfold Decimal.roundHalfEven
  dsimp only
  split_ifs <;> omega

theorem bounds_of_log2_eq {m n : ℕ} (hm : m.log2 = 52 + n) :
    2 ^ (52 + n) ≤ m ∧ m < 2 ^ (53 + n) := by
  have hne : m ≠ 0 := by
    rintro rfl
    rw [Nat.log2_zero] at hm
    omega
  have hbounds := (Nat.log2_eq_iff hne).mp hm
  rwa [Nat.add_right_comm] at hbounds

/-- A mantissa that is rounded to 53 bits has 53 bits, or is one more than what they can hold. -/
theorem roundHalfEven_bounds {m n : ℕ} (hm : m.log2 = 52 + n) :
    2 ^ 52 ≤ Decimal.roundHalfEven m (2 ^ n) ∧ Decimal.roundHalfEven m (2 ^ n) ≤ 2 ^ 53 := by
  obtain ⟨hlow, hhigh⟩ := bounds_of_log2_eq hm
  have hfloor : 2 ^ 52 ≤ m / 2 ^ n :=
    (Nat.le_div_iff_mul_le (Nat.two_pow_pos n)).mpr (by rwa [← pow_add])
  have hceil : m / 2 ^ n < 2 ^ 53 :=
    (Nat.div_lt_iff_lt_mul (Nat.two_pow_pos n)).mpr (by rwa [← pow_add])
  obtain ⟨hge, hle⟩ := roundHalfEven_mem m (2 ^ n)
  omega

/-- Shifting to the place of the last bit. -/
theorem shiftToTargetExponent_eq {m n : ℕ} {e : ℤ} (hm : m.log2 = 52 + n) (he : -1074 ≤ e + n) :
    shiftToTargetExponent Format.binary64 m e .exact =
      ((⟨m, false, false⟩ : ExtendedMantissa) >>> n, e + n) := by
  have htarget : Format.binary64.targetExponent (totalExponent m e) = e + n := by
    simp only [Format.targetExponent, totalExponent, Format.mantissaBits, Format.minExponent, hm]
    norm_num
    omega
  have hshift : (e + n - e).toNat = n := by omega
  simp only [shiftToTargetExponent, shiftToExponent, htarget, hshift,
    ExtendedMantissa.ofMantissaAndAccuracy]

/-- **A mantissa of at least 53 bits is rounded to the nearest one with 53 bits**, ties going to
even. -/
theorem roundWithAccuracy_eq {m n : ℕ} {e : ℤ} (hm : m.log2 = 52 + n) (he : -1074 ≤ e + n) :
    roundWithAccuracy Format.binary64 .positive m e .exact =
      if Decimal.roundHalfEven m (2 ^ n) < 2 ^ 53 then
        .finite .positive (Decimal.roundHalfEven m (2 ^ n)) (e + n)
          ((Nat.two_pow_pos 52).trans_le (roundHalfEven_bounds hm).1)
      else .finite .positive (2 ^ 52) (e + n + 1) (by decide) := by
  obtain ⟨hlow, hhigh⟩ := roundHalfEven_bounds hm
  rw [roundWithAccuracy, shiftToTargetExponent_eq hm he]
  dsimp only
  rw [roundedMantissa_shiftRight]
  generalize hq : Decimal.roundHalfEven m (2 ^ n) = q at *
  by_cases hlt : q < 2 ^ 53
  · rw [if_pos hlt]
    have hlog : q.log2 = 52 + 0 := (Nat.log2_eq_iff (by omega)).mpr ⟨hlow, hlt⟩
    have hshift : ((⟨q, false, false⟩ : ExtendedMantissa) >>> 0).mantissa = q := rfl
    rw [shiftToTargetExponent_eq hlog (by simpa using he)]
    simp [hshift, show q ≠ 0 by omega]
  · rw [if_neg hlt]
    obtain rfl : q = 2 ^ 53 := by omega
    have hlog : (2 ^ 53).log2 = 52 + 1 := Nat.log2_two_pow
    rw [shiftToTargetExponent_eq hlog (by push_cast; omega)]
    rfl

/-! ## Packing -/

theorem toNat_packComponents {e m : ℕ} (he : e < 2 ^ 11) (hm : m < 2 ^ 52) :
    (packComponents Format.binary64 .positive (BitVec.ofNat 11 e) (BitVec.ofNat 52 m)).toNat =
      e * 2 ^ 52 + m := by
  unfold packComponents
  rw [BitVec.toNat_append, BitVec.toNat_append, BitVec.toNat_ofNat, BitVec.toNat_ofNat,
    Nat.mod_eq_of_lt he, Nat.mod_eq_of_lt hm]
  change (0 <<< 11 ||| e) <<< 52 ||| m = _
  rw [Nat.zero_shiftLeft, Nat.zero_or, ← Nat.shiftLeft_add_eq_or_of_lt hm, Nat.shiftLeft_eq]

section

variable {m : ℕ} {e : ℤ} (hpos : 0 < m) (hlow : 2 ^ 52 ≤ m) (hhigh : m < 2 ^ 53) (he : -1073 ≤ e)
  (he' : e ≤ 971)

include hlow hhigh he he'

theorem pack_normal :
    UnpackedFloat.pack Format.binary64 (.finite .positive m e hpos) =
      packComponents Format.binary64 .positive (BitVec.ofNat 11 (e + 1075).toNat)
        (BitVec.ofNat 52 (m - 2 ^ 52)) := by
  have hlog : m.log2 = 52 := (Nat.log2_eq_iff (by omega)).mpr ⟨hlow, hhigh⟩
  have hmantissa : BitVec.ofNat 52 m = BitVec.ofNat 52 (m - 2 ^ 52) := by
    refine BitVec.eq_of_toNat_eq ?_
    rw [BitVec.toNat_ofNat, BitVec.toNat_ofNat]
    omega
  simp only [UnpackedFloat.pack, hlog, Format.exponentBias, Format.mantissaBits]
  rw [if_neg (by norm_num; omega), if_pos trivial, ← hmantissa]
  congr 2
  norm_num
  omega

/-- What a float with all bits of its mantissa in use stands for. -/
theorem viewOf_pack :
    viewOf ⟨Float.Model.pack (.finite .positive m e hpos)⟩ =
      .finite false ⟨m, e, m == 2 ^ 52⟩ := by
  have hbits : (Float.toBits ⟨Float.Model.pack (.finite .positive m e hpos)⟩).toNat =
      (e + 1075).toNat * 2 ^ 52 + (m - 2 ^ 52) := by
    change (UnpackedFloat.pack Format.binary64 (.finite .positive m e hpos)).toNat = _
    rw [pack_normal hpos hlow hhigh he he']
    exact toNat_packComponents (by omega) (by omega)
  have hfraction : ((e + 1075).toNat * 2 ^ 52 + (m - 2 ^ 52)) % 2 ^ 52 = m - 2 ^ 52 := by omega
  have hbiased : ((e + 1075).toNat * 2 ^ 52 + (m - 2 ^ 52)) / 2 ^ 52 % 2 ^ 11 =
      (e + 1075).toNat := by omega
  have hsign : ((e + 1075).toNat * 2 ^ 52 + (m - 2 ^ 52)) / 2 ^ 63 % 2 = 0 := by omega
  have hexponent : FloatFormat.double.lowestExponent + ((e + 1075).toNat - 1 : ℕ) = e := by
    change (-1074 : ℤ) + _ = e
    omega
  have hmantissa : 2 ^ 52 + (m - 2 ^ 52) = m := by omega
  have hwidths : FloatFormat.double.fractionBits = 52 ∧ FloatFormat.double.exponentBits = 11 :=
    ⟨rfl, rfl⟩
  unfold viewOf FloatFormat.view
  rw [hbits]
  simp only [twoTo, Nat.pow_eq, hwidths, hfraction, hbiased, hsign, hexponent, hmantissa,
    Nat.reduceAdd]
  rw [if_neg (by simp; omega), if_neg (by simp; omega)]
  have hnarrow : (m - 2 ^ 52 == 0 && (e + 1075).toNat != 1) = (m == 2 ^ 52) := by
    rw [Bool.eq_iff_iff]
    simp
    omega
  rw [hnarrow]
  rfl

/-- A float with all bits of its mantissa in use is unpacked as it was packed. -/
theorem unpack_pack :
    (Float.Model.pack (.finite .positive m e hpos)).unpack = .finite .positive m e hpos := by
  change UnpackedFloat.unpack _ (UnpackedFloat.pack _ _) = _
  have hexponent : (BitVec.ofNat 11 (e + 1075).toNat).toNat = (e + 1075).toNat := by
    rw [BitVec.toNat_ofNat]
    omega
  have hmantissa : (1#1 ++ BitVec.ofNat 52 (m - 2 ^ 52)).toNat = m := by
    have hrest : (BitVec.ofNat 52 (m - 2 ^ 52)).toNat = m - 2 ^ 52 := by
      rw [BitVec.toNat_ofNat]
      omega
    rw [BitVec.toNat_append, hrest]
    change 1 <<< 52 ||| (m - 2 ^ 52) = m
    rw [← Nat.shiftLeft_add_eq_or_of_lt (by omega), Nat.shiftLeft_eq]
    omega
  have hsign : unpackSign (packComponents Format.binary64 .positive
      (BitVec.ofNat 11 (e + 1075).toNat) (BitVec.ofNat 52 (m - 2 ^ 52))) = 0#1 :=
    unpackSign_packComponents ..
  have hne : ∀ v : BitVec 11, v.toNat ≠ (e + 1075).toNat →
      ¬ BitVec.ofNat 11 (e + 1075).toNat = v := by
    rintro v hv rfl
    exact hv hexponent
  have hones : (-1#11).toNat = 2047 := rfl
  have hzeros : (0#11).toNat = 0 := rfl
  rw [pack_normal hpos hlow hhigh he he', UnpackedFloat.unpack]
  simp only [unpackExponent_packComponents, unpackMantissa_packComponents, hsign]
  rw [if_neg (hne _ (by omega)), if_neg (hne _ (by omega))]
  simp only [hmantissa, hexponent]
  congr 1
  change _ - ((1023 : ℕ) + (52 : ℕ) : ℤ) = e
  omega

end

/-- A float that is too large is infinite. -/
theorem viewOf_pack_of_lt {m : ℕ} {e : ℤ} (hpos : 0 < m) (he : 971 < e) :
    viewOf ⟨Float.Model.pack (.finite .positive m e hpos)⟩ = .infinite false := by
  have hlarge : 2 ^ 11 ≤ (e + (2 ^ (11 - 1) - 1 : ℕ) + (52 : ℕ)).toNat + 1 := by
    norm_num
    omega
  have hbits : UnpackedFloat.pack Format.binary64 (.finite .positive m e hpos) =
      packedInfinity Format.binary64 .positive :=
    if_pos hlarge
  unfold viewOf Float.toBits Float.Model.pack
  simp only [hbits]
  rfl

end Disclosure
