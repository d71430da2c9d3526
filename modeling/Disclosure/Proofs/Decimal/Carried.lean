import Disclosure.Proofs.Decimal.Reads
import Disclosure.Proofs.Decimal.Rounding

/-!
# Natural numbers as floats

A natural number is carried as the float that it is read as (`ofNat_eq_toFloat`). Up to 53 bits
nothing is lost; a longer number is rounded, and half a step is as far as rounding goes. The one thing
to look at is a power of two, which has smaller steps below it than above.

So numbers are carried as the same float exactly when they are in the interval of that float
(`ofNat_eq_ofNat_iff`).
-/

namespace Disclosure

open Float.Model Float.Model.UnpackedFloat

/-! ## Floats with all bits of the mantissa in use -/

/-- The float of a size. -/
def Binary.toFloat (b : Binary) (h : b.Normal) : Float :=
  ⟨Float.Model.pack (.finite .positive b.mantissa b.exponent h.mantissa_pos)⟩

/-- The exponents of floats with all bits of the mantissa in use, apart from the lowest. -/
def Binary.InRange (b : Binary) : Prop :=
  -1073 ≤ b.exponent ∧ b.exponent ≤ 971

namespace Binary.Normal

variable {b : Binary} (h : b.Normal)

include h

theorem unpack_toFloat (hrange : b.InRange) : (b.toFloat h).toModel.unpack =
    .finite .positive b.mantissa b.exponent h.mantissa_pos :=
  unpack_pack h.mantissa_pos h.le h.lt hrange.1 hrange.2

theorem viewOf_toFloat (hrange : b.InRange) : viewOf (b.toFloat h) = .finite false b := by
  have hnarrow : (b.mantissa == 2 ^ 52) = b.narrowBelow := by
    rw [Bool.eq_iff_iff, h.narrow_iff, beq_iff_eq]
  rw [toFloat, viewOf_pack h.mantissa_pos h.le h.lt hrange.1 hrange.2, hnarrow]

end Binary.Normal

/-! ## From natural numbers to floats -/

/-- Rounding a mantissa moves the number by half a step at most. -/
theorem abs_sub_roundHalfEven_le (m n : ℕ) (e : ℤ) :
    |(m : ℚ) * 2 ^ e - Decimal.roundHalfEven m (2 ^ n) * 2 ^ (e + n)| ≤ 2 ^ (e + n) / 2 ∧
      (Decimal.roundHalfEven m (2 ^ n) % 2 = 1 →
        |(m : ℚ) * 2 ^ e - Decimal.roundHalfEven m (2 ^ n) * 2 ^ (e + n)| < 2 ^ (e + n) / 2) := by
  obtain ⟨hnear, hodd⟩ := abs_sub_roundHalfEven m (Nat.two_pow_pos n)
  generalize Decimal.roundHalfEven m (2 ^ n) = q at *
  have hunit : (0 : ℚ) < 2 ^ e := by positivity
  have hstep : (2 : ℚ) ^ (e + n) = 2 ^ n * 2 ^ e := by
    rw [add_comm, zpow_add₀ (by norm_num), zpow_natCast]
  have hdist : |(m : ℚ) * 2 ^ e - q * 2 ^ (e + n)| =
      (|(m : ℤ) - q * (2 ^ n : ℕ)| : ℤ) * 2 ^ e := by
    rw [hstep, ← mul_assoc, ← sub_mul, abs_mul, abs_of_pos hunit]
    push_cast
    rfl
  rw [hdist, hstep, mul_div_right_comm, mul_le_mul_iff_left₀ hunit, mul_lt_mul_iff_left₀ hunit,
    le_div_iff₀ two_pos, lt_div_iff₀ two_pos, mul_comm]
  exact ⟨by exact_mod_cast hnear, fun hq => by exact_mod_cast hodd hq⟩

/-- What is rounded up to a power of two is read as it, though the steps below it are smaller. -/
theorem reads_of_roundHalfEven_eq {m n : ℕ} {e : ℤ} (hm : m < 2 ^ (53 + n))
    (hround : Decimal.roundHalfEven m (2 ^ n) = 2 ^ 53) {b : Binary} (hmantissa : b.mantissa = 2 ^ 52)
    (hexponent : b.exponent = e + n + 1) : b.Reads (m * 2 ^ e) := by
  have hstep : b.step = 2 * 2 ^ (e + n) := by
    rw [Binary.step, hexponent, zpow_add_one₀ (by norm_num), mul_comm]
  have hvalue : b.value = 2 ^ 53 * 2 ^ (e + n) := by
    rw [Binary.value, hmantissa, hstep]
    push_cast
    ring
  have hbelow : 2 ^ (e + n) / 2 ≤ b.reachBelow := by
    have hpos : (0 : ℚ) < 2 ^ (e + n) := by positivity
    rw [Binary.reachBelow, hstep]
    split <;> linarith
  have hge := (abs_le.mp (abs_sub_roundHalfEven_le m n e).1).1
  have hle : (m : ℚ) * 2 ^ e ≤ (2 ^ (53 + n) : ℕ) * 2 ^ e :=
    mul_le_mul_of_nonneg_right (Nat.cast_le.mpr hm.le) (by positivity)
  have htop : ((2 ^ (53 + n) : ℕ) : ℚ) * 2 ^ e = b.value := by
    rw [hvalue, zpow_add₀ (by norm_num), zpow_natCast, pow_add]
    push_cast
    ring
  have hpos := b.step_pos
  rw [hround] at hge
  push_cast at hge
  exact Binary.reads_of_even (by omega) (by linarith) (by linarith)

/-- What is rounded is read as the float that it is rounded to. -/
theorem roundWithAccuracy_reads {m n : ℕ} {e : ℤ} (hm : m.log2 = 52 + n) (he : -1074 ≤ e + n) :
    ∃ b : Binary, ∃ h : b.Normal, b.Reads (m * 2 ^ e) ∧
      roundWithAccuracy Format.binary64 .positive m e .exact =
        .finite .positive b.mantissa b.exponent h.mantissa_pos := by
  obtain ⟨hlow, hhigh⟩ := roundHalfEven_bounds hm
  obtain ⟨hnear, hodd⟩ := abs_sub_roundHalfEven_le m n e
  obtain ⟨hm₁, hm₂⟩ := bounds_of_log2_eq hm
  rw [roundWithAccuracy_eq hm he]
  by_cases hlt : Decimal.roundHalfEven m (2 ^ n) < 2 ^ 53
  · refine ⟨⟨_, e + n, Decimal.roundHalfEven m (2 ^ n) == 2 ^ 52⟩, ⟨hlow, hlt, beq_iff_eq⟩, ?_,
      if_pos hlt⟩
    -- the steps below a power of two are smaller, but nothing is rounded up to one here
    refine Binary.reads_of_abs_sub_le hnear hodd fun hnarrow => ?_
    rw [beq_iff_eq] at hnarrow
    have hle : ((2 ^ (52 + n) : ℕ) : ℚ) * 2 ^ e ≤ m * 2 ^ e :=
      mul_le_mul_of_nonneg_right (Nat.cast_le.mpr hm₁) (by positivity)
    change (Decimal.roundHalfEven m (2 ^ n) : ℚ) * 2 ^ (e + n) ≤ m * 2 ^ e
    rw [hnarrow, add_comm e, zpow_add₀ (by norm_num), zpow_natCast, ← mul_assoc]
    rw [pow_add] at hle
    exact_mod_cast hle
  · rw [if_neg hlt]
    exact ⟨⟨2 ^ 52, e + n + 1, true⟩, ⟨le_rfl, by norm_num, by simp⟩,
      reads_of_roundHalfEven_eq hm₂ (by omega) rfl rfl, rfl⟩

theorem log2_mul_two_pow {n : ℕ} (hn : n ≠ 0) (s : ℕ) : (n * 2 ^ s).log2 = n.log2 + s := by
  obtain ⟨hlow, hhigh⟩ := (Nat.log2_eq_iff hn).mp rfl
  refine (Nat.log2_eq_iff (by positivity)).mpr ⟨?_, ?_⟩
  · rw [pow_add]
    exact Nat.mul_le_mul_right _ hlow
  · rw [Nat.add_right_comm, pow_add]
    exact Nat.mul_lt_mul_of_pos_right hhigh (Nat.two_pow_pos s)

/-- Long numbers are rounded. -/
theorem ofNat_of_le {n : ℕ} (hn : 2 ^ 53 ≤ n) : Float.ofNat n =
    ⟨Float.Model.pack (roundWithAccuracy Format.binary64 .positive (n * 2 ^ 53) (-53) .exact)⟩ := by
  have hexponents : (2 : ℤ) ^ Format.binary64.exponentBits = 2048 := rfl
  have hmantissa : Format.binary64.mantissaBits = 53 := rfl
  have hround : UnpackedFloat.ofScientific Format.binary64 n 0 =
      roundWithAccuracy Format.binary64 .positive (n * 2 ^ 53) (-53) .exact := by
    rw [UnpackedFloat.ofScientific, dif_neg (by omega), if_neg (by omega), if_neg (by omega),
      if_pos le_rfl, UnpackedFloat.mul]
    simp only [hmantissa, Nat.shiftLeft_eq, Int.toNat_zero, pow_zero, mul_one]
    rfl
  change Float.ofScientific n false 0 = _
  rw [Float.ofScientific, dif_neg (by omega), ← hround]
  rfl

/-- Numbers with at most 53 bits are shifted to the left, and nothing is lost. -/
theorem ofUInt64_of_log2 {n s : ℕ} (hn : n ≠ 0) (hs : n.log2 + s = 52) :
    UnpackedFloat.ofUInt64 Format.binary64 n.toUInt64 =
      .finite .positive (n * 2 ^ s) (-s) (by positivity) := by
  have hlt : n < 2 ^ 53 := (Nat.log2_lt hn).mp (by omega)
  have hbits : n.toUInt64.toNat = n := by
    simp
    omega
  have hcompare : compare (n : ℤ) 0 = .gt := Int.compare_eq_gt.mpr (by omega)
  have htarget : Format.binary64.targetExponent (totalExponent n 0) = -s := by
    simp only [Format.targetExponent, totalExponent, Format.mantissaBits, Format.minExponent]
    norm_num
    omega
  have hshift : (0 - -(s : ℤ)).toNat = s := by omega
  have hlog : (n * 2 ^ s).log2 = 52 + 0 := by
    rw [log2_mul_two_pow hn, hs]
  have hround : Decimal.roundHalfEven (n * 2 ^ s) (2 ^ 0) = n * 2 ^ s := by
    simp [Decimal.roundHalfEven, Nat.mod_one]
  have hlt' : n * 2 ^ s < 2 ^ 53 := (Nat.log2_lt (by positivity)).mp (by omega)
  rw [UnpackedFloat.ofUInt64, hbits, UnpackedFloat.ofNat, UnpackedFloat.ofInt,
    UnpackedFloat.normalize, hcompare]
  dsimp only
  simp only [UnpackedFloat.round, Int.toNat_natCast, htarget, decreaseExponent, hshift,
    Nat.shiftLeft_eq]
  rw [roundWithAccuracy_eq hlog (by omega), if_pos (by rwa [hround])]
  simp only [hround]
  congr 1
  omega

/-- Short numbers are multiplied by one. -/
theorem ofNat_of_log2 {n s : ℕ} (hn : n ≠ 0) (hs : n.log2 + s = 52) : Float.ofNat n =
    ⟨Float.Model.pack
      (roundWithAccuracy Format.binary64 .positive (n * 2 ^ s * 2 ^ 52) (-s + -52) .exact)⟩ := by
  have hlt : n < 2 ^ 53 := (Nat.log2_lt hn).mp (by omega)
  have hone : (Float.ofBits 4607182418800017408).toModel.unpack =
      .finite .positive (2 ^ 52) (-52) (by decide) := rfl
  have hlog : (n * 2 ^ s).log2 = 52 := by rw [log2_mul_two_pow hn, hs]
  obtain ⟨hlow, hhigh⟩ := (Nat.log2_eq_iff (by positivity)).mp hlog
  have hunpack := unpack_pack (e := -s) (by positivity) hlow hhigh (by omega) (by omega)
  change Float.ofScientific n false 0 = _
  rw [Float.ofScientific, dif_pos ⟨hlt, by decide⟩]
  change (⟨Float.Model.pack (UnpackedFloat.mul Format.binary64
    (Float.Model.pack (UnpackedFloat.ofUInt64 Format.binary64 n.toUInt64)).unpack
    (Float.ofBits 4607182418800017408).toModel.unpack)⟩ : Float) = _
  rw [ofUInt64_of_log2 hn hs, hunpack, hone]
  rfl

/-- **A natural number is carried as the float that it is read as.** -/
theorem ofNat_eq_toFloat {n : ℕ} (hn : n ≠ 0) :
    ∃ b : Binary, ∃ h : b.Normal, b.Reads n ∧ Float.ofNat n = b.toFloat h := by
  rcases Nat.lt_or_ge n (2 ^ 53) with hlt | hge
  · have hs : n.log2 + (52 - n.log2) = 52 := by
      have hshort := (Nat.log2_lt hn).mpr hlt
      omega
    have hlog : (n * 2 ^ (52 - n.log2) * 2 ^ 52).log2 = 52 + 52 := by
      rw [log2_mul_two_pow (by positivity), log2_mul_two_pow hn, hs]
    obtain ⟨b, h, hreads, hround⟩ :=
      roundWithAccuracy_reads hlog (e := -(52 - n.log2 : ℕ) + -52) (by omega)
    have hsame : ((n * 2 ^ (52 - n.log2) * 2 ^ 52 : ℕ) : ℚ) * 2 ^ (-(52 - n.log2 : ℕ) + -52 : ℤ) =
        n := by
      rw [zpow_add₀ (by norm_num), zpow_neg, zpow_natCast]
      push_cast
      field_simp
      norm_num
    rw [hsame] at hreads
    exact ⟨b, h, hreads, by rw [ofNat_of_log2 hn hs, hround, Binary.toFloat]⟩
  · have hlog : (n * 2 ^ 53).log2 = 52 + (n.log2 + 1) := by
      rw [log2_mul_two_pow hn]
      omega
    obtain ⟨b, h, hreads, hround⟩ := roundWithAccuracy_reads hlog (e := -53) (by omega)
    have hsame : ((n * 2 ^ 53 : ℕ) : ℚ) * 2 ^ (-53 : ℤ) = n := by
      push_cast
      norm_num
      ring
    rw [hsame] at hreads
    exact ⟨b, h, hreads, by rw [ofNat_of_le hge, hround, Binary.toFloat]⟩

theorem ofNat_eq_of_reads {n : ℕ} (hn : n ≠ 0) {b : Binary} (h : b.Normal) (hreads : b.Reads n) :
    Float.ofNat n = b.toFloat h := by
  obtain ⟨c, hc, hreads', hfloat⟩ := ofNat_eq_toFloat hn
  obtain rfl := h.eq_of_reads hc hreads hreads'
  exact hfloat

theorem Binary.Normal.inRange_of_reads {b : Binary} (h : b.Normal) {n : ℕ} (hn : n ≠ 0)
    (hlt : n < 2 ^ 64) (hreads : b.Reads n) : b.InRange := by
  have hlow := h.lt_exponent_add hreads (k := 0) (by exact_mod_cast Nat.one_le_iff_ne_zero.mpr hn)
  have hhigh := h.exponent_add_lt hreads (k := 64) (by exact_mod_cast hlt)
  constructor <;> omega

/-- **Numbers are carried as the same float if they are read as it.** -/
theorem ofNat_eq_ofNat_iff {n : ℕ} (hn : n ≠ 0) (hlt : n < 2 ^ 64) {b : Binary} (h : b.Normal)
    (hreads : b.Reads n) (k : ℕ) : Float.ofNat k = Float.ofNat n ↔ b.Reads k := by
  have hview := h.viewOf_toFloat (h.inRange_of_reads hn hlt hreads)
  rw [ofNat_eq_of_reads hn h hreads]
  constructor
  · intro hk
    rw [← hk] at hview
    rcases eq_or_ne k 0 with rfl | hne
    · have hzero : viewOf (Float.ofNat 0) = .finite false ⟨0, -1074, false⟩ := rfl
      cases hzero.symm.trans hview
      exact absurd h.le (by decide)
    · obtain ⟨c, hc, hreads_c, hfloat⟩ := ofNat_eq_toFloat hne
      rw [hfloat] at hview
      by_cases hrange : c.InRange
      · rw [hc.viewOf_toFloat hrange] at hview
        cases hview
        exact hreads_c
      · -- a number that is too large is not carried as a number at all
        have hlow := hc.lt_exponent_add hreads_c (k := 0)
          (by exact_mod_cast Nat.one_le_iff_ne_zero.mpr hne)
        have hlarge : 971 < c.exponent := by
          unfold Binary.InRange at hrange
          omega
        rw [Binary.toFloat, viewOf_pack_of_lt hc.mantissa_pos hlarge] at hview
        cases hview
  · intro hk
    have hne : k ≠ 0 := by
      rintro rfl
      simpa using h.pos_of_reads hk
    exact ofNat_eq_of_reads hne h hk

end Disclosure
