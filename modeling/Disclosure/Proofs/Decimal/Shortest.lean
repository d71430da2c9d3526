import Disclosure.Decimal.Layout
import Disclosure.Proofs.Decimal.Reads
import Mathlib.Tactic.FieldSimp

/-!
# The shortest decimal that reads back

The decimal that is written for a float is found on the coarsest decimal grid that has a point in the
interval of the float. `Binary.IsShortest` says what is meant by this without a program: the number is
read as the float, it is on every grid that has a point which is read as the float, and of the points
that are on the same grids it is the nearest. There is only one such number.

The program looks at the two grid points around the float (`onGrid?_cases`), first on the grid of the
leading digit and then on finer ones. The interval of a float that uses all bits of its mantissa is so
narrow that the first grid has at most one point in it, and so wide that the seventeenth has one.
-/

namespace Disclosure

/-! ## Grids -/

/-- A number that is some count of units of `10 ^ unit`. -/
def OnGrid (unit : ℤ) (q : ℚ) : Prop :=
  ∃ n : ℕ, q = n * 10 ^ unit

/-- No point of a grid is between two that are next to each other. -/
theorem OnGrid.le_or_ge {unit : ℤ} {q : ℚ} (hq : OnGrid unit q) (floor : ℕ) :
    q ≤ floor * 10 ^ unit ∨ (floor + 1 : ℕ) * 10 ^ unit ≤ q := by
  obtain ⟨n, rfl⟩ := hq
  have hunit : (0 : ℚ) ≤ 10 ^ unit := by positivity
  rcases Nat.lt_or_ge floor n with hn | hn
  · exact .inr (mul_le_mul_of_nonneg_right (Nat.cast_le.mpr hn) hunit)
  · exact .inl (mul_le_mul_of_nonneg_right (Nat.cast_le.mpr hn) hunit)

theorem OnGrid.of_le {fine coarse : ℤ} (h : fine ≤ coarse) {q : ℚ} (hq : OnGrid coarse q) :
    OnGrid fine q := by
  obtain ⟨n, rfl⟩ := hq
  refine ⟨n * 10 ^ (coarse - fine).toNat, ?_⟩
  have hpow : (10 : ℚ) ^ coarse = 10 ^ (coarse - fine).toNat * 10 ^ fine := by
    rw [← zpow_natCast, ← zpow_add₀ (by norm_num), Int.toNat_of_nonneg (by omega)]
    ring_nf
  push_cast
  rw [hpow, mul_assoc]

/-- Two points of a grid less than a unit apart are the same. -/
theorem OnGrid.eq_of_abs_sub_lt {unit : ℤ} {p q : ℚ} (hp : OnGrid unit p) (hq : OnGrid unit q)
    (h : |p - q| < 10 ^ unit) : p = q := by
  obtain ⟨m, rfl⟩ := hp
  obtain ⟨n, rfl⟩ := hq
  have hunit : (0 : ℚ) < 10 ^ unit := by positivity
  rw [← sub_mul, abs_mul, abs_of_pos hunit, mul_lt_iff_lt_one_left hunit] at h
  have hlt : |(m : ℤ) - n| < 1 := by exact_mod_cast h
  have heq : m = n := by rw [abs_lt] at hlt; omega
  rw [heq]

namespace Decimal

/-- The decimal as a rational number. -/
def value (d : Decimal) : ℚ :=
  d.digits * 10 ^ d.exponent

/-! ## Where a number begins -/

theorem pow_digitCount_le {n : ℕ} (h : 0 < n) : 10 ^ (digitCount n - 1) ≤ n := by
  rw [digitCount, if_neg h.ne']
  by_cases hone : (Nat.toDigits 10 n).length = 1
  · rw [hone]
    exact h
  · have hpos : 0 < (Nat.toDigits 10 n).length := Nat.length_toDigits_pos
    by_contra hlt
    have hle := (Nat.length_toDigits_le_iff (by decide) (by omega)).mpr (not_le.mp hlt)
    omega

theorem lt_pow_digitCount (n : ℕ) : n < 10 ^ digitCount n := by
  unfold digitCount
  split
  · simp_all
  · exact (Nat.length_toDigits_le_iff (by decide) Nat.length_toDigits_pos).mp le_rfl

theorem smallPlaces_spec {den : ℕ} (fuel : ℕ) {num : ℕ} (hlt : num < den)
    (hfuel : den ≤ num * 10 ^ (fuel + 1)) :
    num * 10 ^ leadingExponent.smallPlaces num den fuel < den ∧
      den ≤ num * 10 ^ (leadingExponent.smallPlaces num den fuel + 1) := by
  induction fuel generalizing num with
  | zero => exact ⟨by simpa [leadingExponent.smallPlaces] using hlt, hfuel⟩
  | succ fuel ih =>
    unfold leadingExponent.smallPlaces
    by_cases h : num * 10 < den
    · rw [if_pos h]
      have hten : ∀ n, num * 10 ^ (n + 1) = num * 10 * 10 ^ n := fun n => by
        rw [pow_succ', mul_assoc]
      rw [hten, hten]
      exact ih h (by rwa [hten] at hfuel)
    · rw [if_neg h]
      exact ⟨by simpa using hlt, by simpa using h⟩

theorem bounds_of_places {num den places : ℕ} (hlow : num * 10 ^ places < den)
    (hhigh : den ≤ num * 10 ^ (places + 1)) :
    (10 : ℚ) ^ (-(places : ℤ) - 1) ≤ num / den ∧ (num / den : ℚ) < 10 ^ (-(places : ℤ)) := by
  have hden : (0 : ℚ) < den := Nat.cast_pos.mpr (by omega)
  have hpow : (10 : ℚ) ^ (-(places : ℤ) - 1) = (10 ^ (places + 1))⁻¹ := by
    rw [← zpow_natCast, ← zpow_neg]
    push_cast
    ring_nf
  rw [hpow, zpow_neg, zpow_natCast, inv_le_iff_one_le_mul₀ (by positivity), div_lt_iff₀ hden,
    ← div_eq_inv_mul, lt_div_iff₀ (by positivity), div_mul_eq_mul_div, le_div_iff₀ hden, one_mul]
  exact ⟨by exact_mod_cast hhigh, by exact_mod_cast hlow⟩

/-- A positive fraction begins right below the power of ten of its leading exponent. -/
theorem leadingExponent_spec {num den : ℕ} (hnum : 0 < num) (hden : 0 < den) :
    (10 : ℚ) ^ (leadingExponent num den - 1) ≤ num / den ∧
      (num / den : ℚ) < 10 ^ leadingExponent num den := by
  have hden' : (0 : ℚ) < den := Nat.cast_pos.mpr hden
  have hhigh := lt_pow_digitCount (num / den)
  unfold leadingExponent
  dsimp only
  by_cases hwhole : digitCount (num / den) > 0
  · rw [if_pos hwhole]
    have hpos : 0 < num / den := by
      by_contra h
      rw [digitCount, if_pos (Nat.eq_zero_of_not_pos h)] at hwhole
      exact absurd hwhole (lt_irrefl 0)
    have hlow := pow_digitCount_le hpos
    rw [Nat.le_div_iff_mul_le hden] at hlow
    rw [Nat.div_lt_iff_lt_mul hden] at hhigh
    rw [← Nat.cast_one, ← Nat.cast_sub hwhole, zpow_natCast, zpow_natCast, le_div_iff₀ hden',
      div_lt_iff₀ hden']
    exact ⟨by exact_mod_cast hlow, by exact_mod_cast hhigh⟩
  · rw [if_neg hwhole]
    rw [Nat.eq_zero_of_not_pos hwhole, Nat.div_lt_iff_lt_mul hden, pow_zero, one_mul] at hhigh
    have hfuel : den ≤ num * 10 ^ (digitCount den + 1) :=
      calc den ≤ 10 ^ digitCount den := (lt_pow_digitCount den).le
        _ ≤ 10 ^ (digitCount den + 1) := Nat.pow_le_pow_right (by decide) (Nat.le_succ _)
        _ ≤ num * 10 ^ (digitCount den + 1) := Nat.le_mul_of_pos_left _ hnum
    obtain ⟨hbelow, habove⟩ := smallPlaces_spec (digitCount den) hhigh hfuel
    exact bounds_of_places hbelow habove

/-! ## Zeros at the end -/

theorem strip_go_spec (fuel : ℕ) (d : Decimal) (h : d.digits < 10 ^ fuel) :
    (strip.go fuel d).value = d.value ∧
      ((strip.go fuel d).digits = 0 ∨ (strip.go fuel d).digits % 10 ≠ 0) := by
  fun_induction strip.go fuel d with
  | case1 d =>
    exact ⟨rfl, .inl (by simpa using h)⟩
  | case2 fuel d hzero ih =>
    have hdigits : d.digits % 10 = 0 := by simp_all
    obtain ⟨hvalue, hlast⟩ := ih (by simp only [pow_succ] at h; dsimp only; omega)
    refine ⟨hvalue.trans ?_, hlast⟩
    have hten : d.digits = d.digits / 10 * 10 := by omega
    unfold value
    rw [zpow_add_one₀ (by norm_num), ← mul_assoc, mul_right_comm]
    congr 1
    exact_mod_cast hten.symm
  | case3 fuel d hzero =>
    refine ⟨rfl, ?_⟩
    simp only [beq_iff_eq, bne_iff_ne, Bool.and_eq_true] at hzero
    tauto

theorem strip_spec (d : Decimal) :
    d.strip.value = d.value ∧ (d.strip.digits = 0 ∨ d.strip.digits % 10 ≠ 0) :=
  strip_go_spec _ d (lt_pow_digitCount _)

/-! ## Units -/

theorem inUnits_snd_pos {den : ℕ} (h : 0 < den) (num : ℕ) (unit : ℤ) :
    0 < (inUnits num den unit).2 := by
  unfold inUnits
  split
  · exact Nat.mul_pos h (Nat.pow_pos (by decide))
  · exact h

theorem inUnits_eq (num den : ℕ) (unit : ℤ) :
    ((inUnits num den unit).1 : ℚ) / (inUnits num den unit).2 = num / den / 10 ^ unit := by
  have hpow : ∀ n, (tenTo n : ℚ) = 10 ^ (n : ℤ) := fun n => by simp [tenTo]
  unfold inUnits
  by_cases h : unit ≥ 0
  · rw [if_pos h]
    rw [Nat.cast_mul, hpow, Int.toNat_of_nonneg h, div_div]
  · rw [if_neg h]
    rw [Nat.cast_mul, hpow, Int.toNat_of_nonneg (by omega), zpow_neg]
    field_simp

end Decimal

/-! ## The grid points around a float -/

/-- A quarter of a mantissa step is `num / den` units of the grid. -/
structure Binary.Quarter (b : Binary) (unit : ℤ) (num den : ℕ) : Prop where
  pos : 0 < den
  eq : (num : ℚ) / den = b.step / 4 / 10 ^ unit

namespace Binary.Quarter

variable {b : Binary} {unit : ℤ} {num den : ℕ}

/-- The program counts in quarters of a step. -/
theorem of_inUnits {ratio : ℕ × ℕ} (hratio : (⟨1, b.exponent - 2, false⟩ : Binary).ratio = ratio)
    (hgrid : Decimal.inUnits ratio.1 ratio.2 unit = (num, den)) : b.Quarter unit num den := by
  have hstep : (⟨1, b.exponent - 2, false⟩ : Binary).value = b.step / 4 := by
    rw [value, step, step, zpow_sub₀ (by norm_num)]
    norm_num
  have hpos := Decimal.inUnits_snd_pos (ratio_snd_pos ⟨1, b.exponent - 2, false⟩) ratio.1 unit
  have hunits := Decimal.inUnits_eq ratio.1 ratio.2 unit
  rw [hratio, hgrid] at hpos
  rw [← hratio, ratio_eq, hstep, hratio, hgrid] at hunits
  exact ⟨hpos, hunits⟩

variable (h : b.Quarter unit num den)

include h

/-- Quarters and units of the grid are compared without dividing. -/
theorem le_iff (c n : ℕ) : c * num ≤ n * den ↔ (c : ℚ) * (b.step / 4) ≤ n * 10 ^ unit :=
  calc c * num ≤ n * den ↔ (c : ℚ) * num ≤ n * den := by exact_mod_cast Iff.rfl
    _ ↔ (c : ℚ) * (num / den) ≤ n := by
      rw [← mul_div_assoc, div_le_iff₀ (Nat.cast_pos.mpr h.pos)]
    _ ↔ (c : ℚ) * (b.step / 4) ≤ n * 10 ^ unit := by
      rw [h.eq, ← mul_div_assoc, div_le_iff₀ (by positivity)]

theorem ge_iff (c n : ℕ) : n * den ≤ c * num ↔ (n : ℚ) * 10 ^ unit ≤ c * (b.step / 4) :=
  calc n * den ≤ c * num ↔ (n : ℚ) * den ≤ c * num := by exact_mod_cast Iff.rfl
    _ ↔ (n : ℚ) ≤ c * (num / den) := by
      rw [← mul_div_assoc, le_div_iff₀ (Nat.cast_pos.mpr h.pos)]
    _ ↔ (n : ℚ) * 10 ^ unit ≤ c * (b.step / 4) := by
      rw [h.eq, ← mul_div_assoc, le_div_iff₀ (by positivity)]

/-- The grid points that the program takes into account are those that are read as the float. -/
theorem fits_eq (hb : 0 < b.mantissa) (n : ℕ) : (if (b.mantissa % 2 == 0) = true then
      decide ((4 * b.mantissa - if b.narrowBelow = true then 1 else 2) * num ≤ n * den) &&
        decide (n * den ≤ (4 * b.mantissa + 2) * num)
      else decide ((4 * b.mantissa - if b.narrowBelow = true then 1 else 2) * num < n * den) &&
        decide (n * den < (4 * b.mantissa + 2) * num)) = decide (b.Reads (n * 10 ^ unit)) := by
  have hlow : ((4 * b.mantissa - if b.narrowBelow = true then 1 else 2 : ℕ) : ℚ) * (b.step / 4) =
      b.value - b.reachBelow := by
    rw [Nat.cast_sub (by split <;> omega), value, reachBelow]
    split <;> (push_cast; ring)
  have hhigh : ((4 * b.mantissa + 2 : ℕ) : ℚ) * (b.step / 4) = b.value + b.step / 2 := by
    rw [value]
    push_cast
    ring
  rw [Bool.eq_iff_iff, decide_eq_true_iff, Reads]
  by_cases heven : b.mantissa % 2 = 0
  · rw [if_pos heven, if_pos (by simpa using heven), Bool.and_eq_true, decide_eq_true_iff,
      decide_eq_true_iff, h.le_iff, h.ge_iff, hlow, hhigh]
  · rw [if_neg heven, if_neg (by simpa using heven), Bool.and_eq_true, decide_eq_true_iff,
      decide_eq_true_iff, ← not_le, ← not_le, h.le_iff, h.ge_iff, hlow, hhigh, not_le, not_le]

theorem floor_mul_le : (4 * b.mantissa * num / den : ℕ) * 10 ^ unit ≤ b.value := by
  rw [← four_mul_step, ← h.ge_iff]
  exact Nat.div_mul_le_self _ _

theorem lt_floor_add_one_mul : b.value < (4 * b.mantissa * num / den + 1 : ℕ) * 10 ^ unit := by
  rw [← four_mul_step, ← not_le, ← h.ge_iff, not_le]
  exact (Nat.div_lt_iff_lt_mul h.pos).mp (Nat.lt_succ_self _)

/-- The float is compared with the middle between two grid points. -/
theorem middle_iff (n : ℕ) : 2 * (4 * b.mantissa * num) < (2 * n + 1) * den ↔
    2 * b.value < n * 10 ^ unit + (n + 1 : ℕ) * 10 ^ unit := by
  have htwice : ((2 * (4 * b.mantissa) : ℕ) : ℚ) * (b.step / 4) = 2 * b.value := by
    rw [← four_mul_step]
    push_cast
    ring
  have hmiddle : (n : ℚ) * 10 ^ unit + (n + 1 : ℕ) * 10 ^ unit =
      (2 * n + 1 : ℕ) * 10 ^ unit := by
    push_cast
    ring
  rw [← mul_assoc, ← not_le, ← not_le, h.ge_iff, htwice, hmiddle]

end Binary.Quarter

namespace Decimal

variable {b : Binary} {unit : ℤ} {d : Decimal} {q : ℚ}

/-- **One of the two grid points around a float is taken.** If only one of them is read as the float,
it is that one. -/
theorem onGrid?_cases (hb : 0 < b.mantissa) (unit : ℤ) : ∃ floor : ℕ,
    (floor * 10 ^ unit ≤ b.value ∧ b.value < (floor + 1 : ℕ) * 10 ^ unit) ∧
      ((onGrid? b unit = none ∧
          ¬ b.Reads (floor * 10 ^ unit) ∧ ¬ b.Reads ((floor + 1 : ℕ) * 10 ^ unit)) ∨
        (onGrid? b unit = some ⟨floor, unit⟩ ∧ b.Reads (floor * 10 ^ unit) ∧
          (b.Reads ((floor + 1 : ℕ) * 10 ^ unit) →
            b.Prefers (floor * 10 ^ unit) ((floor + 1 : ℕ) * 10 ^ unit))) ∨
        (onGrid? b unit = some ⟨floor + 1, unit⟩ ∧ b.Reads ((floor + 1 : ℕ) * 10 ^ unit) ∧
          (b.Reads (floor * 10 ^ unit) →
            b.Prefers ((floor + 1 : ℕ) * 10 ^ unit) (floor * 10 ^ unit)))) := by
  unfold onGrid?
  dsimp only
  cases hgrid : inUnits _ _ unit with
  | mk num den =>
    have h := Binary.Quarter.of_inUnits rfl hgrid
    have hlow := h.floor_mul_le
    have hhigh := h.lt_floor_add_one_mul
    simp only [h.fits_eq hb, h.middle_iff]
    generalize 4 * b.mantissa * num / den = floor at *
    refine ⟨floor, ⟨hlow, hhigh⟩, ?_⟩
    by_cases hfloor : b.Reads (floor * 10 ^ unit) <;>
      by_cases hnext : b.Reads ((floor + 1 : ℕ) * 10 ^ unit)
    · by_cases hhalf : 2 * b.value < floor * 10 ^ unit + (floor + 1 : ℕ) * 10 ^ unit
      · have hprefers := Binary.prefers_of_two_mul_lt hlow hhalf
        exact .inr (.inl ⟨by simp only [hfloor, hnext, hhalf]; rfl, hfloor, fun _ => hprefers⟩)
      · have hprefers := Binary.prefers_of_le_two_mul hlow hhigh.le (not_lt.mp hhalf)
        exact .inr (.inr ⟨by simp only [hfloor, hnext, hhalf]; rfl, hnext, fun _ => hprefers⟩)
    · exact .inr (.inl ⟨by simp only [hfloor, hnext]; rfl, hfloor, fun h => absurd h hnext⟩)
    · exact .inr (.inr ⟨by simp only [hfloor, hnext]; rfl, hnext, fun h => absurd h hfloor⟩)
    · exact .inl ⟨by simp only [hfloor, hnext]; rfl, hfloor, hnext⟩

/-- If no grid point is taken, the interval of the float lies between two of them. -/
theorem exists_between_of_onGrid?_eq_none (hb : 0 < b.mantissa) (h : onGrid? b unit = none) :
    ∃ floor : ℕ, (floor * 10 ^ unit ≤ b.value ∧ ¬ b.Reads (floor * 10 ^ unit)) ∧
      (b.value < (floor + 1 : ℕ) * 10 ^ unit ∧ ¬ b.Reads ((floor + 1 : ℕ) * 10 ^ unit)) := by
  obtain ⟨floor, ⟨hlow, hhigh⟩, ⟨-, hfloor, hnext⟩ | ⟨hsome, -⟩ | ⟨hsome, -⟩⟩ :=
    onGrid?_cases hb unit
  · exact ⟨floor, ⟨hlow, hfloor⟩, hhigh, hnext⟩
  · simp [h] at hsome
  · simp [h] at hsome

theorem onGrid?_eq_none (hb : 0 < b.mantissa) (h : onGrid? b unit = none) (hq : OnGrid unit q) :
    ¬ b.Reads q := by
  obtain ⟨floor, ⟨hlow, hfloor⟩, hhigh, hnext⟩ := exists_between_of_onGrid?_eq_none hb h
  intro hreads
  rcases hq.le_or_ge floor with hle | hge
  · exact hfloor (hreads.of_le hle hlow)
  · exact hnext (hreads.of_ge hge hhigh.le)

theorem onGrid?_eq_some (hb : 0 < b.mantissa) (h : onGrid? b unit = some d) :
    OnGrid unit d.value ∧ b.Reads d.value ∧
      ∀ q, OnGrid unit q → b.Reads q → b.Prefers d.value q := by
  obtain ⟨floor, ⟨hlow, hhigh⟩, ⟨hnone, -⟩ | ⟨hsome, hreads, hfirst⟩ | ⟨hsome, hreads, hfirst⟩⟩ :=
    onGrid?_cases hb unit
  · simp [h] at hnone
  · cases h.symm.trans hsome
    refine ⟨⟨floor, rfl⟩, hreads, fun q hq hq' => ?_⟩
    rcases hq.le_or_ge floor with hle | hge
    · exact Binary.prefers_of_le hle hlow
    · exact (hfirst (hq'.of_ge hge hhigh.le)).trans
        (Binary.prefers_of_ge hge hhigh.le)
  · cases h.symm.trans hsome
    refine ⟨⟨floor + 1, rfl⟩, hreads, fun q hq hq' => ?_⟩
    rcases hq.le_or_ge floor with hle | hge
    · exact (hfirst (hq'.of_le hle hlow)).trans (Binary.prefers_of_le hle hlow)
    · exact Binary.prefers_of_ge hge hhigh.le

end Decimal

/-! ## The shortest number -/

/-- The shortest number that is read as the float. -/
structure Binary.IsShortest (b : Binary) (q : ℚ) : Prop where
  reads : b.Reads q
  /-- It is on every grid that has a point which is read as the float. -/
  coarsest : ∀ unit p, OnGrid unit p → b.Reads p → OnGrid unit q
  /-- It is the nearest of the points that are on its grids. -/
  first : ∀ p, b.Reads p → (∀ unit, OnGrid unit q → OnGrid unit p) → b.Prefers q p

theorem Binary.IsShortest.eq {b : Binary} {p q : ℚ} (hp : b.IsShortest p) (hq : b.IsShortest q) :
    p = q :=
  (hp.first q hq.reads fun unit hp' => hq.coarsest unit p hp' hp.reads).antisymm
    (hq.first p hp.reads fun unit hq' => hp.coarsest unit q hq' hq.reads)

/-- What is found first in a range is found at its first place. -/
theorem findSome?_range_eq_some {α : Type} {f : ℕ → Option α} {n : ℕ} {a : α}
    (h : (List.range n).findSome? f = some a) : ∃ k < n, f k = some a ∧ ∀ i < k, f i = none := by
  obtain ⟨earlier, k, rest, hrange, hk, hearlier⟩ := List.findSome?_eq_some_iff.mp h
  have hlt : ∀ i, i < n ↔ i ∈ earlier ++ k :: rest := fun i => by rw [← hrange, List.mem_range]
  refine ⟨k, (hlt k).mpr (by simp), hk, fun i hi => hearlier i ?_⟩
  have hsorted : (earlier ++ k :: rest).Pairwise (· < ·) := hrange ▸ List.pairwise_lt_range
  have hmem := (hlt i).mp (hi.trans ((hlt k).mpr (by simp)))
  rw [List.pairwise_append, List.pairwise_cons] at hsorted
  rcases List.mem_append.mp hmem with hmem | hmem
  · exact hmem
  · rcases List.mem_cons.mp hmem with rfl | hmem
    · exact absurd hi (lt_irrefl i)
    · exact absurd hi (hsorted.2.1.1 i hmem).not_gt

namespace Binary.Normal

variable {b : Binary} (h : b.Normal)

include h

/-- Seventeen digits are enough. -/
theorem onGrid?_ne_none {unit : ℤ} (hunit : 10 ^ 16 * 10 ^ unit ≤ b.value) :
    Decimal.onGrid? b unit ≠ none := by
  intro hnone
  obtain ⟨floor, ⟨hlow, hfloor⟩, hhigh, hnext⟩ :=
    Decimal.exists_between_of_onGrid?_eq_none h.mantissa_pos hnone
  have hpos : (0 : ℚ) < 10 ^ unit := by positivity
  have hgap : ((floor + 1 : ℕ) : ℚ) * 10 ^ unit = floor * 10 ^ unit + 10 ^ unit := by
    push_cast
    ring
  have hfar : b.value + b.step / 2 ≤ (floor + 1 : ℕ) * 10 ^ unit :=
    not_lt.mp fun hlt => hnext (reads_of_lt_step hhigh.le hlt)
  have hfar' : floor * 10 ^ unit ≤ b.value - b.reachBelow :=
    not_lt.mp fun hlt => hfloor (reads_of_reachBelow_lt hlow hlt)
  by_cases hnarrow : b.narrowBelow = true
  · have hvalue : b.value = 2 ^ 52 * b.step := by
      rw [value, h.narrow_iff.mp hnarrow]
      norm_num
    linarith
  · have hvalue := h.value_lt
    rw [reachBelow, if_neg hnarrow] at hfar'
    linarith

/-- The grid on which the first digits are has no two points that are read as the same float. -/
theorem eq_of_onGrid {unit : ℤ} (hunit : b.value < 10 ^ (unit + 1)) {p q : ℚ} (hp : OnGrid unit p)
    (hq : OnGrid unit q) (hp' : b.Reads p) (hq' : b.Reads q) : p = q := by
  refine hp.eq_of_abs_sub_lt hq ((hp'.abs_sub_le hq').trans_lt ?_)
  have hvalue := h.le_value
  have hstep := b.step_pos
  rw [zpow_add_one₀ (by norm_num)] at hunit
  linarith

/-- **The shortest decimal is found.** It is looked for on coarse grids first. -/
theorem isShortest : b.IsShortest (Decimal.shortest b).value := by
  have hvalue := b.ratio_eq
  have hnum : 0 < b.ratio.1 := by
    refine Nat.pos_of_ne_zero fun hzero => ?_
    rw [hzero, Nat.cast_zero, zero_div] at hvalue
    exact h.value_pos.ne hvalue
  obtain ⟨hlead, hlead'⟩ := Decimal.leadingExponent_spec hnum b.ratio_snd_pos
  rw [hvalue] at hlead hlead'
  unfold Decimal.shortest
  rw [if_neg h.mantissa_pos.ne']
  dsimp only
  rw [(Decimal.strip_spec _).1]
  generalize Decimal.leadingExponent b.ratio.1 b.ratio.2 = top at *
  cases hfound : (List.range 17).findSome? fun n : ℕ => Decimal.onGrid? b (top - (n + 1 : ℕ)) with
  | none =>
    have hlast := List.findSome?_eq_none_iff.mp hfound 16 (by simp)
    refine absurd hlast (h.onGrid?_ne_none ?_)
    have hpow : (10 : ℚ) ^ (top - 1) = 10 ^ 16 * 10 ^ (top - (16 + 1 : ℕ)) := by
      rw [← zpow_natCast, ← zpow_add₀ (by norm_num)]
      congr 1
      push_cast
      ring
    exact hpow ▸ hlead
  | some d =>
    obtain ⟨n, -, hd, hearlier⟩ := findSome?_range_eq_some hfound
    obtain ⟨hgrid, hreads, hfirst⟩ := Decimal.onGrid?_eq_some h.mantissa_pos hd
    refine ⟨hreads, fun unit p hp hp' => ?_, fun p hp hp' => hfirst p (hp' _ hgrid) hp⟩
    rcases le_or_gt unit (top - (n + 1 : ℕ)) with hfine | hcoarse
    · exact hgrid.of_le hfine
    · -- nothing was found on coarser grids, unless they are coarser than the first digit
      by_cases htop : unit < top
      · have hi : (top - 1 - unit).toNat < n := by omega
        have hnone := hearlier _ hi
        rw [show top - ((top - 1 - unit).toNat + 1 : ℕ) = unit by omega] at hnone
        exact absurd hp' (Decimal.onGrid?_eq_none h.mantissa_pos hnone hp)
      · have hp₁ : OnGrid (top - 1) p := hp.of_le (by omega)
        have hzero : n = 0 := by
          by_contra hne
          have hnone := hearlier 0 (by omega)
          exact Decimal.onGrid?_eq_none h.mantissa_pos hnone hp₁ hp'
        subst hzero
        rwa [Option.getD_some, h.eq_of_onGrid (by simpa using hlead') hgrid hp₁ hreads hp']

end Binary.Normal

end Disclosure
