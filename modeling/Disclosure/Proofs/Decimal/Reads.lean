import Disclosure.Decimal.Binary
import Mathlib.Algebra.Order.Field.Power
import Mathlib.Data.Rat.Floor
import Mathlib.Tactic.Linarith
import Mathlib.Tactic.Positivity

/-!
# Which numbers are read as a float

A float has a value, and the numbers nearer to this value than to the neighbours are read as the
float too. The ends of this interval belong to it when the mantissa is even. `Binary.Reads` says so
with rational numbers; the program compares multiples of natural numbers instead.

Floats that use all bits of their mantissa part the numbers among each other: what is read as the
smaller one is smaller (`Normal.lt_of_reads`), so a number is read as one float at most
(`Normal.eq_of_reads`).
-/

namespace Disclosure

namespace Binary

/-- What one step of the mantissa is worth. -/
def step (b : Binary) : ℚ :=
  2 ^ b.exponent

/-- The size as a rational number. -/
def value (b : Binary) : ℚ :=
  b.mantissa * b.step

/-- How far below its size numbers are read as the float. -/
def reachBelow (b : Binary) : ℚ :=
  if b.narrowBelow then b.step / 4 else b.step / 2

/-- The numbers that are read as the float. -/
def Reads (b : Binary) (q : ℚ) : Prop :=
  if b.mantissa % 2 = 0 then b.value - b.reachBelow ≤ q ∧ q ≤ b.value + b.step / 2
  else b.value - b.reachBelow < q ∧ q < b.value + b.step / 2

instance (b : Binary) (q : ℚ) : Decidable (b.Reads q) :=
  inferInstanceAs (Decidable (ite _ _ _))

/-- A number is nearer to the float than another, or just as near and not smaller. -/
def Prefers (b : Binary) (p q : ℚ) : Prop :=
  |p - b.value| < |q - b.value| ∨ |p - b.value| = |q - b.value| ∧ q ≤ p

/-- A float with all bits of its mantissa in use, above the smallest of them. -/
structure Normal (b : Binary) : Prop where
  le : 2 ^ 52 ≤ b.mantissa
  lt : b.mantissa < 2 ^ 53
  narrow_iff : b.narrowBelow = true ↔ b.mantissa = 2 ^ 52

variable {b c : Binary} {p q r : ℚ}

theorem step_pos (b : Binary) : 0 < b.step := by
  unfold step
  positivity

theorem ratio_snd_pos (b : Binary) : 0 < b.ratio.2 := by
  unfold ratio
  split
  · exact Nat.one_pos
  · exact Nat.two_pow_pos _

/-- The fraction that the program works with is the value. -/
theorem ratio_eq (b : Binary) : (b.ratio.1 : ℚ) / b.ratio.2 = b.value := by
  have hpow : ∀ n, (twoTo n : ℚ) = 2 ^ (n : ℤ) := fun n => by simp [twoTo]
  unfold ratio value step
  by_cases h : b.exponent ≥ 0
  · rw [if_pos h]
    rw [Nat.cast_mul, hpow, Int.toNat_of_nonneg h, Nat.cast_one, div_one]
  · rw [if_neg h]
    rw [hpow, Int.toNat_of_nonneg (by omega), zpow_neg, div_inv_eq_mul]

theorem value_eq_natCast_iff {n : ℕ} : b.value = n ↔ b.ratio.1 = n * b.ratio.2 := by
  rw [← ratio_eq, div_eq_iff (Nat.cast_pos.mpr b.ratio_snd_pos).ne']
  exact_mod_cast Iff.rfl

/-- The value in quarters of a step. -/
theorem four_mul_step (b : Binary) : ((4 * b.mantissa : ℕ) : ℚ) * (b.step / 4) = b.value := by
  rw [value]
  push_cast
  ring

/-! ## The interval around a float -/

theorem reachBelow_pos (b : Binary) : 0 < b.reachBelow := by
  have hstep := b.step_pos
  unfold reachBelow
  split <;> linarith

theorem reachBelow_le (b : Binary) : b.reachBelow ≤ b.step / 2 := by
  have hstep := b.step_pos
  unfold reachBelow
  split <;> linarith

theorem Reads.ge (h : b.Reads q) : b.value - b.reachBelow ≤ q := by
  unfold Reads at h
  split_ifs at h
  · exact h.1
  · exact h.1.le

theorem Reads.le (h : b.Reads q) : q ≤ b.value + b.step / 2 := by
  unfold Reads at h
  split_ifs at h
  · exact h.2
  · exact h.2.le

/-- The ends of the interval of an even mantissa belong to it. -/
theorem reads_of_even (heven : b.mantissa % 2 = 0) (hge : b.value - b.reachBelow ≤ q)
    (hle : q ≤ b.value + b.step / 2) : b.Reads q := by
  rw [Reads, if_pos heven]
  exact ⟨hge, hle⟩

/-- The ends of the interval of an odd mantissa do not belong to it. -/
theorem Reads.of_odd (h : b.Reads q) (hodd : b.mantissa % 2 = 1) :
    b.value - b.reachBelow < q ∧ q < b.value + b.step / 2 := by
  unfold Reads at h
  rwa [if_neg (by omega)] at h

theorem reads_of_reachBelow_lt (hq : q ≤ b.value) (h : b.value - b.reachBelow < q) : b.Reads q := by
  have hstep := b.step_pos
  unfold Reads
  split_ifs <;> constructor <;> linarith

theorem reads_of_lt_step (hq : b.value ≤ q) (h : q < b.value + b.step / 2) : b.Reads q := by
  have hbelow := b.reachBelow_pos
  unfold Reads
  split_ifs <;> constructor <;> linarith

theorem reads_value (b : Binary) : b.Reads b.value := by
  have hstep := b.step_pos
  exact reads_of_lt_step le_rfl (by linarith)

/-- A number within half a step is read as the float, unless it is on the side that is narrow. -/
theorem reads_of_abs_sub_le (hnear : |q - b.value| ≤ b.step / 2)
    (hodd : b.mantissa % 2 = 1 → |q - b.value| < b.step / 2)
    (hnarrow : b.narrowBelow = true → b.value ≤ q) : b.Reads q := by
  rcases le_total b.value q with hge | hle
  · rw [abs_of_nonneg (by linarith)] at hnear hodd
    rcases Nat.mod_two_eq_zero_or_one b.mantissa with heven | hone
    · have hbelow := b.reachBelow_pos
      exact reads_of_even heven (by linarith) (by linarith)
    · exact reads_of_lt_step hge (by linarith [hodd hone])
  · rw [abs_of_nonpos (by linarith)] at hnear hodd
    by_cases hnarrow' : b.narrowBelow = true
    · rw [le_antisymm hle (hnarrow hnarrow')]
      exact b.reads_value
    · have hbelow : b.reachBelow = b.step / 2 := if_neg hnarrow'
      rcases Nat.mod_two_eq_zero_or_one b.mantissa with heven | hone
      · exact reads_of_even heven (by linarith) (by linarith)
      · exact reads_of_reachBelow_lt hle (by linarith [hodd hone])

/-- There is no hole in the interval below the float. -/
theorem Reads.of_le (hq : b.Reads q) (hqp : q ≤ p) (hp : p ≤ b.value) : b.Reads p := by
  have hstep := b.step_pos
  unfold Reads at *
  split_ifs at hq ⊢ <;> constructor <;> linarith

/-- There is no hole in the interval above the float. -/
theorem Reads.of_ge (hq : b.Reads q) (hpq : p ≤ q) (hp : b.value ≤ p) : b.Reads p := by
  have hbelow := b.reachBelow_pos
  unfold Reads at *
  split_ifs at hq ⊢ <;> constructor <;> linarith

/-- Numbers that are read as the same float are at most a step apart. -/
theorem Reads.abs_sub_le (hp : b.Reads p) (hq : b.Reads q) : |p - q| ≤ b.step := by
  have hbelow := b.reachBelow_le
  have hp₁ := hp.ge
  have hp₂ := hp.le
  have hq₁ := hq.ge
  have hq₂ := hq.le
  rw [abs_le]
  constructor <;> linarith

/-! ## Nearness -/

theorem Prefers.trans (hpq : b.Prefers p q) (hqr : b.Prefers q r) : b.Prefers p r := by
  rcases hpq with hpq | ⟨hpq, hle⟩
  · rcases hqr with hqr | ⟨hqr, -⟩
    · exact .inl (hpq.trans hqr)
    · exact .inl (hqr ▸ hpq)
  · rcases hqr with hqr | ⟨hqr, hle'⟩
    · exact .inl (hpq ▸ hqr)
    · exact .inr ⟨hpq.trans hqr, hle'.trans hle⟩

theorem Prefers.antisymm (hpq : b.Prefers p q) (hqp : b.Prefers q p) : p = q := by
  rcases hpq with hpq | ⟨hpq, hle⟩
  · rcases hqp with hqp | ⟨hqp, -⟩
    · exact absurd hpq hqp.not_gt
    · exact absurd hqp hpq.ne'
  · rcases hqp with hqp | ⟨-, hle'⟩
    · exact absurd hpq hqp.ne'
    · exact le_antisymm hle' hle

theorem prefers_of_le (hqp : q ≤ p) (hp : p ≤ b.value) : b.Prefers p q := by
  rw [Prefers, abs_of_nonpos (by linarith), abs_of_nonpos (by linarith)]
  rcases hqp.lt_or_eq with hlt | rfl
  · exact .inl (by linarith)
  · exact .inr ⟨rfl, le_rfl⟩

theorem prefers_of_ge (hpq : p ≤ q) (hp : b.value ≤ p) : b.Prefers p q := by
  rw [Prefers, abs_of_nonneg (by linarith), abs_of_nonneg (by linarith)]
  rcases hpq.lt_or_eq with hlt | rfl
  · exact .inl (by linarith)
  · exact .inr ⟨rfl, le_rfl⟩

/-- Of two numbers on either side the smaller one is nearer if the middle is above the float. -/
theorem prefers_of_two_mul_lt (hp : p ≤ b.value) (h : 2 * b.value < p + q) : b.Prefers p q := by
  rw [Prefers, abs_of_nonpos (by linarith), abs_of_nonneg (by linarith)]
  exact .inl (by linarith)

theorem prefers_of_le_two_mul (hp : p ≤ b.value) (hq : b.value ≤ q) (h : p + q ≤ 2 * b.value) :
    b.Prefers q p := by
  rw [Prefers, abs_of_nonneg (by linarith), abs_of_nonpos (by linarith)]
  rcases h.lt_or_eq with hlt | heq
  · exact .inl (by linarith)
  · exact .inr ⟨by linarith, hp.trans hq⟩

/-! ## Floats that use all bits of the mantissa -/

namespace Normal

section

variable (h : b.Normal)

include h

theorem mantissa_pos : 0 < b.mantissa :=
  (Nat.two_pow_pos 52).trans_le h.le

theorem le_value : 2 ^ 52 * b.step ≤ b.value :=
  mul_le_mul_of_nonneg_right (by exact_mod_cast h.le) b.step_pos.le

theorem value_lt : b.value < 2 ^ 53 * b.step :=
  mul_lt_mul_of_pos_right (by exact_mod_cast h.lt) b.step_pos

theorem value_pos : 0 < b.value :=
  mul_pos (Nat.cast_pos.mpr h.mantissa_pos) b.step_pos

/-- No number below the powers of two that a mantissa begins with. -/
theorem le_of_reads (hq : b.Reads q) : (2 ^ 52 - 1 / 4) * b.step ≤ q := by
  have hge := hq.ge
  have hvalue := h.le_value
  have hstep := b.step_pos
  by_cases hnarrow : b.narrowBelow = true
  · rw [reachBelow, if_pos hnarrow] at hge
    linarith
  · have hmantissa : ((2 ^ 52 + 1 : ℕ) : ℚ) * b.step ≤ b.value := by
      have hne : b.mantissa ≠ 2 ^ 52 := fun heq => hnarrow (h.narrow_iff.mpr heq)
      have hle := h.le
      exact mul_le_mul_of_nonneg_right (Nat.cast_le.mpr (by omega)) hstep.le
    rw [reachBelow, if_neg hnarrow] at hge
    push_cast at hmantissa
    linarith

/-- The largest mantissa is odd, so the middle between it and the next one is not read as it. -/
theorem lt_of_reads_self (hq : b.Reads q) : q < (2 ^ 53 - 1 / 2) * b.step := by
  have hle := hq.le
  have hstep := b.step_pos
  by_cases hlast : b.mantissa = 2 ^ 53 - 1
  · have hlt := (hq.of_odd (by omega)).2
    rw [value, hlast] at hlt
    norm_num at hlt ⊢
    linarith
  · have hmantissa : b.value ≤ ((2 ^ 53 - 2 : ℕ) : ℚ) * b.step := by
      have hlt := h.lt
      exact mul_le_mul_of_nonneg_right (Nat.cast_le.mpr (by omega)) hstep.le
    norm_num at hmantissa ⊢
    linarith

theorem pos_of_reads (hq : b.Reads q) : 0 < q := by
  have hle := h.le_of_reads hq
  have hstep := b.step_pos
  linarith

/-- Large numbers are read as floats with large exponents. -/
theorem lt_exponent_add (hq : b.Reads q) {k : ℤ} (hk : 2 ^ k ≤ q) : k < b.exponent + 53 := by
  have hlt : (2 : ℚ) ^ k < 2 ^ (b.exponent + 53) := by
    have hself := h.lt_of_reads_self hq
    have hstep := b.step_pos
    rw [zpow_add₀ (by norm_num), mul_comm]
    change _ < 2 ^ 53 * b.step
    linarith
  exact (zpow_lt_zpow_iff_right₀ (by norm_num)).mp hlt

theorem exponent_add_lt (hq : b.Reads q) {k : ℤ} (hk : q < 2 ^ k) : b.exponent + 51 < k := by
  have hlt : (2 : ℚ) ^ (b.exponent + 51) < 2 ^ k := by
    have hself := h.le_of_reads hq
    have hstep := b.step_pos
    rw [zpow_add₀ (by norm_num), mul_comm]
    change 2 ^ 51 * b.step < _
    linarith
  exact (zpow_lt_zpow_iff_right₀ (by norm_num)).mp hlt

end

/-- **What is read as a smaller float is smaller.** -/
theorem lt_of_reads (hb : b.Normal) (hc : c.Normal)
    (hlt : b.exponent < c.exponent ∨ b.exponent = c.exponent ∧ b.mantissa < c.mantissa)
    (hp : b.Reads p) (hq : c.Reads q) : p < q := by
  have hstep := b.step_pos
  rcases hlt with hlt | ⟨heq, hlt⟩
  · have htwice : 2 * b.step ≤ c.step := by
      unfold step
      rw [mul_comm, ← zpow_add_one₀ (by norm_num)]
      exact zpow_le_zpow_right₀ (by norm_num) hlt
    have hp' := hb.lt_of_reads_self hp
    have hq' := hc.le_of_reads hq
    linarith
  · have hsame : c.step = b.step := by rw [step, step, heq]
    have hbelow : c.reachBelow = b.step / 2 := by
      have hle := hb.le
      rw [reachBelow, if_neg (by rw [hc.narrow_iff]; omega), hsame]
    have hgap (n : ℕ) (hn : b.mantissa + n ≤ c.mantissa) : b.value + n * b.step ≤ c.value := by
      rw [value, value, hsame, ← add_mul]
      exact mul_le_mul_of_nonneg_right (by exact_mod_cast hn) hstep.le
    have hone := hgap 1 hlt
    have hp' := hp.le
    have hq' := hq.ge
    rw [Nat.cast_one, one_mul] at hone
    -- neighbours are not both even, so one of them does not reach the middle between them
    rcases Nat.mod_two_eq_zero_or_one b.mantissa with heven | hodd
    · rcases Nat.mod_two_eq_zero_or_one c.mantissa with heven' | hodd'
      · have htwo := hgap 2 (by omega)
        rw [Nat.cast_two] at htwo
        linarith
      · have hstrict := (hq.of_odd hodd').1
        linarith
    · have hstrict := (hp.of_odd hodd).2
      linarith

/-- **A number is read as one float at most.** -/
theorem eq_of_reads (hb : b.Normal) (hc : c.Normal) (hq : b.Reads q) (hq' : c.Reads q) : b = c := by
  have hexponent : b.exponent = c.exponent := by
    rcases lt_trichotomy b.exponent c.exponent with hlt | heq | hgt
    · exact absurd (hb.lt_of_reads hc (.inl hlt) hq hq') (lt_irrefl q)
    · exact heq
    · exact absurd (hc.lt_of_reads hb (.inl hgt) hq' hq) (lt_irrefl q)
  have hmantissa : b.mantissa = c.mantissa := by
    rcases lt_trichotomy b.mantissa c.mantissa with hlt | heq | hgt
    · exact absurd (hb.lt_of_reads hc (.inr ⟨hexponent, hlt⟩) hq hq') (lt_irrefl q)
    · exact heq
    · exact absurd (hc.lt_of_reads hb (.inr ⟨hexponent.symm, hgt⟩) hq' hq) (lt_irrefl q)
  have hnarrow : b.narrowBelow = c.narrowBelow := by
    rw [Bool.eq_iff_iff, hb.narrow_iff, hc.narrow_iff, hmantissa]
  cases b
  cases c
  simp_all

end Normal

end Binary

end Disclosure
