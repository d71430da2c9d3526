import Disclosure.Proofs.Decimal.Whole
import Disclosure.Proofs.Frame
import Disclosure.Result.Table

/-!
# What a cell counts as and what is written for it

The cast of a column to integers is told value by value (`HasCode`): digits with a sign or without
one, the whole part of a float, a boolean as 0 or 1, and nothing else, all within 64 bits. Columns
of a type that data files do not have are cast as the library for frames casts them, or not at all
(`IsCast`).

The text of a value is told in the same way (`HasText`). A whole float is written with its digits
alone, and another one as the shortest decimal that is read as the float; one below the floats that
use all bits of their mantissa is looked for by the same rule.
-/

namespace Disclosure

/-! ## Numerals -/

/-- A row of digits, with a sign in front or without, and the integer that it stands for. -/
inductive IsNumeral : List Char → Int → Prop
  | bare {digits : List Char} : digits ≠ [] → (∀ c ∈ digits, c.isDigit = true) →
      IsNumeral digits (Nat.ofDigitChars 10 digits 0)
  | plus {digits : List Char} : digits ≠ [] → (∀ c ∈ digits, c.isDigit = true) →
      IsNumeral ('+' :: digits) (Nat.ofDigitChars 10 digits 0)
  | minus {digits : List Char} : digits ≠ [] → (∀ c ∈ digits, c.isDigit = true) →
      IsNumeral ('-' :: digits) (-(Nat.ofDigitChars 10 digits 0 : Nat))

/-- An integer of 64 bits. -/
def InWord (n : Int) : Prop :=
  -2 ^ 63 ≤ n ∧ n < 2 ^ 63

theorem fitsWord_eq_true_iff {n : Int} : fitsWord n = true ↔ InWord n := by
  unfold InWord
  simp only [fitsWord, Bool.and_eq_true, decide_eq_true_iff]
  omega

/-- Digits are read one by one, from a number that was read before. -/
theorem foldl_digitsValue (cs : List Char) (before : Nat) :
    cs.foldl (fun sum c => if c.isDigit then sum.map (10 * · + (c.toNat - 48)) else none)
        (some before) =
      if ∀ c ∈ cs, c.isDigit = true then some (Nat.ofDigitChars 10 cs before) else none := by
  have hnone : ∀ cs : List Char,
      cs.foldl (fun (sum : Option Nat) c =>
        if c.isDigit then sum.map (10 * · + (c.toNat - 48)) else none) none = none := by
    intro cs
    induction cs with
    | nil => rfl
    | cons c rest ih => simpa using ih
  induction cs generalizing before with
  | nil => simp [Nat.ofDigitChars]
  | cons c rest ih =>
    by_cases hc : c.isDigit = true
    · rw [List.foldl_cons, if_pos hc, Option.map_some, ih]
      simp [hc, Nat.ofDigitChars]
    · rw [List.foldl_cons, if_neg hc, hnone, if_neg fun h => hc (h c List.mem_cons_self)]

theorem digitsValue?_eq_some_iff {cs : List Char} {n : Nat} :
    digitsValue? cs = some n ↔ (∀ c ∈ cs, c.isDigit = true) ∧ Nat.ofDigitChars 10 cs 0 = n := by
  rw [digitsValue?, foldl_digitsValue]
  simp

theorem isNumeral_of_readInt? {cs : List Char} {n : Int} (h : readInt? cs = some n) :
    IsNumeral cs n := by
  have hread : ∀ {negative digits}, takeSign cs = (negative, digits) →
      digits ≠ [] ∧ (∀ c ∈ digits, c.isDigit = true) ∧
        (if negative then -(Nat.ofDigitChars 10 digits 0 : Int) else Nat.ofDigitChars 10 digits 0) =
          n := by
    intro negative digits hsign
    rw [readInt?, hsign] at h
    dsimp only at h
    split at h
    · exact nomatch h
    · rename_i hne
      obtain ⟨_, hread, rfl⟩ := Option.map_eq_some_iff.mp h
      obtain ⟨size, hsize, heq⟩ := Option.bind_eq_some_iff.mp hread
      obtain rfl := Option.some.inj heq
      obtain ⟨hdigits, rfl⟩ := digitsValue?_eq_some_iff.mp hsize
      exact ⟨by simpa using hne, hdigits, rfl⟩
  unfold takeSign at hread
  split at hread
  · obtain ⟨hne, hdigits, rfl⟩ := hread rfl
    exact .minus hne hdigits
  · obtain ⟨hne, hdigits, rfl⟩ := hread rfl
    exact .plus hne hdigits
  · obtain ⟨hne, hdigits, rfl⟩ := hread rfl
    exact .bare hne hdigits

theorem readInt?_of_isNumeral {cs : List Char} {n : Int} (h : IsNumeral cs n) :
    readInt? cs = some n := by
  cases h with
  | plus hne hdigits =>
    simp [readInt?, takeSign, hne, digitsValue?_eq_some_iff.mpr ⟨hdigits, rfl⟩]
  | minus hne hdigits =>
    simp [readInt?, takeSign, hne, digitsValue?_eq_some_iff.mpr ⟨hdigits, rfl⟩]
  | bare hne hdigits =>
    -- no sign is a digit
    have hsign : takeSign cs = (false, cs) := by
      unfold takeSign
      split
      · exact absurd (hdigits '-' List.mem_cons_self) (by decide)
      · exact absurd (hdigits '+' List.mem_cons_self) (by decide)
      · rfl
    simp [readInt?, hsign, hne, digitsValue?_eq_some_iff.mpr ⟨hdigits, rfl⟩]

theorem readInt?_eq_some_iff {cs : List Char} {n : Int} :
    readInt? cs = some n ↔ IsNumeral cs n :=
  ⟨isNumeral_of_readInt?, readInt?_of_isNumeral⟩

/-! ## Status numbers -/

/-- The whole part of a size, by a fraction of natural numbers. -/
theorem Binary.floor_value (b : Binary) : ⌊b.value⌋₊ = b.ratio.1 / b.ratio.2 := by
  rw [← b.ratio_eq, Nat.floor_div_eq_div]

theorem truncated?_of_finite {x : Float} {negative : Bool} {size : Binary}
    (hview : viewOf x = .finite negative size) :
    truncated? x = some (if negative then -(⌊size.value⌋₊ : Int) else ⌊size.value⌋₊) := by
  rw [truncated?, hview, size.floor_value]

theorem exists_finite_of_truncated? {x : Float} {n : Int} (h : truncated? x = some n) :
    ∃ negative size, viewOf x = .finite negative size := by
  cases hview : viewOf x with
  | notANumber => simp [truncated?, hview] at h
  | infinite negative => simp [truncated?, hview] at h
  | finite negative size => exact ⟨negative, size, rfl⟩

/-- The integer of 64 bits that a value is cast to. -/
inductive HasCode : Value → Int → Prop
  | text {s : String} {n : Int} : IsNumeral s.toList n → InWord n → HasCode (.text s) n
  | boolean {b : Bool} : HasCode (.boolean b) b.toNat
  | integer {n : Int} : InWord n → HasCode (.integer n) n
  /-- What is behind the point is dropped. -/
  | positive {x : Float} {size : Binary} : viewOf x = .finite false size →
      InWord ⌊size.value⌋₊ → HasCode (.double x) ⌊size.value⌋₊
  | negative {x : Float} {size : Binary} : viewOf x = .finite true size →
      InWord (-⌊size.value⌋₊) → HasCode (.double x) (-⌊size.value⌋₊)
  | single {x : Float32} {n : Int} : HasCode (.double x.toFloat) n → HasCode (.single x) n

namespace ProtectedTable

theorem fits?_eq_some_iff {n m : Int} : statusCode?.fits? n = some m ↔ InWord n ∧ n = m := by
  rw [statusCode?.fits?, ← fitsWord_eq_true_iff]
  split <;> simp_all

theorem truncated_fits_iff (x : Float) (n : Int) :
    (truncated? x).bind statusCode?.fits? = some n ↔ HasCode (.double x) n := by
  constructor
  · intro h
    obtain ⟨whole, hwhole, h⟩ := Option.bind_eq_some_iff.mp h
    obtain ⟨hword, rfl⟩ := fits?_eq_some_iff.mp h
    obtain ⟨negative, size, hview⟩ := exists_finite_of_truncated? hwhole
    obtain rfl := Option.some.inj ((truncated?_of_finite hview).symm.trans hwhole)
    cases negative with
    | false => exact .positive hview hword
    | true => exact .negative hview hword
  · rintro (_ | _ | _ | ⟨hview, hword⟩ | ⟨hview, hword⟩)
    · rw [truncated?_of_finite hview]
      exact fits?_eq_some_iff.mpr ⟨hword, rfl⟩
    · rw [truncated?_of_finite hview]
      exact fits?_eq_some_iff.mpr ⟨hword, rfl⟩

/-- **A value is cast to its number, or to none.** -/
theorem statusCode?_eq_some_iff {value : Value} {n : Int} :
    statusCode? value = some n ↔ HasCode value n := by
  cases value with
  | missing => exact ⟨nofun, nofun⟩
  | text s =>
    rw [statusCode?, Option.bind_eq_some_iff]
    constructor
    · rintro ⟨m, hread, h⟩
      obtain ⟨hword, rfl⟩ := fits?_eq_some_iff.mp h
      exact .text (readInt?_eq_some_iff.mp hread) hword
    · rintro (⟨hnumeral, hword⟩ | _)
      exact ⟨n, readInt?_eq_some_iff.mpr hnumeral, fits?_eq_some_iff.mpr ⟨hword, rfl⟩⟩
  | boolean b =>
    constructor
    · intro h
      obtain rfl := Option.some.inj h
      cases b
      · exact .boolean
      · exact .boolean
    · rintro ⟨⟩
      cases b <;> rfl
  | integer m =>
    rw [statusCode?, fits?_eq_some_iff]
    constructor
    · rintro ⟨hword, rfl⟩
      exact .integer hword
    · rintro ⟨⟩
      exact ⟨‹_›, rfl⟩
  | double x => exact truncated_fits_iff x n
  | single x =>
    rw [statusCode?, truncated_fits_iff]
    constructor
    · exact .single
    · rintro ⟨⟩
      assumption

end ProtectedTable

/-- The cast of a column of any type to integers. -/
inductive IsCast : AnyValues → List (Option Int) → Prop
  /-- Values of the types of data files are cast one by one; some have no number. -/
  | known {values : Values} {codes : List (Option Int)} :
      List.Forall₂ (fun value code => ∀ n, code = some n ↔ HasCode value n) values.toList codes →
      IsCast (.known values) codes
  /-- Other values are left to the library. -/
  | foreign {values : ForeignValues} {codes : List (Option Int)} :
      values.codes? = some codes → IsCast (.foreign values) codes

theorem castCodes?_eq_some_iff {values : AnyValues} {codes : List (Option Int)} :
    ProtectedTable.castCodes? values = some codes ↔ IsCast values codes := by
  cases values with
  | known values =>
    have hone : (fun value code => ∀ n, code = some n ↔ HasCode value n) =
        fun value code => ProtectedTable.statusCode? value = code := by
      funext value code
      refine propext ⟨fun h => Option.ext fun n => ?_, ?_⟩
      · exact ProtectedTable.statusCode?_eq_some_iff.trans (h n).symm
      · rintro rfl n
        exact ProtectedTable.statusCode?_eq_some_iff
    have hcast : List.Forall₂ (fun value code => ∀ n, code = some n ↔ HasCode value n)
        values.toList codes ↔ values.toList.map ProtectedTable.statusCode? = codes := by
      rw [hone, ← List.forall₂_map_left_iff (f := ProtectedTable.statusCode?) (R := Eq),
        List.forall₂_eq_eq_eq]
    constructor
    · intro h
      exact .known (hcast.mpr (Option.some.inj h))
    · rintro ⟨h⟩
      exact congrArg some (hcast.mp h)
  | foreign values =>
    constructor
    · exact .foreign
    · rintro ⟨⟩
      assumption

/-- A cast leaves no value out. -/
theorem IsCast.length_eq {values : AnyValues} {codes : List (Option Int)}
    (h : IsCast values codes) : codes.length = values.size := by
  cases h with
  | known hcodes => rw [← hcodes.length_eq, Values.length_toList, AnyValues.size]
  | foreign hcodes => exact ForeignValues.length_codes _ _ hcodes

theorem exists_isCast_known (values : Values) : ∃ codes, IsCast (.known values) codes :=
  ⟨_, castCodes?_eq_some_iff.mp rfl⟩

/-! ## Texts -/

/-- The text of a value. -/
inductive HasText : Value → String → Prop
  | missing : HasText .missing ""
  | text {s : String} : HasText (.text s) s
  | boolean {b : Bool} : HasText (.boolean b) (if b then "true" else "false")
  | integer {n : Int} : HasText (.integer n) (toString n)
  | notANumber {x : Float} : viewOf x = .notANumber → HasText (.double x) "NaN"
  | infinite {x : Float} {negative : Bool} : viewOf x = .infinite negative →
      HasText (.double x) (if negative then "-inf" else "inf")
  /-- A whole number has no point, and all its digits. -/
  | whole {x : Float} {negative : Bool} {size : Binary} {n : Nat} :
      viewOf x = .finite negative size → size.value = n →
      HasText (.double x) (signed negative (Nat.toDigits 10 n))
  /-- Another number is written as the shortest decimal, without a zero left over. -/
  | shortest {x : Float} {negative : Bool} {size : Binary} {d : Decimal} :
      viewOf x = .finite negative size → (∀ n : Nat, size.value ≠ n) → size.Normal →
      size.IsShortest d.value → d.digits % 10 ≠ 0 →
      HasText (.double x) (signed negative d.positional)
  | tiny {x : Float} {negative : Bool} {size : Binary} :
      viewOf x = .finite negative size → (∀ n : Nat, size.value ≠ n) → ¬ size.Normal →
      HasText (.double x) (signed negative (Decimal.shortest size).positional)
  | single {x : Float32} {s : String} : HasText (.double x.toFloat) s → HasText (.single x) s

/-- The text of a value of any type; the library decides on the types that are not known. -/
inductive Cell.HasText : Cell → String → Prop
  | value {value : Value} {s : String} : Disclosure.HasText value s → (Cell.value value).HasText s
  | foreign {s : String} : (Cell.foreign s).HasText s

theorem Binary.isWhole_iff {b : Binary} : b.isWhole = true ↔ ∃ n : Nat, b.value = n := by
  rw [isWhole, beq_iff_eq, ← Nat.dvd_iff_mod_eq_zero]
  simp only [value_eq_natCast_iff]
  exact ⟨fun ⟨n, hn⟩ => ⟨n, hn.trans (mul_comm _ _)⟩, fun ⟨n, hn⟩ => ⟨n, hn.trans (mul_comm _ _)⟩⟩

theorem Decimal.fixed_toPlaces_zero {b : Binary} {n : Nat} (h : b.value = n) :
    (toPlaces b 0).fixed = Nat.toDigits 10 n := by
  have hround : roundHalfEven (b.ratio.1 * tenTo 0) b.ratio.2 = n := by
    rw [Binary.value_eq_natCast_iff.mp h, show tenTo 0 = 1 from rfl, mul_one]
    simp [roundHalfEven, Nat.mul_div_cancel _ b.ratio_snd_pos, b.ratio_snd_pos]
  have hplaces : toPlaces b 0 = ⟨n, 0⟩ := congrArg (⟨·, 0⟩ : Nat → Decimal) hround
  rw [hplaces]
  change (if n = 0 then ['0'] else digitsOf n ++ []) = digitsOf n
  split
  · rename_i hzero
    rw [hzero]
    rfl
  · exact List.append_nil _

theorem hasText_floatText (x : Float) : HasText (.double x) (ProtectedTable.floatText x) := by
  unfold ProtectedTable.floatText isWhole fixedText plainText
  cases hview : viewOf x with
  | notANumber => exact .notANumber hview
  | infinite negative =>
    cases negative with
    | false => exact .infinite hview
    | true => exact .infinite hview
  | finite negative size =>
    dsimp only [FloatView.write]
    split
    · rename_i hwhole
      obtain ⟨n, hn⟩ := Binary.isWhole_iff.mp hwhole
      rw [Decimal.fixed_toPlaces_zero hn]
      exact .whole hview hn
    · rename_i hfraction
      have hvalue : ∀ n : Nat, size.value ≠ n := fun n hn =>
        hfraction (Binary.isWhole_iff.mpr ⟨n, hn⟩)
      by_cases hnormal : size.Normal
      · exact .shortest hview hvalue hnormal hnormal.isShortest hnormal.shortest_digits_mod_ten
      · exact .tiny hview hvalue hnormal

/-- **Every value is written as its text.** -/
theorem hasText_valueText (value : Value) : HasText value (ProtectedTable.valueText value) := by
  cases value with
  | missing => exact .missing
  | text s => exact .text
  | boolean b => cases b <;> exact .boolean
  | integer n => exact .integer
  | double x => exact hasText_floatText x
  | single x => exact .single (hasText_floatText x.toFloat)

theorem hasText_cellText (cell : Cell) : cell.HasText (ProtectedTable.cellText cell) := by
  cases cell with
  | value value => exact .value (hasText_valueText value)
  | foreign shown => exact .foreign

end Disclosure
