import Disclosure.Decimal.Reading
import Disclosure.Fault
import Disclosure.Text.Blank
import Mathlib.Data.List.TakeDrop

/-!
# The characters that numbers are written with

Whatever a number is, the text that stands for it has letters, digits, points and minus signs in it
and nothing else. So it stays in one piece where a line is cut at any other character.
-/

namespace Disclosure

/-- A character that numbers are written with. -/
def IsNumeralChar (c : Char) : Prop :=
  c.isAlphanum = true ∨ c = '.' ∨ c = '-'

instance (c : Char) : Decidable (IsNumeralChar c) :=
  inferInstanceAs (Decidable (c.isAlphanum = true ∨ c = '.' ∨ c = '-'))

/-- The characters of a text are looked at one by one. -/
theorem isNumeralChar_of_all {cs : List Char}
    (h : (cs.all fun d => decide (IsNumeralChar d)) = true) : ∀ d ∈ cs, IsNumeralChar d :=
  fun d hd => of_decide_eq_true (List.all_eq_true.mp h d hd)

namespace Decimal

variable {c : Char}

theorem isNumeralChar_digitsOf {n : Nat} (h : c ∈ digitsOf n) : IsNumeralChar c := by
  have hdigit : c.isDigit = true := Nat.isDigit_of_mem_toDigits (by decide) (by decide) h
  exact .inl (by simp [Char.isAlphanum, hdigit])

theorem digitsOf_inj {n m : Nat} (h : digitsOf n = digitsOf m) : n = m := by
  rw [← Nat.ofDigitChars_ten_toDigits (n := n), ← Nat.ofDigitChars_ten_toDigits (n := m)]
  exact congrArg (Nat.ofDigitChars 10 · 0) h

theorem isNumeralChar_zeros {n : Nat} (h : c ∈ List.replicate n '0') : IsNumeralChar c := by
  rw [List.eq_of_mem_replicate h]
  exact .inl (by decide)

theorem isNumeralChar_pointed {digits : List Char} (hdigits : ∀ d ∈ digits, IsNumeralChar d)
    {places : Nat} (h : c ∈ pointed digits places) : IsNumeralChar c := by
  have hpadded : ∀ d ∈ List.replicate (places + 1 - digits.length) '0' ++ digits,
      IsNumeralChar d := by
    intro d hd
    rcases List.mem_append.mp hd with hd | hd
    · exact isNumeralChar_zeros hd
    · exact hdigits d hd
  rcases List.mem_append.mp h with h | h
  · exact hpadded c (List.mem_of_mem_take h)
  · rcases List.mem_cons.mp h with rfl | h
    · exact .inr (.inl rfl)
    · exact hpadded c (List.mem_of_mem_drop h)

theorem isNumeralChar_positional {d : Decimal} (h : c ∈ d.positional) : IsNumeralChar c := by
  rw [positional] at h
  split at h
  · split at h
    · exact isNumeralChar_zeros (n := 1) h
    · rcases List.mem_append.mp h with h | h
      · exact isNumeralChar_digitsOf h
      · exact isNumeralChar_zeros h
  · exact isNumeralChar_pointed (fun _ => isNumeralChar_digitsOf) h

end Decimal

variable {c : Char}

theorem isNumeralChar_signed {negative : Bool} {cs : List Char} (hcs : ∀ d ∈ cs, IsNumeralChar d)
    (h : c ∈ (signed negative cs).toList) : IsNumeralChar c := by
  rw [signed, String.toList_ofList] at h
  split at h
  · rcases List.mem_cons.mp h with rfl | h
    · exact .inr (.inr rfl)
    · exact hcs c h
  · exact hcs c h

theorem isNumeralChar_plainText {x : Float} (h : c ∈ (plainText x).toList) : IsNumeralChar c := by
  rw [plainText] at h
  cases hview : viewOf x with
  | notANumber =>
    rw [hview] at h
    exact isNumeralChar_of_all (by decide) c h
  | infinite negative =>
    rw [hview] at h
    exact isNumeralChar_signed (isNumeralChar_of_all (by decide)) h
  | finite negative size =>
    rw [hview] at h
    exact isNumeralChar_signed (fun _ => Decimal.isNumeralChar_positional) h

@[simp] theorem toList_toString_nat (n : Nat) : (toString n).toList = Decimal.digitsOf n :=
  Nat.toList_repr

/-- A number is told by its numeral. -/
theorem toString_nat_inj {n m : Nat} (h : toString n = toString m) : n = m := by
  have hlists := congrArg String.toList h
  rw [toList_toString_nat, toList_toString_nat] at hlists
  exact Decimal.digitsOf_inj hlists

theorem isNumeralChar_nat {n : Nat} (h : c ∈ (toString n).toList) : IsNumeralChar c := by
  rw [toList_toString_nat] at h
  exact Decimal.isNumeralChar_digitsOf h

/-- A numeral ends where a character comes that is in none. -/
theorem not_mem_nat (hc : ¬ IsNumeralChar c) (n : Nat) : c ∉ (toString n).toList :=
  fun hmem => hc (isNumeralChar_nat hmem)

theorem isNumeralChar_int {n : Int} (h : c ∈ (toString n).toList) : IsNumeralChar c := by
  have hdigits : ∀ m : Nat, ∀ d ∈ (Nat.repr m).toList, IsNumeralChar d :=
    fun m d hd => isNumeralChar_nat (n := m) hd
  cases n with
  | ofNat m => exact hdigits m c h
  | negSucc m =>
    have hsigned : c ∈ ("-" ++ Nat.repr m.succ).toList := h
    rw [String.toList_append] at hsigned
    rcases List.mem_append.mp hsigned with hminus | hrest
    · exact .inr (.inr (List.mem_singleton.mp hminus))
    · exact hdigits _ c hrest

/-- A number is written with letters, digits, points and minus signs. -/
theorem isNumeralChar_numberText {x : Float} (h : c ∈ (numberText x).toList) :
    IsNumeralChar c := by
  rw [numberText] at h
  split at h
  · exact isNumeralChar_int h
  · exact isNumeralChar_plainText h

theorem isBlank_of_isNumeralChar (h : IsNumeralChar c) : Text.isBlank c = false := by
  rcases h with h | rfl | rfl
  · have hranges : ((65 ≤ c.val ∧ c.val ≤ 90) ∨ (97 ≤ c.val ∧ c.val ≤ 122)) ∨
        (48 ≤ c.val ∧ c.val ≤ 57) := by
      have hbetween : ∀ {lo hi : UInt32}, (decide (lo ≤ c.val) && decide (c.val ≤ hi)) = true →
          lo ≤ c.val ∧ c.val ≤ hi := fun h => by simpa using h
      rcases Bool.or_eq_true_iff.mp h with hletter | hdigit
      · rcases Bool.or_eq_true_iff.mp hletter with hupper | hlower
        · exact .inl (.inl (of_decide_eq_true hupper))
        · exact .inl (.inr (hbetween hlower))
      · exact .inr (hbetween hdigit)
    have hcode : 48 ≤ c.toNat ∧ c.toNat ≤ 122 := by
      have hval := c.toNat_val
      simp only [UInt32.le_iff_toNat_le] at hranges
      simp at hranges
      omega
    simp [Text.isBlank]
    omega
  · decide
  · decide

/-! ## Texts that are no numbers -/

theorem toLower_of_isDigit (h : c.isDigit = true) : c.toLower = c := by
  refine dif_neg ?_
  simp [Char.isDigit, UInt32.le_iff_toNat_le] at h ⊢
  omega

theorem readDecimal?_singleton (hdigit : c.isDigit = false) : readDecimal? [c] = none := by
  have hspan : [c].span Char.isDigit = ([], [c]) := by
    simp [List.span_eq_takeWhile_dropWhile, hdigit]
  rw [readDecimal?]
  simp only [hspan]
  split <;> simp_all [List.span_eq_takeWhile_dropWhile]

/-- The words among the numbers have more than one letter. -/
theorem not_word_of_length_le_one {s : String} (h : s.length ≤ 1) :
    (s == "inf" || s == "infinity") = false ∧ (s == "nan") = false := by
  have hword : ∀ word : String, 1 < word.length → (s == word) = false := by
    intro word hlong
    refine beq_eq_false_iff_ne.mpr fun heq => ?_
    rw [heq] at h
    omega
  rw [hword "inf" (by decide), hword "infinity" (by decide), hword "nan" (by decide)]
  exact ⟨rfl, rfl⟩

/-- A single character is read as a number only if it is a digit. -/
theorem readFloat?_of_toList_eq_singleton {s : String} (hs : s.toList = [c])
    (hdigit : c.isDigit = false) : readFloat? s = none := by
  have hrest : (takeSign [c]).2.length ≤ 1 ∧ readDecimal? (takeSign [c]).2 = none := by
    unfold takeSign
    split
    · rename_i h
      cases h
      exact ⟨by simp, rfl⟩
    · rename_i h
      cases h
      exact ⟨by simp, rfl⟩
    · exact ⟨by simp, readDecimal?_singleton hdigit⟩
  obtain ⟨hinf, hnan⟩ := not_word_of_length_le_one
    (s := String.ofList ((takeSign [c]).2.map Char.toLower)) (by simpa using hrest.1)
  rw [readFloat?, hs]
  simp [hinf, hnan, hrest.2]

end Disclosure
