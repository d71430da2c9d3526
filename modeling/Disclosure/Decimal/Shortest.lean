import Disclosure.Decimal.Binary

/-!
# The shortest decimal that reads back

Every real number nearer to a float than to its neighbours is read as that float. Among the decimals
in this interval the shortest have the fewest digits, and of those the one nearest to the float is
chosen, the larger one at a tie. The ends of the interval belong to it when the mantissa is even.

All numbers are counted in quarters of a mantissa step, so that both ends of the interval are
natural numbers too.
-/

namespace Disclosure

/-- The decimal number `digits * 10 ^ exponent`. -/
structure Decimal where
  digits : Nat
  exponent : Int
  deriving DecidableEq, Repr

/-- A power of ten. -/
def tenTo (n : Nat) : Nat :=
  Nat.pow 10 n

/-- The number of decimal digits of a natural number, none for zero. -/
def digitCount (n : Nat) : Nat :=
  if n = 0 then 0 else (Nat.toDigits 10 n).length

namespace Decimal

/-- The exponent `k` with `10 ^ (k - 1) ≤ num / den < 10 ^ k`, for a fraction that is not zero. -/
def leadingExponent (num den : Nat) : Int :=
  let whole := digitCount (num / den)
  if whole > 0 then whole
  else -(smallPlaces num den (digitCount den) : Int)
where
  /-- How often a fraction below one can be multiplied by ten and stay below one. -/
  smallPlaces (num den : Nat) : Nat → Nat
    | 0 => 0
    | fuel + 1 => if num * 10 < den then smallPlaces (num * 10) den fuel + 1 else 0

/-- A fraction in units of `10 ^ unit`, as another fraction. -/
def inUnits (num den : Nat) (unit : Int) : Nat × Nat :=
  if unit ≥ 0 then (num, den * tenTo unit.toNat) else (num * tenTo (-unit).toNat, den)

/-- Writes the same number without zeros at the end of its digits. -/
def strip (d : Decimal) : Decimal :=
  go (digitCount d.digits) d
where
  go : Nat → Decimal → Decimal
    | 0, d => d
    | fuel + 1, d =>
      if d.digits % 10 == 0 && d.digits != 0 then go fuel ⟨d.digits / 10, d.exponent + 1⟩ else d

/-- The grid point of `10 ^ unit` nearest to the float inside its interval, if there is one. -/
def onGrid? (b : Binary) (unit : Int) : Option Decimal :=
  let quarter : Binary := ⟨1, b.exponent - 2, false⟩
  let (step, den) := quarter.ratio
  let (num, den) := inUnits step den unit
  let value := 4 * b.mantissa * num
  let low := (4 * b.mantissa - if b.narrowBelow then 1 else 2) * num
  let high := (4 * b.mantissa + 2) * num
  let even := b.mantissa % 2 == 0
  let floor := value / den
  let fits (n : Nat) : Bool :=
    if even then low ≤ n * den && n * den ≤ high else low < n * den && n * den < high
  match fits floor, fits (floor + 1) with
  | true, true =>
    if 2 * value < (2 * floor + 1) * den then some ⟨floor, unit⟩ else some ⟨floor + 1, unit⟩
  | true, false => some ⟨floor, unit⟩
  | false, true => some ⟨floor + 1, unit⟩
  | false, false => none

/-- The shortest decimal that reads back as the float: the coarsest grid with a point in the
interval gives it. Seventeen digits are always enough. -/
def shortest (b : Binary) : Decimal :=
  if b.mantissa = 0 then ⟨0, 0⟩
  else
    let (num, den) := b.ratio
    let top := leadingExponent num den
    let found := (List.range 17).findSome? fun (n : Nat) => onGrid? b (top - (n + 1 : Nat))
    (found.getD ⟨0, 0⟩).strip

/-- The natural number nearest to a fraction, the even one at a tie. -/
def roundHalfEven (num den : Nat) : Nat :=
  let floor := num / den
  let twice := 2 * (num % den)
  if twice < den then floor
  else if twice > den then floor + 1
  else floor + floor % 2

/-- The size of a float rounded to `places` digits behind the point, ties going to even. -/
def toPlaces (b : Binary) (places : Nat) : Decimal :=
  let (num, den) := b.ratio
  ⟨roundHalfEven (num * tenTo places) den, -places⟩

/-- The size of a float rounded to `count + 1` digits in all, ties going to even. -/
def toDigitCount (b : Binary) (count : Nat) : Decimal :=
  if b.mantissa = 0 then ⟨0, 0⟩
  else
    let (num, den) := b.ratio
    let unit := leadingExponent num den - (count + 1 : Nat)
    let (num, den) := inUnits num den unit
    let digits := roundHalfEven num den
    if digits = tenTo (count + 1) then ⟨tenTo count, unit + 1⟩ else ⟨digits, unit⟩

end Decimal

end Disclosure
