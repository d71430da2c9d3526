/-!
# What the bits of a float stand for

A finite float is a mantissa times a power of two. Reading the fields of its bit pattern gives that
pair exactly, so everything that prints a float can work with natural numbers only.
-/

namespace Disclosure

/-- A power of two. -/
def twoTo (n : Nat) : Nat :=
  Nat.pow 2 n

/-- How many bits a float format spends on the fraction and on the exponent. -/
structure FloatFormat where
  fractionBits : Nat
  exponentBits : Nat

namespace FloatFormat

/-- The format of `Float`. -/
def double : FloatFormat := ⟨52, 11⟩

/-- The format of `Float32`. -/
def single : FloatFormat := ⟨23, 8⟩

/-- The power of two that the last fraction bit of the smallest floats stands for. -/
def lowestExponent (f : FloatFormat) : Int :=
  2 - (twoTo (f.exponentBits - 1) : Int) - f.fractionBits

end FloatFormat

/-- The size of a finite float, `mantissa * 2 ^ exponent`. The floats next to it are one mantissa
step away, except that the one below is only half a step away where the exponent changes. -/
structure Binary where
  mantissa : Nat
  exponent : Int
  narrowBelow : Bool
  deriving DecidableEq, Repr

/-- What a bit pattern stands for. -/
inductive FloatView where
  | notANumber
  | infinite (negative : Bool)
  | finite (negative : Bool) (size : Binary)
  deriving DecidableEq, Repr

/-- Reads the fields of a bit pattern. -/
def FloatFormat.view (f : FloatFormat) (bits : Nat) : FloatView :=
  let fraction := bits % twoTo f.fractionBits
  let biased := bits / twoTo f.fractionBits % twoTo f.exponentBits
  let negative := bits / twoTo (f.fractionBits + f.exponentBits) % 2 == 1
  if biased == twoTo f.exponentBits - 1 then
    if fraction == 0 then .infinite negative else .notANumber
  else if biased == 0 then
    .finite negative ⟨fraction, f.lowestExponent, false⟩
  else
    .finite negative
      ⟨twoTo f.fractionBits + fraction, f.lowestExponent + (biased - 1 : Nat),
        fraction == 0 && biased != 1⟩

/-- What a float stands for. -/
def viewOf (x : Float) : FloatView :=
  FloatFormat.double.view x.toBits.toNat

/-- What a float of single precision stands for. -/
def viewOf32 (x : Float32) : FloatView :=
  FloatFormat.single.view x.toBits.toNat

namespace Binary

/-- The size as a fraction of natural numbers. -/
def ratio (b : Binary) : Nat × Nat :=
  if b.exponent ≥ 0 then (b.mantissa * twoTo b.exponent.toNat, 1)
  else (b.mantissa, twoTo (-b.exponent).toNat)

/-- Whether the size is a whole number. -/
def isWhole (b : Binary) : Bool :=
  let (num, den) := b.ratio
  num % den == 0

end Binary

end Disclosure
