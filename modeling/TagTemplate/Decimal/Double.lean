/-!
# Finite doubles

A finite double is a sign, a whole number below `2 ^ 53` and the power of two
that it counts. Every operation rounds its exact result to the nearest double,
a tie to the even neighbour, in arithmetic on natural numbers; a result too
large for a finite double is no result.
-/

namespace TagTemplate

/-- The value `± significand * 2 ^ exponent`. -/
structure Double where
  negative : Bool
  significand : Nat
  exponent : Int
  deriving DecidableEq, Repr

namespace Double

/-- The smallest exponent of a double. -/
def minExponent : Int := -1074

/-- The largest exponent of a finite double. -/
def maxExponent : Int := 971

/-- A zero of either sign. -/
def zero (negative : Bool) : Double := ⟨negative, 0, minExponent⟩

/-- Whether a double is a zero. -/
def isZero (d : Double) : Bool := d.significand = 0

/-- The whole number nearest to `num / den`; of two as near, the even one. -/
def roundDiv (num den : Nat) : Nat :=
  let q := num / den
  let r := num % den
  if 2 * r < den then q else if den < 2 * r then q + 1 else q + q % 2

/-- The ratio `num / (den * 2 ^ e)` as numerator and denominator. -/
def scaled (num den : Nat) (e : Int) : Nat × Nat :=
  if 0 ≤ e then (num, den * Nat.pow 2 e.toNat) else (num * Nat.pow 2 (-e).toNat, den)

/-- The exponent at which a positive ratio is rounded to at most 53 bits. -/
def unitOf (num den : Nat) : Int :=
  let guess : Int := num.log2 - den.log2 - 52
  let (a, b) := scaled num den guess
  max (if a < Nat.pow 2 52 * b then guess - 1 else guess) minExponent

/-- The double nearest to `num / den`. -/
def ofRatio (negative : Bool) (num den : Nat) : Option Double :=
  if num = 0 then some (zero negative)
  else
    let e := unitOf num den
    let (a, b) := scaled num den e
    let m := roundDiv a b
    let (m, e) := if m = Nat.pow 2 53 then (Nat.pow 2 52, e + 1) else (m, e)
    if maxExponent < e then none else some ⟨negative, m, e⟩

/-- The double nearest to `num * 2 ^ e / den`. -/
def ofScaled (negative : Bool) (num den : Nat) (e : Int) : Option Double :=
  let (a, b) := scaled num den (-e)
  ofRatio negative a b

/-- The product of two doubles. -/
def mul (x y : Double) : Option Double :=
  ofScaled (x.negative != y.negative) (x.significand * y.significand) 1 (x.exponent + y.exponent)

/-- The quotient of two doubles, the second not zero. -/
def div (x y : Double) : Option Double :=
  ofScaled (x.negative != y.negative) x.significand y.significand (x.exponent - y.exponent)

/-- The double nearest to `digits * 10 ^ e`. Beyond four hundred places the power alone decides. -/
def ofDecimal (negative : Bool) (digits : Nat) (e : Int) : Option Double :=
  let places : Int := e + digits.log2 / 3
  if digits = 0 || places < -400 then some (zero negative)
  else if 800 < e then none
  else if 0 ≤ e then ofRatio negative (digits * Nat.pow 10 e.toNat) 1
  else ofRatio negative digits (Nat.pow 10 (-e).toNat)

example : ofDecimal false 1 0 = some ⟨false, Nat.pow 2 52, -52⟩ := by decide

example :
    (ofDecimal false 3 0).bind (mul ⟨false, Nat.pow 2 52, -53⟩) = ofDecimal false 15 (-1) := by
  decide

end Double

end TagTemplate
