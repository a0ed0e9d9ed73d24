import TagTemplate.Decimal.Double

/-!
# The fewest digits that read back

A decimal reads back as a double if it lies in the interval of the reals that
round to it, the ends belonging to the interval if the significand is even.
For one digit, two digits and so on the two neighbours of the double on the
decimal grid of that many digits are tried; the first grid with a neighbour in
the interval gives the digits, the nearer neighbour if both lie in it, and the
even one if they are as near. Seventeen digits always suffice.
-/

namespace TagTemplate.Double

/-- A whole number of units of a power of ten. -/
structure Digits where
  value : Nat
  exponent : Int
  deriving DecidableEq, Repr

/-- The interval of a positive double, as numerators over one denominator: its lower end, the
double itself, its upper end. -/
structure Interval where
  low : Nat
  mid : Nat
  high : Nat
  den : Nat
  closed : Bool
  deriving Repr

/-- The reals that round to a positive double. Below a power of two the doubles are twice as
dense. -/
def interval (d : Double) : Interval :=
  let below := if d.significand = Nat.pow 2 52 ∧ minExponent < d.exponent then 1 else 2
  let closed := d.significand % 2 = 0
  let m := 4 * d.significand
  if 0 ≤ d.exponent then
    let s := Nat.pow 2 d.exponent.toNat
    ⟨(m - below) * s, m * s, (m + 2) * s, 4, closed⟩
  else ⟨m - below, m, m + 2, 4 * Nat.pow 2 (-d.exponent).toNat, closed⟩

/-- Whether `n / den` lies in an interval. -/
def Interval.holds (i : Interval) (n : Nat) : Bool :=
  if i.closed then i.low ≤ n && n ≤ i.high else i.low < n && n < i.high

/-- Number of decimal digits of a number; one for zero. -/
def digitCount (n : Nat) : Nat := (Nat.toDigits 10 n).length

/-- The power of ten of the leading digit of `num / den`, which is positive. -/
def leadingPower (num den : Nat) : Int :=
  if den ≤ num then digitCount (num / den) - 1
  else -digitCount ((den + num - 1) / num - 1)

/-- The better neighbour of an interval's double on the grid of `10 ^ unit`, if one of them lies in
the interval. -/
def onGrid? (i : Interval) (unit : Int) : Option Digits :=
  let up := Nat.pow 10 (-unit).toNat
  let step := i.den * Nat.pow 10 unit.toNat
  let i : Interval := { i with low := i.low * up, mid := i.mid * up, high := i.high * up }
  let g := i.mid / step
  let below := i.mid - g * step
  let above := (g + 1) * step - i.mid
  match i.holds (g * step), i.holds ((g + 1) * step) with
  | false, false => none
  | true, false => some ⟨g, unit⟩
  | false, true => some ⟨g + 1, unit⟩
  | true, true =>
    if below < above then some ⟨g, unit⟩
    else if above < below then some ⟨g + 1, unit⟩
    else some ⟨g + g % 2, unit⟩

/-- The shortest digits on the grids from `n` digits on, at most `tries` of them. -/
def shortestFrom (i : Interval) (leading : Int) : (tries n : Nat) → Digits
  | 0, _ => ⟨0, 0⟩
  | tries + 1, n => (onGrid? i (leading - n + 1)).getD (shortestFrom i leading tries (n + 1))

/-- The fewest digits that read back as a positive double. -/
def shortest (d : Double) : Digits :=
  let i := interval d
  shortestFrom i (leadingPower i.mid i.den) 17 1

end TagTemplate.Double
