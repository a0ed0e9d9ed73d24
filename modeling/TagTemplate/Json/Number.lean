import TagTemplate.Decimal.Notation
import TagTemplate.Text.Digit

/-!
# JSON numbers

A literal without a point and without an exponent is a whole number if it fits
64 bits, signed or unsigned. Any other is a double. The digits of a double are
gathered in 64 bits: those of the whole part that no longer fit only raise the
power of ten, those after the point that no longer fit are left out. The
gathered digits, rounded to a double, are then multiplied with or divided by
powers of ten up to `10 ^ 308`, each step rounded.
-/

namespace TagTemplate.Json

/-- The largest number in which digits are gathered. -/
def digitLimit : Nat := Nat.pow 2 64 - 1

/-- The number that digits written behind `n` make, as long as it stays within the limit, and how
many of them that are. -/
def gather (n : Nat) : Text → Nat × Nat
  | [] => (n, 0)
  | c :: cs =>
    let next := 10 * n + Text.digitValue c
    if next ≤ digitLimit then
      let (m, kept) := gather next cs
      (m, kept + 1)
    else (n, 0)

/-- A power of ten as a double, up to `10 ^ 308`. -/
def powerOfTen (n : Nat) : Double := (Double.ofRatio false (Nat.pow 10 n) 1).getD (.zero false)

/-- A double divided by a power of ten, in steps of at most `10 ^ 308`. -/
def scaleDown (d : Double) (n : Nat) : Double :=
  if n ≤ 308 then (d.div (powerOfTen n)).getD d
  else if d.isZero then d
  else scaleDown ((d.div (powerOfTen 308)).getD d) (n - 308)
termination_by n

/-- Gathered digits times a power of ten. -/
def double? (negative : Bool) (digits : Nat) (e : Int) : Option Double := do
  let d ← Double.ofRatio false digits 1
  let d ←
    if e < 0 then some (scaleDown d (-e).toNat)
    else if e ≤ 308 then d.mul (powerOfTen e.toNat)
    else if digits = 0 then some d
    else none
  pure { d with negative }

/-- A literal as its parts: a minus sign, the digits before the point, those after it, and the
sign and the digits of the exponent. -/
structure Literal where
  negative : Bool
  whole : Text
  fraction : Option Text
  exponent : Option (Bool × Text)
  deriving DecidableEq, Repr

/-- The exponent at the start of a text, if an `e` stands there, and the rest. -/
def exponent? : Text → Option (Option (Bool × Text) × Text)
  | c :: t =>
    if c = 'e' || c = 'E' then
      let (negative, t) :=
        match t with
        | '-' :: t => (true, t)
        | '+' :: t => (false, t)
        | t => (false, t)
      (Text.digits? t).map fun (ds, rest) => (some (negative, ds), rest)
    else some (none, c :: t)
  | [] => some (none, [])

/-- The fraction at the start of a text, if a point stands there, and the rest. -/
def fraction? : Text → Option (Option Text × Text)
  | '.' :: t => (Text.digits? t).map fun (ds, rest) => (some ds, rest)
  | t => some (none, t)

/-- The literal at the start of a text, and the rest. A whole part of more than one digit does not
start with a zero. -/
def literal? (t : Text) : Option (Literal × Text) := do
  let (negative, t) :=
    match t with
    | '-' :: t => (true, t)
    | t => (false, t)
  let (whole, t) ← Text.digits? t
  guard (whole.head? ≠ some '0' || whole.length = 1)
  let (fraction, t) ← fraction? t
  let (exponent, t) ← exponent? t
  pure (⟨negative, whole, fraction, exponent⟩, t)

/-- The number that a literal stands for; none if it is too large. -/
def Literal.number? (l : Literal) : Option Number :=
  let (n, kept) := gather 0 l.whole
  let isWhole := l.fraction.isNone && l.exponent.isNone && kept = l.whole.length
  if isWhole && !l.negative then some (.integer n)
  else if isWhole && 0 < n && n ≤ Nat.pow 2 63 then some (.integer (-n))
  else
    let (n, places) := gather n (l.fraction.getD [])
    let power : Int :=
      match l.exponent with
      | none => 0
      | some (true, ds) => -(gather 0 ds).1
      | some (false, ds) => (gather 0 ds).1
    (double? l.negative n (l.whole.length - kept - places + power)).map .double

end TagTemplate.Json
