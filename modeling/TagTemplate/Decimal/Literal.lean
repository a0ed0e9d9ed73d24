import TagTemplate.Decimal.Double
import TagTemplate.Text.Digit

/-!
# Decimal literals

A decimal literal is a sign, digits with a point before, between or behind
them, and a power of ten. It is read as the double nearest to its exact value.
The words for infinity and for no number are literals too, in letters of either
case.
-/

namespace TagTemplate.Decimal

/-- What a literal stands for. -/
inductive Reading where
  | finite (d : Double)
  | infinite (negative : Bool)
  | notANumber
  deriving DecidableEq, Repr

/-- The double that a literal stands for, if it is finite. -/
def Reading.double? : Reading → Option Double
  | finite d => some d
  | _ => none

/-- A text without the sign at its start, and whether that sign is a minus. -/
def signed : Text → Bool × Text
  | '-' :: t => (true, t)
  | '+' :: t => (false, t)
  | t => (false, t)

/-- The power of ten at the end of a literal, zero if there is none. -/
def power? : Text → Option Int
  | [] => some 0
  | c :: t =>
    if c = 'e' || c = 'E' then
      let (negative, t) := signed t
      match Text.digits? t with
      | some (ds, []) =>
        let n : Int := Text.decimalNumber 0 ds
        some (if negative then -n else n)
      | _ => none
    else none

/-- The value of a literal without its sign. -/
def magnitude? (negative : Bool) (t : Text) : Option Reading := do
  let (whole, t) := Text.digits t
  let (fraction, t) :=
    match t with
    | '.' :: t => Text.digits t
    | t => ([], t)
  guard (!(whole.isEmpty && fraction.isEmpty))
  let power ← power? t
  let value := Text.decimalNumber 0 (whole ++ fraction)
  pure (match Double.ofDecimal negative value (power - fraction.length) with
    | some d => .finite d
    | none => .infinite negative)

/-- What a text stands for, if it is a literal. -/
def read? (t : Text) : Option Reading :=
  let (negative, t) := signed t
  let word := t.map Char.toLower
  if word = "inf".toList || word = "infinity".toList then some (.infinite negative)
  else if word = "nan".toList then some .notANumber
  else magnitude? negative t

/-- The whole number that a text of digits with an optional sign stands for. -/
def readInt? (t : Text) : Option Int :=
  let (negative, t) := signed t
  match Text.digits? t with
  | some (ds, []) =>
    let n : Int := Text.decimalNumber 0 ds
    some (if negative then -n else n)
  | _ => none

end TagTemplate.Decimal
