import TagTemplate.Text.Basic

/-!
# Digits

The values of decimal and hexadecimal digits.
-/

namespace TagTemplate.Text

/-- The value of a decimal digit. -/
def digitValue (c : Char) : Nat := c.toNat - '0'.toNat

/-- The value of a hexadecimal digit of either case. -/
def hexValue? (c : Char) : Option Nat :=
  if c.isDigit then some (digitValue c)
  else if 'a' ≤ c ∧ c ≤ 'f' then some (c.toNat - 'a'.toNat + 10)
  else if 'A' ≤ c ∧ c ≤ 'F' then some (c.toNat - 'A'.toNat + 10)
  else none

/-- The number that hexadecimal digits stand for, written behind `n`. -/
def hexNumber? (n : Nat) : Text → Option Nat
  | [] => some n
  | c :: t => do
    let d ← hexValue? c
    hexNumber? (16 * n + d) t

/-- The number that decimal digits stand for, written behind `n`. -/
def decimalNumber (n : Nat) (ds : Text) : Nat := ds.foldl (fun n c => 10 * n + digitValue c) n

/-- The digits at the start of a text, and the rest. -/
def digits (t : Text) : Text × Text := (t.takeWhile Char.isDigit, t.dropWhile Char.isDigit)

/-- The digits at the start of a text, at least one of them, and the rest. -/
def digits? (t : Text) : Option (Text × Text) :=
  let (ds, rest) := digits t
  if ds.isEmpty then none else some (ds, rest)

end TagTemplate.Text
