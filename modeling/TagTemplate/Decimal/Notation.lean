import TagTemplate.Decimal.Shortest
import TagTemplate.Text.Basic

/-!
# Decimal notation

How numbers are written: whole numbers in decimal, doubles with the fewest
digits that read back. A double whose leading digit stands between the fifth
place after the point and the sixteenth before it is written positionally,
with a digit after the point; any other with a power of ten.
-/

namespace TagTemplate

/-- A number: whole, or a double. -/
inductive Number where
  | integer (n : Int)
  | double (d : Double)
  deriving DecidableEq, Repr

/-- The decimal digits of a natural number. -/
def natText (n : Nat) : Text := Nat.toDigits 10 n

/-- A whole number in decimal. -/
def intText : Int → Text
  | .ofNat n => natText n
  | .negSucc n => '-' :: natText (n + 1)

namespace Double

/-- Digits `ds`, the first of them at the power `k` of ten, in positional notation. -/
def positional (ds : Text) (k : Int) : Text :=
  if k < 0 then "0.".toList ++ List.replicate (-k - 1).toNat '0' ++ ds
  else
    let whole := (k + 1).toNat
    if ds.length ≤ whole then ds ++ List.replicate (whole - ds.length) '0' ++ ".0".toList
    else ds.take whole ++ '.' :: ds.drop whole

/-- Digits `ds`, the first of them at the power `k` of ten, with that power written out. -/
def scientific (ds : Text) (k : Int) : Text :=
  let mantissa :=
    match ds with
    | d :: rest@(_ :: _) => d :: '.' :: rest
    | ds => ds
  mantissa ++ 'e' :: (if 0 ≤ k then ['+'] else []) ++ intText k

/-- The digits of a positive double without zeros at their end, and the power of ten of the first
of them. -/
def significantDigits (d : Double) : Text × Int :=
  let s := d.shortest
  let all := natText s.value
  ((all.reverse.dropWhile (· = '0')).reverse, s.exponent + all.length - 1)

/-- A double in decimal. -/
def text (d : Double) : Text :=
  let sign := if d.negative then ['-'] else []
  if d.isZero then sign ++ "0.0".toList
  else
    let (ds, k) := d.significantDigits
    sign ++ if -5 ≤ k ∧ k ≤ 15 then positional ds k else scientific ds k

example : ((ofDecimal false 1 16).map text).map String.ofList = some "1e+16" := by decide

example : ((ofDecimal true 5 (-324)).map text).map String.ofList = some "-5e-324" := by
  decide +kernel

end Double

namespace Number

/-- A number in decimal. -/
def text : Number → Text
  | integer n => intText n
  | double d => d.text

/-- Whether a number is zero, of either sign. -/
def isZero : Number → Bool
  | integer n => n = 0
  | double d => d.isZero

end Number

end TagTemplate
