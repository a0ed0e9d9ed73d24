import TagTemplate.Decimal.Notation

/-!
# Scalars

A scalar is a value that can be printed. `render` is its text in output and
`isTruthy` its answer as a condition.
-/

namespace TagTemplate

/-- A printable value. -/
inductive Scalar where
  | text (t : Text)
  | number (n : Number)
  | bool (b : Bool)
  | null
  deriving DecidableEq, Repr

namespace Scalar

/-- Whether a condition on the value holds. Empty text, the text `0` and zero do not. -/
def isTruthy : Scalar → Bool
  | text t => !t.isEmpty && t != ['0']
  | number n => !n.isZero
  | bool b => b
  | null => false

/-- The text of the value. Truth is written as one, falsehood and null as nothing. -/
def render : Scalar → Text
  | text t => t
  | number n => n.text
  | bool true => ['1']
  | bool false => []
  | null => []

end Scalar

end TagTemplate
