import TagTemplate.Bindings
import TagTemplate.Scalar

/-!
# Contexts

A context binds the keys of a template to scalars, which conditions ask about
and placeholders print, or to rows, over which loops run.
-/

namespace TagTemplate

/-- One row of loop data. -/
abbrev Row := Bindings Scalar

/-- What a key is bound to. -/
inductive Value where
  | scalar (s : Scalar)
  | rows (rs : List Row)
  deriving Repr

namespace Value

/-- Whether a condition on the value holds. Rows are truthy if there are any. -/
def isTruthy : Value → Bool
  | scalar s => s.isTruthy
  | rows rs => !rs.isEmpty

/-- The scalar, if the value is one. -/
def scalar? : Value → Option Scalar
  | scalar s => some s
  | rows _ => none

/-- The rows of the value. A scalar has none. -/
def rowList : Value → List Row
  | scalar _ => []
  | rows rs => rs

end Value

/-- The data of a render. -/
abbrev Context := Bindings Value

namespace Context

/-- Whether a condition on a key holds. A key that is not bound is false. -/
def isTruthy (c : Context) (key : Text) : Bool := (c.find? key).any Value.isTruthy

/-- The scalar that a key is bound to. -/
def scalar? (c : Context) (key : Text) : Option Scalar := (c.find? key).bind Value.scalar?

/-- The rows that a key is bound to, none if it is bound to no rows. -/
def rows (c : Context) (key : Text) : List Row := ((c.find? key).map Value.rowList).getD []

end Context

end TagTemplate
