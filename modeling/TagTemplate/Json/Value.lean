import TagTemplate.Bindings
import TagTemplate.Decimal.Notation
import TagTemplate.Text.Order

/-!
# JSON values

The members of an object are kept in the order of their keys, each key once.
-/

namespace TagTemplate

/-- A JSON value. -/
inductive Json where
  | null
  | bool (b : Bool)
  | number (n : Number)
  | text (t : Text)
  | array (items : List Json)
  | object (members : List (Text × Json))

namespace Json

/-- The members of an object with one more, which replaces a member of the same key. -/
def put (key : Text) (value : Json) : List (Text × Json) → List (Text × Json)
  | [] => [(key, value)]
  | (k, v) :: ms =>
    match Text.order key k with
    | .lt => (key, value) :: (k, v) :: ms
    | .eq => (key, value) :: ms
    | .gt => (k, v) :: put key value ms

/-- The value of a field, if the value is an object that has it. -/
def field? (key : String) : Json → Option Json
  | object members => Bindings.lookup key.toList members
  | _ => none

end Json

end TagTemplate
