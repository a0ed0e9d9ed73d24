import TagTemplate.Context
import TagTemplate.Error
import TagTemplate.Json.Value

/-!
# Contexts from JSON

An object becomes a context if each of its values is a scalar or an array of
objects of scalars. Otherwise the first place that is wrong, in the order of
keys, items and fields, is named.
-/

namespace TagTemplate.Context

/-- The scalar that a JSON value is. -/
def scalarOf (place : Text) : Json → Except ContextFault Scalar
  | .null => .ok .null
  | .bool b => .ok (.bool b)
  | .number n => .ok (.number n)
  | .text t => .ok (.text t)
  | .array _ => .error (.notScalar place)
  | .object _ => .error (.notScalar place)

/-- The entries of a row, its fields being at a place. -/
def fieldsOf (place : Text) : List (Text × Json) → Except ContextFault (List (Text × Scalar))
  | [] => .ok []
  | (field, value) :: rest => do
    let s ← scalarOf (place ++ '.' :: field) value
    let more ← fieldsOf place rest
    pure ((field, s) :: more)

/-- The rows that the items of an array make, the first of them having number `index`. -/
def rowsOf (key : Text) (index : Nat) : List Json → Except ContextFault (List Row)
  | [] => .ok []
  | item :: rest =>
    let place := key ++ '[' :: natText index ++ [']']
    match item with
    | .object members => do
      let fields ← fieldsOf place members
      let more ← rowsOf key (index + 1) rest
      pure (Bindings.ofList fields :: more)
    | _ => .error (.notRow place)

/-- The value that a member of an object binds its key to. -/
def valueOf (key : Text) : Json → Except ContextFault Value
  | .array items => (rowsOf key 0 items).map .rows
  | value => (scalarOf key value).map .scalar

/-- The entries of a context. -/
def entriesOf : List (Text × Json) → Except ContextFault (List (Text × Value))
  | [] => .ok []
  | (key, value) :: rest => do
    let v ← valueOf key value
    let more ← entriesOf rest
    pure ((key, v) :: more)

/-- The context that a JSON value makes. -/
def ofJson : Json → Except Error Context
  | .object members =>
    match entriesOf members with
    | .ok entries => .ok (Bindings.ofList entries)
    | .error fault => .error (.invalidContext fault)
  | _ => .error (.invalidContext .notObject)

end TagTemplate.Context
