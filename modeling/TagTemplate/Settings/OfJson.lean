import TagTemplate.Json.Value
import TagTemplate.Settings

/-!
# Settings from JSON

Each field that is there has to be of its type; fields that are not there keep
their defaults, and other fields mean nothing. An array holds the fields in
their order, and no more than them.
-/

namespace TagTemplate.Settings

/-- The text that a JSON value is. -/
def textOf? : Json → Option Text
  | .text t => some t
  | _ => none

/-- The truth value that a JSON value is. -/
def boolOf? : Json → Option Bool
  | .bool b => some b
  | _ => none

/-- The number of at most 32 bits that a JSON value is. -/
def countOf? : Json → Option Nat
  | .number (.integer (.ofNat n)) => if n < Nat.pow 2 32 then some n else none
  | _ => none

/-- A field, which has a default. -/
def fieldOf? {α : Type} (of? : Json → Option α) (default : α) : Option Json → Option α
  | none => some default
  | some value => of? value

/-- The settings whose fields are found by number and name. -/
def ofFields? (field : Nat → String → Option Json) : Option Settings := do
  let title ← fieldOf? textOf? [] (field 0 "title")
  let description ← fieldOf? textOf? [] (field 1 "description")
  let colophon ← fieldOf? textOf? [] (field 2 "colophon")
  let prettyLinks ← fieldOf? boolOf? false (field 3 "pretty_links")
  let postsPerPage ← fieldOf? countOf? 1 (field 4 "posts_per_page")
  pure { title, description, colophon, prettyLinks, postsPerPage }

/-- The settings that a JSON value holds. -/
def ofJson? (value : Json) : Option Settings :=
  match value with
  | .object _ => ofFields? fun _ name => value.field? name
  | .array items => if items.length ≤ 5 then ofFields? fun n _ => items[n]? else none
  | _ => none

end TagTemplate.Settings
