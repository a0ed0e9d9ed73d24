import TagTemplate.Bindings
import TagTemplate.Check
import TagTemplate.Source.Handle
import TagTemplate.Text.Splice

/-!
# Partials

A reference to a partial is replaced by the text of the partial, in which the
references are replaced in the same way; nothing else is done to it. A registry
keeps the partials that are expanded, so that each is read once.

`resolve` carries the chain of the partials that are being expanded, outermost
first, and how much room is left below the limit of nesting. A partial that is
on the chain includes itself, and one for which there is no room is nested too
deep; the room shrinks with every nested expansion, so the recursion ends for
every loader. The registry is given back with a failure too.
-/

namespace TagTemplate

/-- How strict a render is and how deep partials may be nested. -/
structure Rules where
  policy : Policy := .strict
  depth : Nat := 32
  deriving DecidableEq, Repr

/-- The partials expanded so far, and what the loader was asked, latest last. -/
structure Registry where
  expanded : Bindings Text
  requests : List Request
  deriving Repr

namespace Registry

/-- A registry without partials. -/
def empty : Registry := ⟨.empty, []⟩

/-- The registry after a request. -/
def asked (r : Registry) (request : Request) : Registry :=
  { r with requests := r.requests ++ [request] }

/-- The registry with one partial more. -/
def remember (r : Registry) (name content : Text) : Registry :=
  { r with expanded := r.expanded.insert name content }

end Registry

namespace Inclusion

/-- What a reference to a partial is replaced by, the reference being a tag. -/
def reference? (tag : Tag) : Option (Span × Text) :=
  match tag.kind with
  | .inclusion name => some (tag.span, name)
  | _ => none

/-- The references of a text, in order. -/
def references (text : Text) : List (Span × Text) := (Tag.lex text).filterMap reference?

/-- The contents of some references, one after the other. -/
def contents (resolve : Text → Registry → Except Error Text × Registry) :
    List (Span × Text) → Registry → Except Error (List (Span × Text)) × Registry
  | [], r => (.ok [], r)
  | (s, name) :: refs, r =>
    match resolve name r with
    | (.error e, r) => (.error e, r)
    | (.ok content, r) =>
      match contents resolve refs r with
      | (.error e, r) => (.error e, r)
      | (.ok edits, r) => (.ok ((s, content) :: edits), r)

/-- A text with its references replaced, given how a name is resolved. -/
def expandWith (policy : Policy) (resolve : Text → Registry → Except Error Text × Registry)
    (text : Text) (r : Registry) : Except Error Text × Registry :=
  match reportMalformed policy [.inclusion] text (Tag.lex text) with
  | .error e => (.error e, r)
  | .ok () =>
    match contents resolve (references text) r with
    | (.error e, r) => (.error e, r)
    | (.ok edits, r) => (.ok (Text.splice text edits), r)

/-- The expanded content of a partial. -/
def resolve (loader : Loader) (rules : Rules) (room : Nat) (chain : List Text) (name : Text)
    (r : Registry) : Except Error Text × Registry :=
  match r.expanded.find? name with
  | some content => (.ok content, r)
  | none =>
    if name ∈ chain then (.error (.cyclic (chain ++ [name])), r)
    else
      match room with
      | 0 => (.error (.tooDeep name rules.depth), r)
      | room + 1 =>
        let request : Request := ⟨.fragment, name⟩
        let r := r.asked request
        match loader.ask request with
        | .error e => (.error e, r)
        | .ok raw =>
          match expandWith rules.policy (resolve loader rules room (chain ++ [name])) raw r with
          | (.error e, r) => (.error e, r)
          | (.ok content, r) => (.ok content, r.remember name content)

end Inclusion

namespace Registry

/-- The expanded content of a partial. -/
def resolve (loader : Loader) (rules : Rules) (name : Text) (r : Registry) :
    Except Error Text × Registry :=
  Inclusion.resolve loader rules rules.depth [] name r

/-- A text with its references to partials replaced. -/
def expand (loader : Loader) (rules : Rules) (text : Text) (r : Registry) :
    Except Error Text × Registry :=
  Inclusion.expandWith rules.policy (resolve loader rules) text r

end Registry

end TagTemplate
