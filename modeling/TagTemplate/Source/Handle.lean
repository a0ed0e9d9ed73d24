import TagTemplate.Error

/-!
# Asking for sources

A question to a loader ends in a text or in an error that names the source. A
handle stands for one source: it asks the loader until it has got a text, and
from then on it gives that text without asking again.
-/

namespace TagTemplate

/-- The answer of a loader to a request. -/
def Loader.ask (loader : Loader) (request : Request) : Except Error Text :=
  match loader request.space request.name with
  | .ok text => .ok text
  | .error reason => .error (.notFound request.space request.name reason)

/-- A source and its text, once it is read. -/
structure Handle where
  space : Namespace
  name : Text
  text : Option Text
  deriving DecidableEq, Repr

namespace Handle

/-- A handle that has not been read. -/
def new (space : Namespace) (name : Text) : Handle := ⟨space, name, none⟩

/-- Whether the text is there. -/
def isLoaded (h : Handle) : Bool := h.text.isSome

/-- The text of a handle, the handle afterwards and what the loader was asked. -/
def load (loader : Loader) (h : Handle) : Except Error Text × Handle × List Request :=
  match h.text with
  | some text => (.ok text, h, [])
  | none =>
    let request : Request := ⟨h.space, h.name⟩
    match loader.ask request with
    | .ok text => (.ok text, { h with text := some text }, [request])
    | .error e => (.error e, h, [request])

end Handle

end TagTemplate
