import TagTemplate.Conditional
import TagTemplate.Inclusion
import TagTemplate.Loop
import TagTemplate.Marked.Tag
import TagTemplate.Source.Handle
import TagTemplate.Text.Blank
import TagTemplate.Text.Utf8

/-!
# Rendering

A render takes a text through its steps: partials are included, conditionals
are resolved and loops expanded, values are filled in, links written, and what
is left of the tags is removed. The blanks at both ends of the result are cut
off. Each render starts with an empty registry of partials.
-/

namespace TagTemplate

/-- What a computation gave, and what it asked the loader for. -/
structure Served (α : Type) where
  result : Except Error α
  requests : List Request

/-- How templates are rendered: the form of links, and the rules. -/
structure Renderer where
  prettyLinks : Bool
  rules : Rules
  deriving DecidableEq, Repr

namespace Renderer

/-- The steps of a render after the partials are included. -/
def finish (r : Renderer) (context : Context) (text : Text) : Except Error Text := do
  let text ← Conditional.resolve r.rules.policy context text
  let marked ← Loop.expand r.rules.policy context text
  let marked ← (marked.fillValues context).writeLinks r.rules.policy r.prettyLinks
  pure (Text.trim marked.clean)

/-- A text rendered. -/
def renderText (r : Renderer) (loader : Loader) (context : Context) (text : Text) : Served Text :=
  let (expanded, registry) := Registry.empty.expand loader r.rules text
  ⟨expanded.bind (r.finish context), registry.requests⟩

/-- The source of a handle rendered, and the handle afterwards. -/
def renderHandle (r : Renderer) (loader : Loader) (context : Context) (h : Handle) :
    Served Text × Handle :=
  match h.load loader with
  | (.error e, h, requests) => (⟨.error e, requests⟩, h)
  | (.ok text, h, requests) =>
    let served := r.renderText loader context text
    (⟨served.result, requests ++ served.requests⟩, h)

/-- A named template rendered. -/
def render (r : Renderer) (loader : Loader) (context : Context) (name : Text) : Served Text :=
  (r.renderHandle loader context (.new .template name)).1

end Renderer

/-- What a sink of `capacity` bytes holds of a text that is written to it, and whether it is all
of the text. -/
def intoSink (capacity : Nat) (text : Text) : List UInt8 × Except Error Unit :=
  let bytes := Text.bytes text
  (bytes.take capacity, if bytes.length ≤ capacity then .ok () else .error .sinkFull)

end TagTemplate
