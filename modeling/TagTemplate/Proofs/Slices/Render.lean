import TagTemplate.Proofs.Slices.Marked
import TagTemplate.Proofs.Slices.Steps
import TagTemplate.Render

/-!
# Renders in range

A render cuts its text into parts at byte offsets, again and again, and most of
these offsets are found in one text and used on another. Here the steps are put
together as a render does it, each of them in the form that has no result where
a range is bad. That a render in this form always has one, and the same as
`renderText`, says that no range in it is ever bad.
-/

namespace TagTemplate.Renderer

/-- The steps of a render after the partials are included. -/
def finish? (r : Renderer) (context : Context) (text : Text) : Option (Except Error Text) := do
  match ← Conditional.resolve? r.rules.policy context text with
  | .error e => pure (.error e)
  | .ok text =>
    match ← Loop.expand? r.rules.policy context text with
    | .error e => pure (.error e)
    | .ok marked =>
      let filled ← marked.fillValues? context
      match ← filled.writeLinks? r.rules.policy r.prettyLinks with
      | .error e => pure (.error e)
      | .ok linked =>
        let cleaned ← linked.clean?
        pure (.ok (Text.trim cleaned))

/-- A text rendered. -/
def renderText? (r : Renderer) (loader : Loader) (context : Context) (text : Text) :
    Option (Served Text) := do
  match ← Registry.empty.expand? loader r.rules text with
  | (.error e, registry) => pure ⟨.error e, registry.requests⟩
  | (.ok expanded, registry) =>
    let result ← r.finish? context expanded
    pure ⟨result, registry.requests⟩

theorem finish?_eq (r : Renderer) (context : Context) (text : Text) :
    r.finish? context text = some (r.finish context text) := by
  rw [finish?, finish, Conditional.resolve?_eq, Option.bind_eq_bind, Option.bind_some]
  cases Conditional.resolve r.rules.policy context text with
  | error e => rfl
  | ok resolved =>
      show (Loop.expand? r.rules.policy context resolved >>= _) = _
      rw [Loop.expand?_eq, Option.bind_eq_bind, Option.bind_some]
      show _ = some (Loop.expand r.rules.policy context resolved >>= _)
      cases Loop.expand r.rules.policy context resolved with
      | error e => rfl
      | ok marked =>
          show (marked.fillValues? context >>= _) = _
          rw [Marked.fillValues?_eq, Option.bind_eq_bind, Option.bind_some,
            Marked.writeLinks?_eq, Option.bind_eq_bind, Option.bind_some]
          show _ = some ((marked.fillValues context).writeLinks r.rules.policy r.prettyLinks >>= _)
          cases (marked.fillValues context).writeLinks r.rules.policy r.prettyLinks with
          | error e => rfl
          | ok linked =>
              show (linked.clean? >>= _) = _
              rw [Marked.clean?_eq]
              rfl

theorem renderText?_eq (r : Renderer) (loader : Loader) (context : Context) (text : Text) :
    r.renderText? loader context text = some (r.renderText loader context text) := by
  rw [renderText?, renderText, Registry.expand?_eq, Option.bind_eq_bind, Option.bind_some]
  obtain ⟨e | expanded, registry⟩ := Registry.empty.expand loader r.rules text
  · rfl
  · show (r.finish? context expanded >>= _) = _
    rw [finish?_eq]
    rfl

/-- **No slice of a render is out of range.** A range can be cut out exactly if it is not reversed,
lies in its text and has both ends between characters; ranges can be replaced exactly if they are
like this, in order and apart, in marked text only if they are in order and apart; and the marks of
a link are told apart exactly if it has room for both. Tags, the parts of blocks and what stands
between them, the parts of pieces, the marks of links and the positions of errors are all cut out
under these conditions, or else there is no result. There always is one: for each step, whatever it
is given, and for a render of every text with every context, loader and renderer. It is that of the
step or the render. -/
theorem slices_in_range :
    (∀ (t : Text) (s : Span), (∃ m, Text.slice? t s = some m) ↔
      s.start ≤ s.stop ∧ s.stop ≤ Text.size t ∧
        Text.Boundary t s.start ∧ Text.Boundary t s.stop) ∧
    (∀ (t : Text) (edits : List (Span × Text)),
      (∃ m, Text.splice? t edits = some m) ↔ Text.SpansFit t 0 (edits.map Prod.fst)) ∧
    (∀ (m m' : Marked) (edits : List (Span × Piece)),
      m.splice? edits = some m' → SpansWithin m.size 0 (edits.map Prod.fst)) ∧
    (∀ link : Span, (∃ ends, Marked.linkEnds? link = some ends) ↔
      link.start + Text.size Tag.linkMark + Text.size Tag.closeMark ≤ link.stop) ∧
    (∀ (loader : Loader) (rules : Rules) (t : Text) (registry : Registry),
      registry.expand? loader rules t = some (registry.expand loader rules t)) ∧
    (∀ (policy : Policy) (context : Context) (t : Text),
      Conditional.resolve? policy context t = some (Conditional.resolve policy context t) ∧
        Loop.expand? policy context t = some (Loop.expand policy context t)) ∧
    (∀ (policy : Policy) (pretty : Bool) (context : Context) (m : Marked),
      m.fillValues? context = some (m.fillValues context) ∧
        m.writeLinks? policy pretty = some (m.writeLinks policy pretty) ∧
        m.clean? = some m.clean) ∧
    ∀ (r : Renderer) (loader : Loader) (context : Context) (t : Text),
      r.renderText? loader context t = some (r.renderText loader context t) := by
  refine ⟨fun t s => Text.exists_slice?_iff, fun t edits => Text.exists_splice?_iff,
    fun m m' edits h => Marked.within_of_splice? h, fun link => Marked.exists_linkEnds?_iff,
    fun loader rules t registry => Registry.expand?_eq loader rules t registry,
    fun policy context t => ?_, fun policy pretty context m => ?_, renderText?_eq⟩
  · exact ⟨Conditional.resolve?_eq policy context t, Loop.expand?_eq policy context t⟩
  · exact ⟨Marked.fillValues?_eq context m, Marked.writeLinks?_eq policy pretty m,
      Marked.clean?_eq m⟩

end TagTemplate.Renderer
