import TagTemplate.Block.Bounds
import TagTemplate.Context
import TagTemplate.Text.Splice

/-!
# Conditionals

A conditional is replaced by its body if its key is truthy, else by the part
after its else tag, if it has one. The conditionals in the part that is taken
are resolved in the same way.
-/

namespace TagTemplate

/-- The part of a conditional that is taken. -/
def Block.taken (b : Block) (context : Context) : Option Span :=
  if context.isTruthy b.key then some b.body else b.alternative

namespace Conditional

theorem length_taken_lt {policy : Policy} {text : Text} {context : Context} {blocks : List Block}
    {b : Block} {part : Span} (hf : Block.find .conditional policy text = .ok blocks)
    (hb : b ∈ blocks) (hp : b.taken context = some part) :
    (Text.slice text part).length < text.length := by
  have hfrom := Block.From.of_find hf b hb
  simp only [Block.taken] at hp
  split at hp
  · cases hp
    exact Block.length_slice_lt_of_lex hfrom.1
  · exact Block.length_slice_lt_of_lex (hfrom.2 part hp)

/-- The text with its conditionals resolved. -/
def resolve (policy : Policy) (context : Context) (text : Text) : Except Error Text :=
  match hf : Block.find .conditional policy text with
  | .error e => .error e
  | .ok blocks => do
    let edits ← blocks.attach.mapM fun ⟨b, hb⟩ =>
      match hp : b.taken context with
      | none => pure (b.span, [])
      | some part =>
        have := length_taken_lt hf hb hp
        (resolve policy context (Text.slice text part)).map fun t => (b.span, t)
    pure (Text.splice text edits)
termination_by text.length

end Conditional

end TagTemplate
