import TagTemplate.Conditional
import TagTemplate.Proofs.Fallible

/-!
# The recursion of conditionals

`Conditional.resolve` recurses through the blocks of a text, each with the
proof that it is one of them. Here is the same equation without these proofs:
each block gives one edit, and the text is spliced with the edits. Of the
context only the truth of the keys matters: `resolve_congr`.
-/

namespace TagTemplate.Conditional

/-- The edit that a block of a text stands for. -/
def edit (policy : Policy) (context : Context) (text : Text) (b : Block) :
    Except Error (Span × Text) :=
  match b.taken context with
  | none => .ok (b.span, [])
  | some part => (resolve policy context (Text.slice text part)).map fun t => (b.span, t)

/-- A text is resolved by splicing it with the edits of its blocks. -/
theorem resolve_eq (policy : Policy) (context : Context) (text : Text) :
    resolve policy context text =
      (Block.find .conditional policy text).bind fun blocks =>
        (blocks.mapM (edit policy context text)).map (Text.splice text) := by
  rw [resolve]
  split
  next e he =>
    rw [he]
    rfl
  next blocks hb =>
    have hedit : (blocks.attach.mapM fun b => edit policy context text b.1) =
        blocks.mapM (edit policy context text) := by
      simp
    simp only [hb]
    show _ = (blocks.mapM (edit policy context text)).map (Text.splice text)
    rw [← hedit]
    congr 2
    funext x
    obtain ⟨b, hmem⟩ := x
    simp only [edit]
    split
    next h =>
      rw [h]
      rfl
    next part h => rw [h]

/-- Conditionals depend on the truth of the keys alone. -/
theorem resolve_congr {context context' : Context}
    (h : ∀ key, context.isTruthy key = context'.isTruthy key) (policy : Policy) (text : Text) :
    resolve policy context text = resolve policy context' text := by
  induction hn : text.length using Nat.strongRecOn generalizing text with
  | _ n ih =>
      subst hn
      rw [resolve_eq, resolve_eq]
      cases hf : Block.find .conditional policy text with
      | error e => rfl
      | ok blocks =>
          have hedit : ∀ b ∈ blocks, edit policy context text b = edit policy context' text b := by
            intro b hb
            have htaken : b.taken context = b.taken context' := by
              rw [Block.taken, Block.taken, h b.key]
            rw [edit, edit, ← htaken]
            cases hp : b.taken context with
            | none => rfl
            | some part =>
                show (resolve policy context (Text.slice text part)).map _ = _
                rw [ih _ (length_taken_lt hf hb hp) _ rfl]
          show (blocks.mapM (edit policy context text)).map _ = _
          rw [Fallible.mapM_congr hedit]
          rfl

end TagTemplate.Conditional
