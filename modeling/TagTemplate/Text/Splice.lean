import TagTemplate.Text.Basic

/-!
# Replacing ranges of a text

The ranges to replace come in order and do not overlap; what stands between
them is kept.
-/

namespace TagTemplate.Text

/-- The text from byte `pos` on with each range replaced. -/
def spliceFrom (t : Text) (pos : Nat) : List (Span × Text) → Text
  | [] => slice t ⟨pos, size t⟩
  | (s, replacement) :: edits =>
    slice t ⟨pos, s.start⟩ ++ replacement ++ spliceFrom t s.stop edits

/-- The text with each range replaced. -/
def splice (t : Text) (edits : List (Span × Text)) : Text := spliceFrom t 0 edits

end TagTemplate.Text
