import TagTemplate.Text.Basic

/-!
# The order of texts

Texts are ordered by their characters' code points, from the first character
on, a text before its longer continuations; this is also the order of their
UTF-8 bytes.
-/

namespace TagTemplate.Text

/-- Which of two texts comes first. -/
def order : Text → Text → Ordering
  | [], [] => .eq
  | [], _ :: _ => .lt
  | _ :: _, [] => .gt
  | c :: s, d :: t => if c = d then order s t else if c.toNat < d.toNat then .lt else .gt

theorem order_eq_iff {s t : Text} : order s t = .eq ↔ s = t := by
  induction s generalizing t with
  | nil => cases t <;> simp [order]
  | cons c s ih =>
      cases t with
      | nil => simp [order]
      | cons d t =>
          by_cases h : c = d
          · simp [order, h, ih]
          · simp only [order, h, if_false, List.cons.injEq, false_and, iff_false]
            split <;> simp

end TagTemplate.Text
