import TagTemplate.Proofs.Text.Excerpt
import TagTemplate.Text.Position
import Mathlib.Data.List.DropRight
import Mathlib.Data.List.Induction

/-!
# Positions in reading order

Each character moves the position on, to the next column or to the start of the
next line. So the positions of a text come in the order of the byte offsets that
they are taken at, and two offsets between characters never share one: a line
and a column tell the offset, though neither of them counts bytes.
-/

namespace TagTemplate

namespace Position

variable {p q : Position}

theorem before_irrefl (p : Position) : ¬ p.before p := by
  simp only [before]
  omega

theorem before_asymm (h : p.before q) : ¬ q.before p := by
  intro h'
  exact before_irrefl p (before_trans h h')

end Position

namespace Text

variable {t : Text} {i j : Nat}

/-! ## What is counted -/

theorem endPosition_concat (t : Text) (c : Char) :
    endPosition (t ++ [c]) = (endPosition t).next c := by
  rw [endPosition, List.foldl_append]
  rfl

theorem line_endPosition (t : Text) : (endPosition t).line = t.count '\n' + 1 := by
  induction t using List.reverseRecOn with
  | nil => rfl
  | append_singleton t c ih =>
      rw [endPosition_concat, List.count_append, List.count_singleton, Position.next]
      by_cases hc : c = '\n'
      · rw [if_pos hc, if_pos (beq_iff_eq.2 hc)]
        show (endPosition t).line + 1 = _
        omega
      · rw [if_neg hc, if_neg (by simpa using hc)]
        exact ih

/-- On one line the columns are counted on. -/
theorem column_endPosition (t : Text) {b : Text} (hb : '\n' ∉ b) :
    (endPosition (t ++ b)).column = (endPosition t).column + b.length := by
  induction b using List.reverseRecOn with
  | nil => rw [List.append_nil]; rfl
  | append_singleton b c ih =>
      obtain ⟨hrest, hc⟩ := not_or.1 (mt List.mem_append.2 hb)
      rw [List.mem_singleton] at hc
      rw [← List.append_assoc, endPosition_concat, Position.next, if_neg (Ne.symm hc),
        List.length_append]
      show (endPosition (t ++ b)).column + 1 = _
      rw [ih hrest]
      rfl

/-- A column counts the characters behind the last line feed. -/
theorem column_eq_length_rtakeWhile (t : Text) :
    (endPosition t).column = (t.rtakeWhile (· ≠ '\n')).length + 1 := by
  induction t using List.reverseRecOn with
  | nil => rfl
  | append_singleton t c ih =>
      rw [endPosition_concat, Position.next, List.rtakeWhile_concat]
      by_cases hc : c = '\n'
      · rw [if_pos hc, if_neg (by simpa using hc)]
        rfl
      · rw [if_neg hc, if_pos (by simpa using hc), List.length_append]
        show (endPosition t).column + 1 = _
        rw [ih]
        rfl

/-- The position behind the beginning of a text, counted. -/
theorem positionAt_size (a b : Text) :
    positionAt (a ++ b) (size a) =
      ⟨a.count '\n' + 1, (a.rtakeWhile (· ≠ '\n')).length + 1⟩ := by
  rw [positionAt_append_size, ← line_endPosition, ← column_eq_length_rtakeWhile]

/-- The accent takes up two bytes and one column. -/
example : positionAt "né\nx".toList 3 = ⟨1, 3⟩ ∧ positionAt "né\nx".toList 4 = ⟨2, 1⟩ := by decide

/-! ## Order -/

theorem before_concat (t : Text) (c : Char) : (endPosition t).before (endPosition (t ++ [c])) := by
  rw [endPosition_concat]
  exact Position.before_next _ c

/-- More text moves the position on. -/
theorem before_endPosition (t : Text) (c : Char) (u : Text) :
    (endPosition t).before (endPosition (t ++ c :: u)) := by
  induction u generalizing t c with
  | nil => exact before_concat t c
  | cons d u ih =>
      -- one character further, and from there on the rest
      have hrest : (endPosition (t ++ [c])).before (endPosition (t ++ c :: d :: u)) := by
        have hmore := ih (t ++ [c]) d
        rwa [← List.append_cons] at hmore
      exact Position.before_trans (before_concat t c) hrest

/-- An offset behind another has a later position. -/
theorem positionAt_before (hi : Boundary t i) (hj : Boundary t j) (hij : i < j) :
    (positionAt t i).before (positionAt t j) := by
  obtain ⟨a, m, b, rfl, rfl, rfl, -⟩ := slice?_of_boundaries hi hj (Nat.le_of_lt hij)
  -- the offsets are not the same, so a character stands between them
  cases m with
  | nil =>
      rw [size_nil] at hij
      omega
  | cons c u =>
      have hi' : positionAt (a ++ c :: u ++ b) (size a) = endPosition a := by
        rw [List.append_assoc]
        exact positionAt_append_size a _
      have hj' : positionAt (a ++ c :: u ++ b) (size a + size (c :: u)) =
          endPosition (a ++ c :: u) := by
        rw [← size_append]
        exact positionAt_append_size _ b
      rw [hi', hj']
      exact before_endPosition a c u

/-- **Positions are in the order of their offsets.** -/
theorem positionAt_before_iff (hi : Boundary t i) (hj : Boundary t j) :
    (positionAt t i).before (positionAt t j) ↔ i < j := by
  constructor
  · intro h
    rcases Nat.lt_trichotomy i j with hlt | rfl | hgt
    · exact hlt
    · exact absurd h (Position.before_irrefl _)
    · exact absurd h (Position.before_asymm (positionAt_before hj hi hgt))
  · exact positionAt_before hi hj

/-- **A position tells its offset.** -/
theorem positionAt_eq_iff (hi : Boundary t i) (hj : Boundary t j) :
    positionAt t i = positionAt t j ↔ i = j := by
  constructor
  · intro h
    have hij : ¬ i < j := by
      rw [← positionAt_before_iff hi hj, h]
      exact Position.before_irrefl _
    have hji : ¬ j < i := by
      rw [← positionAt_before_iff hj hi, h]
      exact Position.before_irrefl _
    omega
  · intro h
    rw [h]

end Text

end TagTemplate
