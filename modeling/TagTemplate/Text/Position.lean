import TagTemplate.Text.Basic

/-!
# Line and column

A position in text as a reader of it would give it: lines and columns both
start at one, a line feed ends a line, and a column counts characters, not
bytes.
-/

namespace TagTemplate

/-- A line and a column, both counted from one. -/
structure Position where
  line : Nat
  column : Nat
  deriving DecidableEq, Repr

namespace Position

/-- The first position of any text. -/
def first : Position := ⟨1, 1⟩

/-- The position after one more character. -/
def next (p : Position) (c : Char) : Position :=
  if c = '\n' then ⟨p.line + 1, 1⟩ else ⟨p.line, p.column + 1⟩

/-- Reading order: by line, and within a line by column. -/
def before (p q : Position) : Prop :=
  p.line < q.line ∨ p.line = q.line ∧ p.column < q.column

theorem before_trans {p q r : Position} (h : p.before q) (h' : q.before r) : p.before r := by
  simp only [before] at *
  omega

theorem before_next (p : Position) (c : Char) : p.before (p.next c) := by
  simp only [before, next]
  split <;> simp

end Position

namespace Text

/-- The position after all of a text. -/
def endPosition (t : Text) : Position := t.foldl Position.next Position.first

/-- The position of a byte offset; one past the end counts as the end. -/
def positionAt (t : Text) (offset : Nat) : Position :=
  endPosition ((upTo? t (min offset (size t))).getD t)

theorem positionAt_append_size (s t : Text) : positionAt (s ++ t) (size s) = endPosition s := by
  simp [positionAt, upTo?_append_size]

end Text

end TagTemplate
