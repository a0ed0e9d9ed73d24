import TagTemplate.Proofs.Text.Position
import TagTemplate.Text.Splice

/-!
# Texts cut at bytes

`slice` gives nothing for a range that it cannot cut out, so a computation that
uses it does not show whether its ranges were good. The computations here and in
the modules beside this one are told once more with `slice?` in its place: where
a range is reversed, leaves its text or has an end inside a character, there is
no result at all. Each of them is followed by the lemma that it has one, and
which: that of the computation it stands for.
-/

namespace TagTemplate.Text

variable {t : Text} {i j : Nat}

/-- A range can be cut out exactly if it is not reversed, does not leave the text, and begins and
ends between characters. -/
theorem exists_slice?_iff {s : Span} :
    (∃ m, slice? t s = some m) ↔
      s.start ≤ s.stop ∧ s.stop ≤ size t ∧ Boundary t s.start ∧ Boundary t s.stop := by
  constructor
  · intro h
    obtain ⟨m, hm⟩ := h
    obtain ⟨a, b, rfl, hstart, hstop⟩ := slice?_eq_some_iff.1 hm
    have hend : Boundary (a ++ m ++ b) s.stop :=
      ⟨a ++ m, b, rfl, by rw [hstop, size_append]⟩
    exact ⟨by omega, hend.le, ⟨a, m ++ b, by rw [List.append_assoc], hstart.symm⟩, hend⟩
  · intro h
    obtain ⟨hle, -, hi, hj⟩ := h
    obtain ⟨-, m, -, -, -, -, hm⟩ := slice?_of_boundaries hi hj hle
    exact ⟨m, hm⟩

/-- The two bytes of a character are not to be parted. -/
example : slice? "né".toList ⟨1, 2⟩ = none := by decide

theorem slice?_eq_of_exists {s : Span} (h : ∃ m, slice? t s = some m) :
    slice? t s = some (slice t s) := by
  obtain ⟨m, hm⟩ := h
  rw [slice, hm, Option.getD_some]

theorem slice?_eq_slice (hi : Boundary t i) (hj : Boundary t j) (hij : i ≤ j) :
    slice? t ⟨i, j⟩ = some (slice t ⟨i, j⟩) := by
  obtain ⟨-, m, -, -, -, -, hm⟩ := slice?_of_boundaries hi hj hij
  exact slice?_eq_of_exists ⟨m, hm⟩

/-! ## Positions -/

/-- The byte at which the last line feed of a text stands. -/
def lastFeed? : Text → Option Nat
  | [] => none
  | c :: t =>
    match lastFeed? t with
    | some n => some (c.utf8Size + n)
    | none => if c = '\n' then some 0 else none

/-- The position of a byte offset, by the line feeds before it and the characters behind the last
of them. -/
def positionAt? (t : Text) (offset : Nat) : Option Position := do
  let before ← slice? t ⟨0, min offset (size t)⟩
  match lastFeed? before with
  | some n => do
    let line ← slice? before ⟨n + 1, size before⟩
    pure ⟨before.count '\n' + 1, line.length + 1⟩
  | none => pure ⟨before.count '\n' + 1, before.length + 1⟩

theorem lastFeed?_cases (t : Text) :
    (lastFeed? t = none ∧ '\n' ∉ t) ∨
      ∃ a b, lastFeed? t = some (size a) ∧ t = a ++ '\n' :: b ∧ '\n' ∉ b := by
  induction t with
  | nil => exact .inl ⟨rfl, List.not_mem_nil⟩
  | cons c t ih =>
      rw [lastFeed?]
      rcases ih with ⟨hnone, hfree⟩ | ⟨a, b, hsome, rfl, hfree⟩
      · rw [hnone]
        by_cases hc : c = '\n'
        · subst hc
          exact .inr ⟨[], t, rfl, rfl, hfree⟩
        · left
          refine ⟨if_neg hc, ?_⟩
          rw [List.mem_cons, not_or]
          exact ⟨Ne.symm hc, hfree⟩
      · rw [hsome]
        exact .inr ⟨c :: a, b, rfl, rfl, hfree⟩

theorem positionAt?_eq {offset : Nat} (h : Boundary t offset) :
    positionAt? t offset = some (positionAt t offset) := by
  obtain ⟨before, after, rfl, rfl⟩ := h
  have hmin : min (size before) (size (before ++ after)) = size before := by
    rw [size_append]
    omega
  have hbefore : slice? (before ++ after) ⟨0, size before⟩ = some before :=
    slice?_eq_some_iff.2 ⟨[], after, rfl, rfl, (Nat.zero_add _).symm⟩
  rw [positionAt?, hmin, hbefore, positionAt_append_size, Option.bind_eq_bind, Option.bind_some,
    ← line_endPosition]
  rcases lastFeed?_cases before with ⟨hnone, hfree⟩ | ⟨a, b, hsome, rfl, hfree⟩
  · rw [hnone]
    have hcolumn := column_endPosition [] hfree
    rw [List.nil_append] at hcolumn
    show some (Position.mk _ (before.length + 1)) = _
    rw [show before.length + 1 = (endPosition before).column by
      rw [hcolumn]
      exact Nat.add_comm _ _]
  · have hline : slice? (a ++ '\n' :: b) ⟨size a + 1, size (a ++ '\n' :: b)⟩ = some b := by
      have hfeed : '\n'.utf8Size = 1 := by decide
      refine slice?_eq_some_iff.2 ⟨a ++ ['\n'], [], by simp, ?_, ?_⟩
      · simp only [size_append, size_cons, size_nil, hfeed]
      · simp only [size_append, size_cons, size_nil, hfeed]
        omega
    have hcolumn := column_endPosition (a ++ ['\n']) hfree
    rw [endPosition_concat, Position.next, if_pos rfl, List.append_assoc,
      List.singleton_append] at hcolumn
    rw [hsome]
    dsimp only
    rw [hline]
    show some (Position.mk _ (b.length + 1)) = _
    rw [show b.length + 1 = (endPosition (a ++ '\n' :: b)).column by
      rw [hcolumn]
      exact Nat.add_comm _ _]

/-! ## Splices -/

/-- The ranges lie in a text one behind the other. -/
instance (n : Nat) : (pos : Nat) → (spans : List Span) → Decidable (SpansWithin n pos spans)
  | pos, [] => inferInstanceAs (Decidable (pos ≤ n))
  | pos, s :: spans =>
    have : Decidable (SpansWithin n s.stop spans) := instDecidableSpansWithin n s.stop spans
    inferInstanceAs (Decidable (pos ≤ s.start ∧ s.start ≤ s.stop ∧ SpansWithin n s.stop spans))

/-- The text from byte `pos` on with each range replaced, the text between them cut out. -/
def spliceFrom? (t : Text) (pos : Nat) : List (Span × Text) → Option Text
  | [] => slice? t ⟨pos, size t⟩
  | (s, replacement) :: edits => do
    let gap ← slice? t ⟨pos, s.start⟩
    let rest ← spliceFrom? t s.stop edits
    pure (gap ++ replacement ++ rest)

/-- The text with each range replaced. They have to come in order and not to overlap. -/
def splice? (t : Text) (edits : List (Span × Text)) : Option Text :=
  if SpansWithin (size t) 0 (edits.map Prod.fst) then spliceFrom? t 0 edits else none

theorem spliceFrom?_eq {pos : Nat} {edits : List (Span × Text)}
    (h : SpansFit t pos (edits.map Prod.fst)) :
    spliceFrom? t pos edits = some (spliceFrom t pos edits) := by
  induction edits generalizing pos with
  | nil => exact slice?_eq_slice h (boundary_size t) h.le
  | cons e edits ih =>
      obtain ⟨s, replacement⟩ := e
      obtain ⟨hpos, hstart, hle, -, hrest⟩ := h
      rw [spliceFrom?, slice?_eq_slice hpos hstart hle, ih hrest]
      rfl

theorem splice?_eq {edits : List (Span × Text)} (h : SpansFit t 0 (edits.map Prod.fst)) :
    splice? t edits = some (splice t edits) := by
  rw [splice?, if_pos h.within]
  exact spliceFrom?_eq h

theorem spansFit_of_spliceFrom? {pos : Nat} {edits : List (Span × Text)} {m : Text}
    (hwithin : SpansWithin (size t) pos (edits.map Prod.fst))
    (h : spliceFrom? t pos edits = some m) : SpansFit t pos (edits.map Prod.fst) := by
  induction edits generalizing pos m with
  | nil => exact (exists_slice?_iff.1 ⟨m, h⟩).2.2.1
  | cons e edits ih =>
      obtain ⟨s, replacement⟩ := e
      obtain ⟨-, hle, hwithin⟩ := hwithin
      obtain ⟨gap, hgap, h⟩ := Option.bind_eq_some_iff.1 h
      obtain ⟨rest, hrest, -⟩ := Option.bind_eq_some_iff.1 h
      obtain ⟨hpos, -, hi, hj⟩ := exists_slice?_iff.1 ⟨gap, hgap⟩
      exact ⟨hi, hj, hpos, hle, ih hwithin hrest⟩

/-- A text can be spliced exactly if the ranges lie in it one behind the other, between
characters. -/
theorem exists_splice?_iff {edits : List (Span × Text)} :
    (∃ m, splice? t edits = some m) ↔ SpansFit t 0 (edits.map Prod.fst) := by
  constructor
  · intro h
    obtain ⟨m, hm⟩ := h
    obtain ⟨hwithin, hm⟩ := Option.ite_none_right_eq_some.1 hm
    exact spansFit_of_spliceFrom? hwithin hm
  · intro h
    exact ⟨splice t edits, splice?_eq h⟩

/-- Ranges out of order are not replaced, though each of them could be cut out. -/
example : splice? "abc".toList [(⟨1, 2⟩, []), (⟨0, 1⟩, [])] = none := by decide

end TagTemplate.Text
