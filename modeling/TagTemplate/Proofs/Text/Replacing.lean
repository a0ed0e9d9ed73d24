import TagTemplate.Proofs.Text.Excerpt

/-!
# What it is to replace ranges

`Replaced` relates a text to the text with some of its ranges replaced, by the
parts that both are put together from: what stands before a range is in both,
and where the one has the characters of the range the other has the
replacement. It says nothing about how the second text is made, and leaves
nothing open (`Replaced.unique`); `Text.splice` makes it (`replaced_splice`).
-/

namespace TagTemplate.Text

variable {t u : Text} {pos : Nat} {edits : List (Span × Text)}

/-- One text is the other with each range replaced, both beginning at byte `pos` of the first of
them. -/
inductive Replaced : Nat → List (Span × Text) → Text → Text → Prop where
  | rest (pos : Nat) (t : Text) : Replaced pos [] t t
  | edit {pos : Nat} {s : Span} {edits : List (Span × Text)} {gap cut t u : Text}
      (replacement : Text) (start : s.start = pos + size gap) (stop : s.stop = s.start + size cut)
      (h : Replaced s.stop edits t u) :
      Replaced pos ((s, replacement) :: edits) (gap ++ cut ++ t) (gap ++ replacement ++ u)

/-- A text is cut in one way at a number of bytes. -/
theorem append_inj_of_size {a a' b b' : Text} (h : a ++ b = a' ++ b') (hsize : size a = size a') :
    a = a' ∧ b = b' := by
  have hup := upTo?_append_size a b
  have hfrom := from?_append_size a b
  rw [h, hsize, upTo?_append_size] at hup
  rw [h, hsize, from?_append_size] at hfrom
  exact ⟨(Option.some.inj hup).symm, (Option.some.inj hfrom).symm⟩

/-- There is one text with the ranges replaced. -/
theorem Replaced.unique {v : Text} (h : Replaced pos edits t u) (h' : Replaced pos edits t v) :
    u = v := by
  induction h generalizing v with
  | rest pos t =>
      cases h'
      rfl
  | @edit pos s edits gap cut t u replacement hstart hstop _ ih =>
      generalize hwhole : gap ++ cut ++ t = whole at h'
      cases h' with
      | @edit _ _ _ gap' cut' t' u' _ hstart' hstop' hrest =>
          rw [List.append_assoc, List.append_assoc] at hwhole
          obtain ⟨rfl, hbehind⟩ := append_inj_of_size hwhole (by omega)
          obtain ⟨-, rfl⟩ := append_inj_of_size hbehind (by omega)
          rw [ih hrest]

/-- What `spliceFrom` makes of the text from byte `pos` on. -/
theorem replaced_spliceFrom {a b : Text}
    (h : SpansFit (a ++ b) (size a) (edits.map Prod.fst)) :
    Replaced (size a) edits b (spliceFrom (a ++ b) (size a) edits) := by
  induction edits generalizing a b with
  | nil =>
      have hrest : slice? (a ++ b) ⟨size a, size (a ++ b)⟩ = some b :=
        slice?_eq_some_iff.2 ⟨a, [], by simp, rfl, by simp⟩
      rw [spliceFrom, slice, hrest]
      exact .rest _ b
  | cons e edits ih =>
      obtain ⟨s, replacement⟩ := e
      obtain ⟨-, hstart, hle, hle', hrest⟩ : Boundary (a ++ b) (size a) ∧
        Boundary (a ++ b) s.start ∧ size a ≤ s.start ∧ s.start ≤ s.stop ∧
          SpansFit (a ++ b) s.stop (edits.map Prod.fst) := h
      -- what stands before the range, and the range
      obtain ⟨gap, c, rfl, hgap⟩ := hstart.cut hle
      have hbehind : Boundary (a ++ gap ++ c) s.stop := by
        rw [List.append_assoc]
        exact hrest.boundary
      obtain ⟨cut, t, rfl, hcut⟩ := hbehind.cut (by rw [size_append]; omega)
      have hstop : s.stop = size (a ++ gap ++ cut) := by rw [hcut, size_append (a ++ gap)]
      have htext : a ++ (gap ++ (cut ++ t)) = a ++ gap ++ cut ++ t := by
        simp only [List.append_assoc]
      have hslice : slice (a ++ (gap ++ (cut ++ t))) ⟨size a, s.start⟩ = gap := by
        rw [slice, hgap, slice?_mid]
        rfl
      rw [hstop, htext] at hrest
      rw [spliceFrom, hslice, hstop, htext, ← List.append_assoc gap]
      refine .edit replacement hgap ?_ ?_
      · rw [hcut, size_append, hgap]
      · rw [hstop]
        exact ih hrest

/-- **Splicing replaces the ranges**, and nothing else. -/
theorem replaced_splice (h : SpansFit t 0 (edits.map Prod.fst)) :
    Replaced 0 edits t (splice t edits) := replaced_spliceFrom (a := []) h

end TagTemplate.Text
