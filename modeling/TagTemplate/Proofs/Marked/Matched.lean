import TagTemplate.Proofs.Context.Outline

/-!
# Filling in matched values

Values that are related one by one, filled in for the same placeholders, give
pieces that correspond: the same template text, or related data. So do the rows
of loops in contexts of one outline.
-/

namespace TagTemplate

/-- The same template text, or data in both places that is related. -/
inductive Piece.Matched (R : Text → Text → Prop) : Piece → Piece → Prop where
  | template (t : Text) : Matched R (.template t) (.template t)
  | data {t t' : Text} (h : R t t') : Matched R (.data t) (.data t')

/-- Pieces that correspond one by one. -/
abbrev PiecesMatched (R : Text → Text → Prop) := List.Forall₂ (Piece.Matched R)

variable {R : Text → Text → Prop}

theorem Loop.matched_fillFrom {body : Text} {pos : Nat} {es es' : List (Span × Text)}
    (h : List.Forall₂ (fun e e' => e.1 = e'.1 ∧ R e.2 e'.2) es es') :
    PiecesMatched R (Loop.fillFrom body pos es) (Loop.fillFrom body pos es') := by
  induction h generalizing pos with
  | nil => exact .cons (.template _) .nil
  | @cons e e' es es' he _ ih =>
      obtain ⟨s, t⟩ := e
      obtain ⟨s', t'⟩ := e'
      obtain ⟨rfl, ht⟩ := he
      exact .cons (.template _) (.cons (.data ht) ih)

section Filling

variable {value value' : Text → Option Text}

theorem rel_filling (h : ∀ key, Option.Rel R (value key) (value' key)) (k : Tag.Kind) :
    Option.Rel R (filling value k) (filling value' k) := by
  cases k with
  | value key => exact h key
  | _ => exact .none

/-- A text is filled in with pieces that correspond if the same keys have values, and these are
related. -/
theorem matched_fill (h : ∀ key, Option.Rel R (value key) (value' key)) (t : Text) :
    PiecesMatched R (fill value t) (fill value' t) := by
  refine Loop.matched_fillFrom (List.rel_filterMap (R := Eq) ?_ ?_)
  · intro tag _ heq
    subst heq
    have hkind := rel_filling h tag.kind
    show Option.Rel _ ((filling value tag.kind).map (tag.span, ·))
      ((filling value' tag.kind).map (tag.span, ·))
    generalize filling value tag.kind = v, filling value' tag.kind = v' at hkind
    cases hkind with
    | none => exact .none
    | some hv => exact .some ⟨rfl, hv⟩
  · rw [List.forall₂_eq_eq_eq]

end Filling

theorem Loop.matched_copies (body : Text) {rs rs' : List Row}
    (h : List.Forall₂ (Row.Matched R) rs rs') :
    PiecesMatched R (Loop.copies body rs) (Loop.copies body rs') := by
  induction h with
  | nil => exact .nil
  | @cons r r' rs rs' hr hrs ih =>
      have hcopy : PiecesMatched R (Loop.copy body r) (Loop.copy body r') := by
        rw [Loop.copy_eq_fill, Loop.copy_eq_fill]
        exact matched_fill hr body
      cases hrs with
      | nil => exact hcopy
      | cons _ _ => exact List.rel_append hcopy (.cons (.template _) ih)

/-- **Loops over matched rows** are expanded to pieces that correspond. -/
theorem Loop.matched_expandFrom {c c' : Context} (h : c.Matched R c') (text : Text) (pos : Nat)
    (blocks : List Block) :
    PiecesMatched R (Loop.expandFrom c text pos blocks)
      (Loop.expandFrom c' text pos blocks) := by
  induction blocks generalizing pos with
  | nil => exact .cons (.template _) .nil
  | cons b blocks ih =>
      refine .cons (.template _) (List.rel_append ?_ (ih _))
      exact Loop.matched_copies _ (h.rows b.key)

end TagTemplate
