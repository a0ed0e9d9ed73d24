import TagTemplate.Loop
import TagTemplate.Proofs.Marked.Rewrite

/-!
# Filling in values

The rows of a loop and the context fill in placeholders in the same way: `fill`
replaces those of a text whose keys have a value and makes each value a piece of
data. A copy of the body of a loop is `fill`, and so is the step of a render that
fills in the context, piece by piece: no placeholder reaches from one piece into
the next, so the pieces of a marked text are filled apart from each other.
-/

namespace TagTemplate

open Tag (Kind)

/-! ## One text -/

/-- What a tag is replaced by, given the values of keys. -/
def filling (value : Text → Option Text) : Kind → Option Text
  | .value key => value key
  | _ => none

/-- The pieces of a text with the values of its placeholders filled in. -/
def fill (value : Text → Option Text) (t : Text) : List Piece :=
  Loop.fillFrom t 0
    ((Tag.lex t).filterMap fun tag => (filling value tag.kind).map (tag.span, ·))

/-- The data that a tag is replaced by. -/
def fillingInk (value : Text → Option Text) (k : Kind) : Option Ink :=
  (filling value k).map (Ink.ofText .data)

/-- The values of the fields of a row. -/
def Row.value (row : Row) (key : Text) : Option Text := (row.find? key).map Scalar.render

/-- The values of the keys of a context that are bound to scalars. -/
def Context.value (context : Context) (key : Text) : Option Text :=
  (context.scalar? key).map Scalar.render

theorem isLink_of_filling {value : Text → Option Text} {k : Kind}
    (h : (filling value k).isSome = true) : k.isLink = false := by
  cases k <;> first | rfl | cases h

theorem isLink_of_fillingInk {value : Text → Option Text} {k : Kind}
    (h : (fillingInk value k).isSome = true) : k.isLink = false :=
  isLink_of_filling (by rwa [fillingInk, Option.isSome_map] at h)

/-- A copy of a body for a row is the body filled in. -/
theorem Loop.copy_eq_fill (body : Text) (row : Row) :
    Loop.copy body row = fill (Row.value row) body := by
  rw [Loop.copy, fill]
  congr 1
  apply List.filterMap_congr
  intro tag _
  simp only [Loop.field?, filling]
  cases tag.kind with
  | value key => simp [Row.value, Function.comp_def]
  | _ => rfl

theorem Ink.tags_ofText_template (t : Text) : Ink.tags (Ink.ofText .template t) = Tag.lex t := by
  rw [Ink.tags, Ink.text_ofText]
  apply List.filter_eq_self.2
  intro tag _
  rw [Ink.wrote]
  apply List.all_eq_true.2
  intro s _
  rw [Ink.excerpt_ofText, Ink.isTemplate_ofText_template]

theorem Ink.tags_ofText_data (t : Text) : Ink.tags (Ink.ofText .data t) = [] := by
  apply Ink.tags_eq_nil_of_left
  intro h
  obtain ⟨c, -, hc⟩ := List.mem_map.1 h
  cases hc

theorem Text.spansFit_lex (f : Kind → Option Text) (t : Text) :
    Text.SpansFit t 0
      (((Tag.lex t).filterMap fun tag => (f tag.kind).map fun r => (tag.span, r)).map
        Prod.fst) :=
  Ink.spansFit_filterMap (List.Sublist.refl _) (Ink.span_of_mem_map f)

theorem Loop.marks_fillFrom {body : Text} {pos : Nat} {fields : List (Span × Text)}
    (h : Text.SpansFit body pos (fields.map Prod.fst)) :
    (Loop.fillFrom body pos fields).flatMap Piece.marks =
      splicedFrom Ink.weight (Ink.ofText .template body) pos
        (fields.map fun e => (e.1, Ink.ofText .data e.2)) := by
  induction fields generalizing pos with
  | nil =>
      rw [Loop.fillFrom, List.flatMap_singleton, List.map_nil, splicedFrom, Ink.extent_ofText,
        ← Ink.ofText_slice .template h (Text.boundary_size body) h.le]
      rfl
  | cons e fields ih =>
      obtain ⟨s, value⟩ := e
      obtain ⟨hp, hs, hle, -, hrest⟩ := h
      rw [Loop.fillFrom, List.flatMap_cons, List.flatMap_cons, ih hrest, List.map_cons,
        splicedFrom, ← Ink.ofText_slice .template hp hs hle, List.append_assoc]
      rfl

/-- Filling a text is a rewriting of it. -/
theorem marks_fill (value : Text → Option Text) (t : Text) :
    (fill value t).flatMap Piece.marks =
      Ink.rewrite (fillingInk value) (Ink.ofText .template t) := by
  rw [fill, Loop.marks_fillFrom (Text.spansFit_lex (filling value) t), List.map_filterMap,
    Ink.rewrite, Ink.edits, Ink.tags_ofText_template]
  refine congrArg (splicedFrom Ink.weight _ 0) (List.filterMap_congr fun tag _ => ?_)
  rw [fillingInk, Option.map_map, Option.map_map]
  rfl

/-! ## Marked text -/

theorem Ink.parted_nil (p : Kind → Bool) (a : Ink) : Ink.Parted p a [] :=
  Ink.parted_of_right p a List.not_mem_nil

/-- Pieces are parted for all tags but links. -/
theorem Separate.parted {p : Kind → Bool} (hp : ∀ k, p k = true → k.isLink = false) {q : Piece}
    {ps : List Piece} (h : Separate (q :: ps)) :
    Ink.Parted p q.marks (ps.flatMap Piece.marks) := by
  cases hrest : ps.flatMap Piece.marks with
  | nil => exact Ink.parted_nil p _
  | cons d b =>
      have hne := Marked.origin_ne_of_flatMap_eq_cons h hrest
      rcases List.eq_nil_or_concat' q.text with hnil | ⟨t, c, ht⟩
      · exact absurd hnil h.head_ne_nil
      · rw [Piece.marks_eq_ofText, ht, Ink.ofText_append]
        exact Ink.parted_of_origin (c := (c, q.origin)) hp fun heq => hne heq.symm

namespace Marked

/-- Tags that are no links are rewritten piece by piece. -/
theorem rewrite_pieces {f : Kind → Option Ink} (hf : ∀ k, (f k).isSome = true → k.isLink = false)
    {ps : List Piece} (h : Separate ps) :
    Ink.rewrite f (ps.flatMap Piece.marks) = ps.flatMap fun p => Ink.rewrite f p.marks := by
  induction ps with
  | nil => rfl
  | cons p ps ih =>
      rw [List.flatMap_cons, List.flatMap_cons, Ink.rewrite_append (h.parted hf), ih h.tail]

/-- A piece with the values of its placeholders filled in. -/
def fillPiece (value : Text → Option Text) (p : Piece) : List Piece :=
  match p.origin with
  | .template => fill value p.text
  | .data => [p]

theorem marks_fillPiece (value : Text → Option Text) (p : Piece) :
    (fillPiece value p).flatMap Piece.marks = Ink.rewrite (fillingInk value) p.marks := by
  obtain ⟨o, t⟩ := p
  cases o with
  | template => exact marks_fill value t
  | data =>
      have hnone : ∀ tag ∈ Ink.tags (Ink.ofText .data t), fillingInk value tag.kind = none := by
        rw [Ink.tags_ofText_data]
        exact fun _ h => absurd h List.not_mem_nil
      rw [Piece.marks_eq_ofText, Ink.rewrite_eq_self hnone]
      exact List.append_nil _

theorem separate_fillValues (m : Marked) (context : Context) :
    Separate (m.fillValues context).pieces := separate_ofPieces _

/-- Filling in a context is a rewriting. -/
theorem marks_fillValues {m : Marked} (hm : Separate m.pieces) (context : Context) :
    (m.fillValues context).marks = Ink.rewrite (fillingInk context.value) m.marks := by
  have hedits : m.tags.filterMap (value? context) = m.tags.filterMap fun tag =>
      ((filling context.value tag.kind).map Piece.data).map (tag.span, ·) := by
    apply List.filterMap_congr
    intro tag _
    simp only [value?, filling]
    cases tag.kind with
    | value key => simp [Context.value, Function.comp_def]
    | _ => rfl
  rw [fillValues, hedits, marks_splice_tags hm fun k => (filling context.value k).map Piece.data]
  refine congrArg (Ink.rewrite · m.marks) (funext fun k => ?_)
  rw [fillingInk, Option.map_map]
  rfl

/-- **A context is filled in piece by piece.** -/
theorem fillValues_eq {m : Marked} (hm : Separate m.pieces) (context : Context) :
    m.fillValues context = ofPieces (m.pieces.flatMap (fillPiece context.value)) := by
  refine eq_of_marks (separate_fillValues m context) (separate_ofPieces _) ?_
  rw [marks_fillValues hm, marks_ofPieces, List.flatMap_assoc]
  rw [marks, rewrite_pieces (fun _ => isLink_of_fillingInk) hm]
  simp only [marks_fillPiece]

end Marked

end TagTemplate
