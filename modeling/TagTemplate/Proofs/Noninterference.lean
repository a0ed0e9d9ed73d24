import TagTemplate.Render
import TagTemplate.Proofs.Conditional
import TagTemplate.Proofs.Context.Shape
import TagTemplate.Proofs.Marked.Matched
import TagTemplate.Proofs.Marked.Own

/-!
# Data does not reach the tags

Rendering a text with two contexts of the same shape goes the same way up to the
point where the context has been filled in: both fail alike, or give marked
texts whose pieces correspond. Corresponding pieces are the same template text,
or data in both. Since the tags of a marked text are those of its template
pieces, whatever the data says it makes no tag, breaks none and changes none.
-/

namespace TagTemplate

/-! ## Pieces that correspond -/

/-- The same template text, or data in both places. -/
inductive Piece.Alike : Piece → Piece → Prop where
  | template (t : Text) : Alike (.template t) (.template t)
  | data {t t' : Text} (h : Text.Alike t t') : Alike (.data t) (.data t')

/-- Pieces that correspond one by one. -/
abbrev PiecesAlike := List.Forall₂ Piece.Alike

namespace Piece.Alike

variable {p q : Piece}

theorem origin_eq (h : Alike p q) : p.origin = q.origin := by
  cases h <;> rfl

theorem text_alike (h : Alike p q) : Text.Alike p.text q.text := by
  cases h with
  | template t => exact Iff.rfl
  | data h => exact h

/-- Pieces of one origin joined. -/
theorem join {p' q' : Piece} (h : Alike p q) (h' : Alike p' q') (ho : p.origin = p'.origin) :
    Alike ⟨p.origin, p.text ++ p'.text⟩ ⟨q.origin, q.text ++ q'.text⟩ := by
  cases h with
  | template t =>
      cases h' with
      | template t' => exact .template (t ++ t')
      | data _ => cases ho
  | data h =>
      cases h' with
      | template _ => cases ho
      | data h' =>
          refine .data ?_
          rw [Text.Alike, List.append_eq_nil_iff, List.append_eq_nil_iff]
          exact and_congr h h'

end Piece.Alike

namespace Marked

theorem alike_append {p q : Piece} {ps qs : List Piece} (h : p.Alike q)
    (hs : PiecesAlike ps qs) : PiecesAlike (append p ps) (append q qs) := by
  induction hs with
  | nil =>
      simp only [append, List.isEmpty_iff, show p.text = [] ↔ q.text = [] from h.text_alike]
      split
      · exact .nil
      · exact .cons h .nil
  | @cons r s rs ss hr hrs ih =>
      cases hrs with
      | nil =>
          simp only [append, List.isEmpty_iff, show p.text = [] ↔ q.text = [] from h.text_alike,
            ← h.origin_eq, ← hr.origin_eq]
          split
          · exact .cons hr .nil
          · split
            next ho =>
              have hjoin := hr.join h ho
              rw [← hr.origin_eq] at hjoin
              exact .cons hjoin .nil
            · exact .cons hr (.cons h .nil)
      | cons hr' hrs' => exact .cons hr ih

theorem alike_foldl_push {m m' : Marked} {ps qs : List Piece} (hm : PiecesAlike m.pieces m'.pieces)
    (h : PiecesAlike ps qs) :
    PiecesAlike (ps.foldl push m).pieces (qs.foldl push m').pieces := by
  induction h generalizing m m' with
  | nil => exact hm
  | cons hp _ ih => exact ih (alike_append hp hm)

/-- What is built of pieces that correspond has pieces that correspond. -/
theorem alike_ofPieces {ps qs : List Piece} (h : PiecesAlike ps qs) :
    PiecesAlike (ofPieces ps).pieces (ofPieces qs).pieces := by
  have hempty : PiecesAlike empty.pieces empty.pieces := .nil
  exact alike_foldl_push hempty h

end Marked

/-! ## The steps -/

theorem Piece.Matched.alike {p q : Piece} (h : p.Matched Text.Alike q) : p.Alike q := by
  cases h with
  | template t => exact .template t
  | data h => exact .data h

theorem PiecesMatched.alike {ps qs : List Piece} (h : PiecesMatched Text.Alike ps qs) :
    PiecesAlike ps qs :=
  h.imp fun _ _ => Piece.Matched.alike

theorem Marked.alike_fillPiece {value value' : Text → Option Text}
    (h : ∀ key, Option.Rel Text.Alike (value key) (value' key)) {p q : Piece} (hp : p.Alike q) :
    PiecesAlike (Marked.fillPiece value p) (Marked.fillPiece value' q) := by
  cases hp with
  | template t => exact (matched_fill h t).alike
  | data ht => exact .cons (.data ht) .nil

variable {c c' : Context}

theorem Loop.alike_expandFrom (h : c.SameShape c') (text : Text) (pos : Nat)
    (blocks : List Block) :
    PiecesAlike (Loop.expandFrom c text pos blocks) (Loop.expandFrom c' text pos blocks) :=
  (Loop.matched_expandFrom h.matched text pos blocks).alike

theorem Marked.alike_fillValues (h : c.SameShape c') {m m' : Marked} (hm : Separate m.pieces)
    (hm' : Separate m'.pieces) (hp : PiecesAlike m.pieces m'.pieces) :
    PiecesAlike (m.fillValues c).pieces (m'.fillValues c').pieces := by
  rw [Marked.fillValues_eq hm, Marked.fillValues_eq hm']
  exact Marked.alike_ofPieces (List.rel_flatMap hp fun _ _ =>
    Marked.alike_fillPiece h.matched.value)

theorem Marked.own_eq_of_alike {ps qs : List Piece} (h : PiecesAlike ps qs) :
    Marked.own ps = Marked.own qs := by
  induction h with
  | nil => rfl
  | @cons p q ps qs hp _ ih =>
      have hpiece : Marked.pieceTags p = Marked.pieceTags q := by
        cases hp <;> rfl
      rw [Marked.own, Marked.own, hpiece, ih]

/-! ## Filling in a context -/

/-- The steps of a render that use the context. -/
def insertContext (policy : Policy) (context : Context) (text : Text) : Except Error Marked :=
  (Conditional.resolve policy context text).bind fun text =>
    (Loop.expand policy context text).map (Marked.fillValues context)

/-- The steps of a render that use the context are followed by those that write the links and
remove the tags. -/
theorem Renderer.finish_eq (r : Renderer) (context : Context) (text : Text) :
    r.finish context text =
      (insertContext r.rules.policy context text).bind fun m =>
        (m.writeLinks r.rules.policy r.prettyLinks).map fun m => Text.trim m.clean := by
  rw [Renderer.finish, insertContext]
  cases Conditional.resolve r.rules.policy context text with
  | error e => rfl
  | ok text =>
      show (Loop.expand r.rules.policy context text).bind _ =
        ((Loop.expand r.rules.policy context text).map _).bind _
      cases Loop.expand r.rules.policy context text with
      | error e => rfl
      | ok m => rfl

/-- Data does not decide about tags. With contexts of the same shape the steps that use the
context fail alike, or give marked texts whose pieces correspond; the tags that are no links are
then the same tags of the same template pieces in both. -/
theorem insertContext_noninterference (h : c.SameShape c') (policy : Policy) (text : Text) :
    (∃ e, insertContext policy c text = .error e ∧ insertContext policy c' text = .error e) ∨
      ∃ m m', insertContext policy c text = .ok m ∧ insertContext policy c' text = .ok m' ∧
        PiecesAlike m.pieces m'.pieces ∧
        Marked.own m.pieces = Marked.own m'.pieces ∧
        (m.tags.filter fun tag => !tag.kind.isLink) = (Marked.own m.pieces).map m.place ∧
        (m'.tags.filter fun tag => !tag.kind.isLink) = (Marked.own m'.pieces).map m'.place := by
  rw [insertContext, insertContext, Conditional.resolve_congr h.isTruthy_eq]
  cases Conditional.resolve policy c' text with
  | error e => exact .inl ⟨e, rfl, rfl⟩
  | ok text =>
      simp only [Except.bind, Loop.expand]
      cases Block.find .loop policy text with
      | error e => exact .inl ⟨e, rfl, rfl⟩
      | ok blocks =>
          have hloops := Marked.alike_ofPieces (Loop.alike_expandFrom h text 0 blocks)
          have hpieces := Marked.alike_fillValues h (Marked.separate_ofPieces _)
            (Marked.separate_ofPieces _) hloops
          refine .inr ⟨_, _, rfl, rfl, hpieces, Marked.own_eq_of_alike hpieces, ?_, ?_⟩
          · exact Marked.filter_tags_eq_own (Marked.separate_fillValues _ _)
          · exact Marked.filter_tags_eq_own (Marked.separate_fillValues _ _)

/-- A name that is the start of a tag, and a harmless one, before a placeholder that stays. -/
theorem insertContext_noninterference_of_brace :
    let braced := Context.single "name".toList (.text "\x7b\x7bage\x7d".toList)
    let plain := Context.single "name".toList (.text "Ann".toList)
    let text := "\x7b\x7bname\x7d\x7d\x7d\x7b\x7bage\x7d\x7d".toList
    braced.SameShape plain ∧ ∃ m m', insertContext .strict braced text = .ok m ∧
      insertContext .strict plain text = .ok m' ∧ Marked.own m.pieces = Marked.own m'.pieces := by
  intro braced plain text
  have hshape : braced.SameShape plain := Context.sameShape_single _ (by decide) (by decide)
  refine ⟨hshape, ?_⟩
  rcases insertContext_noninterference hshape .strict text with
    ⟨e, he, -⟩ | ⟨m, m', h, h', -, hown, -⟩
  · have hfind : Block.find .conditional .strict text = .ok [] := by decide
    have hresolve : Conditional.resolve .strict braced text = .ok text := by
      rw [Conditional.resolve_eq, hfind]
      rfl
    rw [insertContext, hresolve] at he
    cases he
  · exact ⟨m, m', h, h', hown⟩

end TagTemplate
