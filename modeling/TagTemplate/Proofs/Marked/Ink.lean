import TagTemplate.Marked.Tag
import TagTemplate.Proofs.Marked.Canonical
import TagTemplate.Proofs.Tag.Lexing
import TagTemplate.Proofs.Text.Excerpt

/-!
# Marked text as marked characters

Pieces are one way to hold characters that know where they come from. `Ink` is
the plain list of these characters. Between two character boundaries every
operation on marked text is an operation on its ink: a range is template text
if its excerpt is, `splice` is `spliced`, and the tags that the template wrote
are those whose judged ranges are template text.
-/

namespace TagTemplate

/-- Characters, each with its origin. -/
abbrev Ink := List (Char × Origin)

namespace Ink

/-- The characters alone. -/
def text (w : Ink) : Text := w.map Prod.fst

/-- A text of one origin. -/
def ofText (o : Origin) (t : Text) : Ink := t.map (·, o)

/-- Number of bytes of a character. -/
def weight (c : Char × Origin) : Nat := c.1.utf8Size

/-- Whether there is no data. -/
def isTemplate (w : Ink) : Bool := w.all fun c => c.2 = .template

theorem weight_pos (c : Char × Origin) : 0 < weight c := c.1.utf8Size_pos

@[simp] theorem text_nil : text [] = [] := rfl

@[simp] theorem text_append (v w : Ink) : text (v ++ w) = text v ++ text w := List.map_append

@[simp] theorem text_ofText (o : Origin) (t : Text) : text (ofText o t) = t := by
  simp [text, ofText, Function.comp_def]

@[simp] theorem ofText_append (o : Origin) (s t : Text) :
    ofText o (s ++ t) = ofText o s ++ ofText o t := List.map_append

@[simp] theorem isTemplate_append (v w : Ink) :
    isTemplate (v ++ w) = (isTemplate v && isTemplate w) := List.all_append

theorem extent_eq_size (w : Ink) : extent weight w = Text.size w.text := by
  induction w with
  | nil => rfl
  | cons c w ih =>
      rw [extent_cons, ih]
      rfl

theorem excerpt_ofText (o : Origin) (offset : Nat) (s : Span) (t : Text) :
    excerpt weight offset s (ofText o t) = ofText o (excerpt Char.utf8Size offset s t) := by
  induction t generalizing offset with
  | nil => rfl
  | cons c t ih =>
      show (if _ then (c, o) :: excerpt weight (offset + c.utf8Size) s (ofText o t)
        else excerpt weight (offset + c.utf8Size) s (ofText o t)) = _
      rw [ih, excerpt]
      split <;> rfl

@[simp] theorem extent_ofText (o : Origin) (t : Text) :
    extent weight (ofText o t) = Text.size t := by
  rw [extent_eq_size, text_ofText]

/-- A part of a text between boundaries is the excerpt of its characters. -/
theorem ofText_slice (o : Origin) {t : Text} {i j : Nat} (hi : Text.Boundary t i)
    (hj : Text.Boundary t j) (hij : i ≤ j) :
    ofText o (Text.slice t ⟨i, j⟩) = excerpt weight 0 ⟨i, j⟩ (ofText o t) := by
  rw [Text.slice_eq_excerpt hi hj hij, excerpt_ofText]

theorem isTemplate_ofText_template (t : Text) : isTemplate (ofText .template t) = true := by
  simp [isTemplate, ofText]

theorem isTemplate_ofText_data (t : Text) : isTemplate (ofText .data t) = t.isEmpty := by
  cases t <;> simp [isTemplate, ofText]

end Ink

theorem Piece.marks_eq_ofText (p : Piece) : p.marks = Ink.ofText p.origin p.text := rfl

/-! ## Ranges of pieces -/

namespace Text

/-- A position cut back to the end of a text. -/
theorem boundary_clip_append {a b : Text} {n : Nat}
    (h : Boundary (a ++ b) (min n (size (a ++ b)))) :
    Boundary a (min n (size a)) ∧ Boundary b (min (n - size a) (size b)) := by
  obtain ⟨x, y, hxy, hx⟩ := h
  rw [size_append] at hx
  rcases List.append_eq_append_iff.1 hxy with ⟨u, rfl, rfl⟩ | ⟨u, rfl, rfl⟩
  · rw [size_append] at hx
    refine ⟨?_, u, y, rfl, by omega⟩
    rw [show min n (size a) = size a by omega]
    exact boundary_size a
  · rw [size_append] at hx ⊢
    refine ⟨⟨x, u, rfl, by omega⟩, ?_⟩
    rw [show min (n - (size x + size u)) (size b) = 0 by omega]
    exact boundary_zero b

theorem Boundary.clip {t : Text} {n : Nat} (h : Boundary t n) : Boundary t (min n (size t)) := by
  rw [show min n (size t) = n by have := h.le; omega]
  exact h

/-- The slice of a piece that a range of the whole text takes out, the piece beginning at byte
`offset`. -/
theorem slice_clip_eq_excerpt {t : Text} {offset i j : Nat}
    (hi : Boundary t (min (i - offset) (size t))) (hj : Boundary t (min (j - offset) (size t)))
    (hlt : max i offset - offset < min j (offset + size t) - offset) :
    slice t ⟨max i offset - offset, min j (offset + size t) - offset⟩ =
      excerpt Char.utf8Size offset ⟨i, j⟩ t := by
  have hi' : max i offset - offset = min (i - offset) (size t) := by omega
  have hj' : min j (offset + size t) - offset = min (j - offset) (size t) := by omega
  rw [hi', hj', slice_eq_excerpt hi hj (by omega), ← excerpt_shift 0 offset, Nat.zero_add]
  apply excerpt_congr Char.utf8Size_pos
  intro n hn hn'
  rw [extent_eq_size] at hn'
  omega

end Text

/-- A tag begins and ends between two characters. -/
theorem Tag.boundary_of_mem_lex {t : Text} {tag : Tag} (h : tag ∈ Tag.lex t) :
    Text.Boundary t tag.span.start ∧ Text.Boundary t tag.span.stop := by
  obtain ⟨a, w, b, rfl, -, hspan⟩ := Tag.mem_lex_iff.1 h
  rw [hspan]
  exact ⟨⟨a, w ++ b, by simp, rfl⟩, ⟨a ++ w, b, rfl, by simp⟩⟩

namespace Marked

theorem text_eq (m : Marked) : m.text = Ink.text m.marks := text_eq_map_marks m

/-- The parts of pieces in a range are the excerpt of their characters. -/
theorem marks_rangeFrom {offset i j : Nat} {ps : List Piece}
    (hi : Text.Boundary (ps.flatMap Piece.text)
      (min (i - offset) (Text.size (ps.flatMap Piece.text))))
    (hj : Text.Boundary (ps.flatMap Piece.text)
      (min (j - offset) (Text.size (ps.flatMap Piece.text)))) :
    (rangeFrom offset ⟨i, j⟩ ps).flatMap Piece.marks =
      excerpt Ink.weight offset ⟨i, j⟩ (ps.flatMap Piece.marks) := by
  induction ps generalizing offset with
  | nil => rfl
  | cons p ps ih =>
      rw [List.flatMap_cons] at hi hj
      obtain ⟨hip, hips⟩ := Text.boundary_clip_append hi
      obtain ⟨hjp, hjps⟩ := Text.boundary_clip_append hj
      rw [Nat.sub_sub] at hips hjps
      have hrest := ih hips hjps
      have hextent : extent Ink.weight p.marks = Text.size p.text := by
        rw [Piece.marks_eq_ofText, Ink.extent_ofText]
      rw [List.flatMap_cons, excerpt_append, hextent, ← hrest]
      simp only [rangeFrom]
      split
      next hlt =>
        rw [List.flatMap_cons, Piece.marks_eq_ofText p, Ink.excerpt_ofText,
          ← Text.slice_clip_eq_excerpt hip hjp hlt]
        rfl
      next hge =>
        have hnil : excerpt Ink.weight offset ⟨i, j⟩ p.marks = [] := by
          have hempty : excerpt Ink.weight offset ⟨i, j⟩ p.marks =
              excerpt Ink.weight offset ⟨0, 0⟩ p.marks :=
            excerpt_congr Ink.weight_pos fun n hn hn' => by omega
          rw [hempty, excerpt_eq_nil_of_ge (Nat.zero_le _)]
        rw [hnil, List.nil_append]

theorem marks_splicedFrom {m : Marked} {pos : Nat} {edits : List (Span × Piece)}
    (hpos : Text.Boundary m.text pos)
    (h : ∀ e ∈ edits, Text.Boundary m.text e.1.start ∧ Text.Boundary m.text e.1.stop) :
    (m.splicedFrom pos edits).flatMap Piece.marks =
      TagTemplate.splicedFrom Ink.weight m.marks pos (edits.map fun e => (e.1, e.2.marks)) := by
  have hrange : ∀ {i j : Nat}, Text.Boundary m.text i → Text.Boundary m.text j →
      (rangeFrom 0 ⟨i, j⟩ m.pieces).flatMap Piece.marks =
        excerpt Ink.weight 0 ⟨i, j⟩ m.marks := by
    intro i j hi hj
    refine marks_rangeFrom ?_ ?_
    · exact hi.clip
    · exact hj.clip
  induction edits generalizing pos with
  | nil =>
      show (rangeFrom 0 ⟨pos, m.size⟩ m.pieces).flatMap Piece.marks = excerpt Ink.weight 0
        ⟨pos, extent Ink.weight m.marks⟩ m.marks
      rw [Ink.extent_eq_size, ← text_eq]
      exact hrange hpos (Text.boundary_size m.text)
  | cons e edits ih =>
      obtain ⟨s, p⟩ := e
      obtain ⟨hs, hs'⟩ := h (s, p) (by simp)
      show (rangeFrom 0 ⟨pos, s.start⟩ m.pieces ++ p :: splicedFrom m s.stop edits).flatMap
        Piece.marks = _
      rw [List.flatMap_append, List.flatMap_cons, hrange hpos hs,
        ih hs' fun e he => h e (by simp [he])]
      simp only [List.map_cons, TagTemplate.splicedFrom, List.append_assoc]

/-- Splicing pieces is splicing their characters. -/
theorem marks_splice {m : Marked} {edits : List (Span × Piece)}
    (h : ∀ e ∈ edits, Text.Boundary m.text e.1.start ∧ Text.Boundary m.text e.1.stop) :
    (m.splice edits).marks = spliced Ink.weight m.marks (edits.map fun e => (e.1, e.2.marks)) := by
  rw [splice, marks_ofPieces]
  exact marks_splicedFrom (Text.boundary_zero m.text) h

/-- A piece holds no data of a range exactly if the characters in the range are template text. -/
theorem not_overlaps_data_iff {p : Piece} {offset i j : Nat} (hp : p.text ≠ [])
    (hi : Text.Boundary p.text (min (i - offset) (Text.size p.text))) (hij : i < j) :
    (!(p.origin = .data && Span.overlaps ⟨offset, offset + Text.size p.text⟩ ⟨i, j⟩)) =
      Ink.isTemplate (excerpt Ink.weight offset ⟨i, j⟩ p.marks) := by
  obtain ⟨o, t⟩ := p
  rw [Piece.marks_eq_ofText, Ink.excerpt_ofText]
  cases o with
  | template => rw [Ink.isTemplate_ofText_template]; rfl
  | data =>
      rw [Ink.isTemplate_ofText_data]
      by_cases hover : offset < j ∧ i < offset + Text.size t
      · -- the range begins in the piece or before it, so it holds a first character
        have hmin : min (i - offset) (Text.size t) = i - offset := by omega
        rw [hmin] at hi
        obtain ⟨a, b, rfl, ha⟩ := hi
        have hoverlaps : Span.overlaps ⟨offset, offset + Text.size (a ++ b)⟩ ⟨i, j⟩ = true := by
          simpa [Span.overlaps] using hover
        rw [Text.size_append] at hover
        cases b with
        | nil =>
            rw [Text.size_nil] at hover
            have hempty : a = [] := Text.size_eq_zero_iff.1 (by omega)
            exact absurd (by simp [hempty]) hp
        | cons c b =>
            have hkept : i ≤ offset + extent Char.utf8Size a ∧
                offset + extent Char.utf8Size a < j := by
              rw [Text.extent_eq_size]
              omega
            rw [excerpt_append, excerpt, if_pos hkept, hoverlaps]
            simp
      · have hnil : excerpt Char.utf8Size offset ⟨i, j⟩ t = [] := by
          rcases Nat.lt_or_ge offset j with hlt | hge
          · exact excerpt_eq_nil_of_le Char.utf8Size_pos (by rw [Text.extent_eq_size]; omega)
          · exact excerpt_eq_nil_of_ge hge
        rw [hnil]
        simp only [Span.overlaps]
        simp
        omega

theorem isTemplateFrom_eq {offset i j : Nat} {ps : List Piece} (hps : ∀ p ∈ ps, p.text ≠ [])
    (hi : Text.Boundary (ps.flatMap Piece.text)
      (min (i - offset) (Text.size (ps.flatMap Piece.text)))) (hij : i < j) :
    isTemplateFrom offset ⟨i, j⟩ ps =
      Ink.isTemplate (excerpt Ink.weight offset ⟨i, j⟩ (ps.flatMap Piece.marks)) := by
  induction ps generalizing offset with
  | nil => rfl
  | cons p ps ih =>
      rw [List.flatMap_cons] at hi
      obtain ⟨hip, hips⟩ := Text.boundary_clip_append hi
      rw [Nat.sub_sub] at hips
      have hextent : extent Ink.weight p.marks = Text.size p.text := by
        rw [Piece.marks_eq_ofText, Ink.extent_ofText]
      rw [List.flatMap_cons, excerpt_append, hextent, Ink.isTemplate_append,
        ← ih (fun q hq => hps q (by simp [hq])) hips,
        ← not_overlaps_data_iff (hps p (by simp)) hip hij]
      rfl

theorem isTemplate_eq {m : Marked} {i j : Nat} (hm : Separate m.pieces)
    (hi : Text.Boundary m.text i) (hij : i < j) :
    m.isTemplate ⟨i, j⟩ = Ink.isTemplate (excerpt Ink.weight 0 ⟨i, j⟩ m.marks) :=
  isTemplateFrom_eq (fun _ hp => hm.ne_nil hp) hi.clip hij

end Marked

end TagTemplate
