import TagTemplate.Text.Basic

/-!
# Marked text

Once context data is inserted, text has to say which part of it the template
wrote: a value that looks like a tag is not one. Marked text is a list of
pieces, each template text or data. `push` drops empty pieces and joins equal
neighbours, so that one way of marking a text has one list of pieces.
-/

namespace TagTemplate

/-- Where a piece of text comes from. -/
inductive Origin where
  | template
  | data
  deriving DecidableEq, Repr

/-- Text of one origin. -/
structure Piece where
  origin : Origin
  text : Text
  deriving DecidableEq, Repr

namespace Piece

/-- A piece of template text. -/
def template (t : Text) : Piece := ⟨.template, t⟩

/-- A piece of data. -/
def data (t : Text) : Piece := ⟨.data, t⟩

/-- The characters of a piece, each with its origin. -/
def marks (p : Piece) : List (Char × Origin) := p.text.map (·, p.origin)

end Piece

/-- Text with the origin of each of its parts. -/
structure Marked where
  pieces : List Piece
  deriving DecidableEq, Repr

namespace Marked

/-- No text. -/
def empty : Marked := ⟨[]⟩

/-- The pieces with one more at the end. -/
def append (p : Piece) : List Piece → List Piece
  | [] => if p.text.isEmpty then [] else [p]
  | [q] =>
    if p.text.isEmpty then [q]
    else if q.origin = p.origin then [⟨q.origin, q.text ++ p.text⟩]
    else [q, p]
  | q :: r :: ps => q :: append p (r :: ps)

/-- The text with one more piece. -/
def push (m : Marked) (p : Piece) : Marked := ⟨append p m.pieces⟩

/-- The text of some pieces. -/
def ofPieces (ps : List Piece) : Marked := ps.foldl push empty

/-- Template text alone. -/
def ofTemplate (t : Text) : Marked := ofPieces [.template t]

/-- The text without its marks. -/
def text (m : Marked) : Text := m.pieces.flatMap Piece.text

/-- Number of bytes. -/
def size (m : Marked) : Nat := Text.size m.text

/-- Whether there is no text. -/
def isEmpty (m : Marked) : Bool := m.pieces.isEmpty

/-- The characters of a text, each with its origin. -/
def marks (m : Marked) : List (Char × Origin) := m.pieces.flatMap Piece.marks

/-- Whether a range has no byte of data, the first piece starting at byte `offset`. -/
def isTemplateFrom (offset : Nat) (s : Span) : List Piece → Bool
  | [] => true
  | p :: ps =>
    let stop := offset + Text.size p.text
    !(p.origin = .data && Span.overlaps ⟨offset, stop⟩ s) && isTemplateFrom stop s ps

/-- Whether a range has no byte of data. -/
def isTemplate (m : Marked) (s : Span) : Bool := isTemplateFrom 0 s m.pieces

/-- The parts of the pieces that lie in a range, the first piece starting at byte `offset`. -/
def rangeFrom (offset : Nat) (s : Span) : List Piece → List Piece
  | [] => []
  | p :: ps =>
    let stop := offset + Text.size p.text
    let part : Span := ⟨max s.start offset - offset, min s.stop stop - offset⟩
    if part.start < part.stop then
      ⟨p.origin, Text.slice p.text part⟩ :: rangeFrom stop s ps
    else rangeFrom stop s ps

/-- The pieces from byte `pos` on with each range replaced. -/
def splicedFrom (m : Marked) (pos : Nat) : List (Span × Piece) → List Piece
  | [] => rangeFrom 0 ⟨pos, m.size⟩ m.pieces
  | (s, p) :: edits => rangeFrom 0 ⟨pos, s.start⟩ m.pieces ++ p :: splicedFrom m s.stop edits

/-- The text with each range replaced. The ranges come in order and do not overlap. -/
def splice (m : Marked) (edits : List (Span × Piece)) : Marked := ofPieces (m.splicedFrom 0 edits)

theorem flatMap_marks_append (p : Piece) (ps : List Piece) :
    (append p ps).flatMap Piece.marks = ps.flatMap Piece.marks ++ p.marks := by
  fun_induction append p ps with
  | case1 h => simp_all [Piece.marks]
  | case2 h => simp
  | case3 q h => simp_all [Piece.marks]
  | case4 q h hq => simp [Piece.marks, hq]
  | case5 q h hq => simp
  | case6 q r ps ih => simp_all

/-- Pushing a piece appends its characters with their origin. -/
@[simp] theorem marks_push (m : Marked) (p : Piece) : (m.push p).marks = m.marks ++ p.marks :=
  flatMap_marks_append p m.pieces

end Marked

end TagTemplate
