import TagTemplate.Proofs.Marked.Filling

/-!
# The tags of the pieces

A tag that is no link is found in a marked text exactly if it is found in one of
its template pieces, read alone: data next to the piece takes no part. `own`
lists these tags with the piece that each is in, and `filter_tags_eq_own` says
that the marked text has no others.
-/

namespace TagTemplate.Marked

open Tag (Kind)

/-- Tags that are no links. -/
def apart (k : Kind) : Bool := !k.isLink

/-- The tags of a template piece that are no links. -/
def pieceTags (p : Piece) : List Tag :=
  match p.origin with
  | .template => (Tag.lex p.text).filter fun tag => apart tag.kind
  | .data => []

/-- The tags of template pieces that are no links, each with the index of its piece. -/
def own : List Piece → List (Nat × Tag)
  | [] => []
  | p :: ps => (pieceTags p).map (0, ·) ++ (own ps).map fun (i, tag) => (i + 1, tag)

/-- The byte at which a piece begins. -/
def offset : List Piece → Nat → Nat
  | p :: ps, i + 1 => Text.size p.text + offset ps i
  | _, _ => 0

/-- A tag of a piece in its place in the whole text. -/
def place (m : Marked) (t : Nat × Tag) : Tag := t.2.shift (offset m.pieces t.1)

/-- Each of these tags is in the template piece that is given for it. -/
theorem mem_own {ps : List Piece} {i : Nat} {tag : Tag} :
    (i, tag) ∈ own ps ↔
      ∃ t, ps[i]? = some (.template t) ∧ tag ∈ Tag.lex t ∧ tag.kind.isLink = false := by
  induction ps generalizing i with
  | nil => simp [own]
  | cons p ps ih =>
      obtain ⟨o, t⟩ := p
      rw [own, List.mem_append, List.mem_map, List.mem_map]
      constructor
      · intro hor
        rcases hor with ⟨tag', h, heq⟩ | ⟨⟨j, tag'⟩, h, heq⟩
        · obtain ⟨rfl, rfl⟩ := Prod.mk.inj heq
          cases o with
          | template =>
              obtain ⟨hmem, hlink⟩ := List.mem_filter.1 h
              exact ⟨t, rfl, hmem, by simpa [apart] using hlink⟩
          | data => cases h
        · obtain ⟨rfl, rfl⟩ := Prod.mk.inj heq
          exact ih.1 h
      · intro hex
        obtain ⟨u, hu, hmem, hlink⟩ := hex
        cases i with
        | zero =>
            left
            cases hu
            exact ⟨tag, List.mem_filter.2 ⟨hmem, by simp [apart, hlink]⟩, rfl⟩
        | succ i => exact .inr ⟨(i, tag), ih.2 ⟨u, hu, hmem, hlink⟩, rfl⟩

theorem filter_tags_piece (p : Piece) :
    (Ink.tags p.marks).filter (fun tag => apart tag.kind) = pieceTags p := by
  obtain ⟨o, t⟩ := p
  rw [Piece.marks_eq_ofText]
  cases o with
  | template => rw [Ink.tags_ofText_template]; rfl
  | data => rw [Ink.tags_ofText_data]; rfl

theorem filter_tags_pieces {ps : List Piece} (h : Separate ps) :
    (Ink.tags (ps.flatMap Piece.marks)).filter (fun tag => apart tag.kind) =
      (own ps).map fun t => t.2.shift (offset ps t.1) := by
  induction ps with
  | nil => rfl
  | cons p ps ih =>
      have hparted : Ink.Parted apart p.marks (ps.flatMap Piece.marks) :=
        h.parted fun k hk => by simpa [apart] using hk
      have hsize : Text.size (Ink.text p.marks) = Text.size p.text := by
        rw [Piece.marks_eq_ofText, Ink.text_ofText]
      rw [List.flatMap_cons, Ink.filter_tags_append hparted, filter_tags_piece, ih h.tail, hsize,
        own, List.map_append, List.map_map, List.map_map, List.map_map]
      congr 1
      · refine (List.map_id _).symm.trans (List.map_congr_left fun tag _ => ?_)
        rfl
      · apply List.map_congr_left
        intro t _
        show Tag.shift (Tag.shift t.2 (offset ps t.1)) (Text.size p.text) =
          Tag.shift t.2 (Text.size p.text + offset ps t.1)
        simp only [Tag.shift, Span.shift, Nat.add_comm (Text.size p.text), Nat.add_assoc]

/-- **The tags of a marked text** that are no links are those of its template pieces. -/
theorem filter_tags_eq_own {m : Marked} (hm : Separate m.pieces) :
    (m.tags.filter fun tag => !tag.kind.isLink) = (own m.pieces).map m.place := by
  rw [tags_eq hm]
  exact filter_tags_pieces hm

end TagTemplate.Marked
