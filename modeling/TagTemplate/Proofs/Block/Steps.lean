import TagTemplate.Loop
import TagTemplate.Proofs.Block.Clean
import TagTemplate.Proofs.Conditional
import Mathlib.Data.List.Forall2

/-!
# Conditionals and loops of clean texts

What the conditionals of a clean text are resolved to, and what its loops are
expanded to, is known from the parts that the text is made of: `Settles` and
`Unrolls` hold of a text without marks, of a block around a body of which they
hold, and of two sealed texts one behind the other.
-/

namespace TagTemplate

open Tag (Kind Spells)

variable {policy : Policy} {context : Context} {a b t : Text}

namespace Conditional

/-- The conditionals of a clean text are resolved, and this is the result. -/
def Settles (policy : Policy) (context : Context) (t r : Text) : Prop :=
  ∃ bs edits, Block.Clean .conditional t bs ∧
    List.Forall₂ (fun b e => edit policy context t b = .ok e) bs edits ∧ r = Text.splice t edits

theorem Settles.resolve {r : Text} (h : Settles policy context t r) :
    Conditional.resolve policy context t = .ok r := by
  obtain ⟨bs, edits, hclean, hedits, rfl⟩ := h
  rw [resolve_eq, hclean.find]
  show (bs.mapM (edit policy context t)).map (Text.splice t) = _
  rw [Fallible.mapM_eq_ok_iff.2 hedits]
  rfl

theorem span_of_edit {x : Block} {e : Span × Text} (h : edit policy context t x = .ok e) :
    e.1 = x.span := by
  rw [edit] at h
  split at h
  · cases h
    rfl
  · cases hr : Conditional.resolve policy context (Text.slice t _) with
    | error e' =>
        rw [hr] at h
        cases h
    | ok r =>
        rw [hr] at h
        cases h
        rfl

/-- Each block is replaced where it stands. -/
theorem spans_of_edits {bs : List Block} {edits : List (Span × Text)}
    (h : List.Forall₂ (fun b e => edit policy context t b = .ok e) bs edits) :
    edits.map Prod.fst = bs.map Block.span := by
  induction h with
  | nil => rfl
  | cons he _ ih => rw [List.map_cons, List.map_cons, ih, span_of_edit he]

/-- The edits of the blocks of a clean text fit the text. -/
theorem fits_of_edits {bs : List Block} {edits : List (Span × Text)}
    (hclean : Block.Clean .conditional t bs)
    (h : List.Forall₂ (fun b e => edit policy context t b = .ok e) bs edits) :
    Text.SpansFit t 0 (edits.map Prod.fst) := by
  rw [spans_of_edits h]
  exact hclean.fits

/-- The part of a block that is taken is one of its parts. -/
theorem taken_cases {x : Block} {part : Span} (h : x.taken context = some part) :
    part = x.body ∨ part ∈ x.alternative := by
  rw [Block.taken] at h
  split at h
  · exact .inl (Option.some.inj h).symm
  · exact .inr h

theorem slice_taken {bs : List Block} (hclean : Block.Clean .conditional t bs) {x : Block}
    (hx : x ∈ bs) {part : Span} (h : x.taken context = some part) :
    ∃ m, Text.slice? t part = some m := by
  rcases taken_cases h with rfl | hpart
  · exact hclean.body x hx
  · exact hclean.alternative x hx part hpart

theorem edit_append_left {bs : List Block} (hclean : Block.Clean .conditional a bs) {x : Block}
    (hx : x ∈ bs) (b : Text) : edit policy context (a ++ b) x = edit policy context a x := by
  rw [edit, edit]
  cases h : x.taken context with
  | none => rfl
  | some part =>
      obtain ⟨m, hm⟩ := slice_taken hclean hx h
      simp only [Text.slice, hm, Text.slice?_append_left hm b]

theorem edit_append_right {bs : List Block} (hclean : Block.Clean .conditional b bs) {x : Block}
    (hx : x ∈ bs) {e : Span × Text} (he : edit policy context b x = .ok e) (a : Text) :
    edit policy context (a ++ b) (x.shift (Text.size a)) =
      .ok (e.1.shift (Text.size a), e.2) := by
  have htaken : (x.shift (Text.size a)).taken context =
      (x.taken context).map (·.shift (Text.size a)) := by
    rw [Block.taken, Block.taken]
    show (if context.isTruthy x.key then _ else _) = _
    split <;> rfl
  rw [edit] at he ⊢
  rw [htaken]
  cases h : x.taken context with
  | none =>
      rw [h] at he
      cases he
      rfl
  | some part =>
      obtain ⟨m, hm⟩ := slice_taken hclean hx h
      rw [h] at he
      simp only [Option.map_some, Text.slice, hm, Text.slice?_append_right hm a] at he ⊢
      cases hr : Conditional.resolve policy context m with
      | error e' =>
          simp only [Option.getD_some, hr] at he
          cases he
      | ok r =>
          simp only [Option.getD_some, hr] at he ⊢
          cases he
          rfl

theorem Settles.of_marks (h : Block.marks .conditional (Tag.lex t) = []) :
    Settles policy context t t :=
  ⟨[], [], Block.clean_of_marks h, .nil, (Text.splice_nil t).symm⟩

/-- The conditionals of two texts are resolved apart. -/
theorem Settles.append {ra rb : Text} (hs : Text.Sealed a) (ha : Settles policy context a ra)
    (hb : Settles policy context b rb) : Settles policy context (a ++ b) (ra ++ rb) := by
  obtain ⟨bs, edits, hclean, hedits, rfl⟩ := ha
  obtain ⟨bs', edits', hclean', hedits', rfl⟩ := hb
  refine ⟨_, edits ++ shiftEdits (Text.size a) edits', hclean.append hs hclean',
    List.rel_append ?_ ?_, ?_⟩
  · refine List.forall₂_iff_zip.2 ⟨hedits.length_eq, fun {x e} hmem => ?_⟩
    rw [edit_append_left hclean (List.of_mem_zip hmem).1]
    exact (List.forall₂_iff_zip.1 hedits).2 hmem
  · rw [shiftEdits, List.forall₂_map_left_iff, List.forall₂_map_right_iff]
    refine List.forall₂_iff_zip.2 ⟨hedits'.length_eq, fun {x e} hmem => ?_⟩
    exact edit_append_right hclean' (List.of_mem_zip hmem).1
      ((List.forall₂_iff_zip.1 hedits').2 hmem) a
  · exact (Text.splice_append (fits_of_edits hclean hedits) (fits_of_edits hclean' hedits')).symm

section

variable {k k' kd : Kind} {key opener closer divider body alternative r r' : Text}

theorem edit_of_none {x : Block} (h : x.taken context = none) :
    edit policy context t x = .ok (x.span, []) := by
  rw [edit, h]

theorem edit_of_some {x : Block} {part : Span} {m : Text} (h : x.taken context = some part)
    (hm : Text.slice? t part = some m) (hr : Conditional.resolve policy context m = .ok r) :
    edit policy context t x = .ok (x.span, r) := by
  rw [edit, h]
  show (Conditional.resolve policy context (Text.slice t part)).map _ = _
  rw [Text.slice, hm, Option.getD_some, hr]
  rfl

/-- A conditional is its body or nothing. -/
theorem Settles.whole (ho : Spells (.ifOpen key) opener) (hc : Spells .ifClose closer)
    (hs : Text.Sealed body) (hb : Settles policy context body r) :
    Settles policy context (opener ++ (body ++ closer))
      (if context.isTruthy key then r else []) := by
  have hres := hb.resolve
  obtain ⟨bs, -, hclean, -⟩ := hb
  have hwhole : Block.Clean .conditional _ _ := Block.clean_whole ho hc rfl rfl hs hclean
  obtain ⟨m, hm⟩ := hwhole.body _ List.mem_cons_self
  refine ⟨_, [(_, if context.isTruthy key then r else [])], hwhole, .cons ?_ .nil,
    (Text.splice_whole _ _).symm⟩
  by_cases h : context.isTruthy key = true
  · rw [if_pos h]
    exact edit_of_some (if_pos h) (Text.slice?_mid opener body closer) hres
  · rw [if_neg h]
    exact edit_of_none (if_neg h)

/-- A conditional with an alternative is its body or that. -/
theorem Settles.wholeElse (ho : Spells (.ifOpen key) opener) (hd : Spells .ifElse divider)
    (hc : Spells .ifClose closer) (hs : Text.Sealed body) (hs' : Text.Sealed alternative)
    (hb : Settles policy context body r) (ha : Settles policy context alternative r') :
    Settles policy context (opener ++ (body ++ (divider ++ (alternative ++ closer))))
      (if context.isTruthy key then r else r') := by
  have hres := hb.resolve
  have hres' := ha.resolve
  obtain ⟨bs, -, hclean, -⟩ := hb
  obtain ⟨bs', -, hclean', -⟩ := ha
  refine ⟨_, [(_, if context.isTruthy key then r else r')],
    Block.clean_wholeElse ho hd hc rfl rfl rfl hs hs' hclean hclean',
    .cons ?_ .nil, (Text.splice_whole _ _).symm⟩
  by_cases h : context.isTruthy key = true
  · rw [if_pos h]
    exact edit_of_some (if_pos h) (Text.slice?_mid opener body _) hres
  · rw [if_neg h]
    refine edit_of_some (if_neg h) ?_ hres'
    rw [← Text.size_append, ← Text.size_append]
    have hmid := Text.slice?_mid (opener ++ body ++ divider) alternative closer
    rwa [List.append_assoc, List.append_assoc] at hmid

end

end Conditional

/-! ## Loops -/

namespace Loop

/-- The loops of a clean text are expanded, and this is the result. -/
def Unrolls (context : Context) (t : Text) (w : Ink) : Prop :=
  ∃ bs, Block.Clean .loop t bs ∧ (expandFrom context t 0 bs).flatMap Piece.marks = w

theorem Unrolls.expand {w : Ink} (h : Unrolls context t w) (policy : Policy) :
    ∃ m, Loop.expand policy context t = .ok m ∧ Separate m.pieces ∧ m.marks = w := by
  obtain ⟨bs, hclean, rfl⟩ := h
  refine ⟨Marked.ofPieces (expandFrom context t 0 bs), ?_, Marked.separate_ofPieces _,
    Marked.marks_ofPieces _⟩
  rw [Loop.expand, hclean.find]
  rfl

/-- The copies that a block of a text stands for. -/
def copiesInk (context : Context) (t : Text) (x : Block) : Ink :=
  (copies (Text.slice t x.body) (context.rows x.key)).flatMap Piece.marks

theorem marks_expandFrom {pos : Nat} {bs : List Block}
    (h : Text.SpansFit t pos (bs.map Block.span)) :
    (expandFrom context t pos bs).flatMap Piece.marks =
      splicedFrom Ink.weight (Ink.ofText .template t) pos
        (bs.map fun x => (x.span, copiesInk context t x)) := by
  induction bs generalizing pos with
  | nil =>
      rw [expandFrom, List.flatMap_singleton, List.map_nil, splicedFrom, Ink.extent_ofText,
        ← Ink.ofText_slice .template h (Text.boundary_size t) (Text.Boundary.le h)]
      rfl
  | cons x bs ih =>
      obtain ⟨hp, hs, hle, -, hrest⟩ := h
      rw [expandFrom, List.flatMap_cons, List.flatMap_append, ih hrest, List.map_cons,
        splicedFrom, ← Ink.ofText_slice .template hp hs hle, List.append_assoc]
      rfl

theorem copiesInk_append_left {bs : List Block} (hclean : Block.Clean .loop a bs) {x : Block}
    (hx : x ∈ bs) (b : Text) : copiesInk context (a ++ b) x = copiesInk context a x := by
  obtain ⟨m, hm⟩ := hclean.body x hx
  rw [copiesInk, copiesInk, Text.slice, Text.slice, hm, Text.slice?_append_left hm b]

theorem copiesInk_append_right {bs : List Block} (hclean : Block.Clean .loop b bs) {x : Block}
    (hx : x ∈ bs) (a : Text) :
    copiesInk context (a ++ b) (x.shift (Text.size a)) = copiesInk context b x := by
  obtain ⟨m, hm⟩ := hclean.body x hx
  rw [copiesInk, copiesInk, Text.slice, Text.slice, hm]
  show (copies ((Text.slice? (a ++ b) (x.body.shift (Text.size a))).getD [])
    (context.rows x.key)).flatMap Piece.marks = _
  rw [Text.slice?_append_right hm a]

theorem Unrolls.of_marks (h : Block.marks .loop (Tag.lex t) = []) :
    Unrolls context t (Ink.ofText .template t) := by
  refine ⟨[], Block.clean_of_marks h, ?_⟩
  have hfits : Text.SpansFit t 0 (([] : List Block).map Block.span) := Text.boundary_zero t
  rw [marks_expandFrom hfits]
  exact spliced_nil Ink.weight_pos _

/-- The loops of two texts are expanded apart. -/
theorem Unrolls.append {v w : Ink} (hs : Text.Sealed a) (ha : Unrolls context a v)
    (hb : Unrolls context b w) : Unrolls context (a ++ b) (v ++ w) := by
  obtain ⟨bs, hclean, rfl⟩ := ha
  obtain ⟨bs', hclean', rfl⟩ := hb
  have hboth := hclean.append hs hclean'
  refine ⟨_, hboth, ?_⟩
  have hleft : bs.map (fun x => (x.span, copiesInk context (a ++ b) x)) =
      bs.map fun x => (x.span, copiesInk context a x) :=
    List.map_congr_left fun x hx => by rw [copiesInk_append_left hclean hx]
  have hright : (bs'.map (Block.shift (Text.size a))).map
      (fun x => (x.span, copiesInk context (a ++ b) x)) =
      shiftEdits (Text.size a) (bs'.map fun x => (x.span, copiesInk context b x)) := by
    rw [shiftEdits, List.map_map, List.map_map]
    apply List.map_congr_left
    intro x hx
    show (_, copiesInk context (a ++ b) (x.shift (Text.size a))) = (_, copiesInk context b x)
    rw [copiesInk_append_right hclean' hx]
    rfl
  have hwithin : SpansWithin (extent Ink.weight (Ink.ofText .template a)) 0
      ((bs.map fun x => (x.span, copiesInk context a x)).map Prod.fst) := by
    rw [Ink.extent_ofText, List.map_map]
    exact hclean.fits.within
  rw [marks_expandFrom hboth.fits, marks_expandFrom hclean.fits, marks_expandFrom hclean'.fits,
    List.map_append, hleft, hright, Ink.ofText_append]
  rw [← Ink.extent_ofText .template a]
  exact splicedFrom_append Ink.weight_pos hwithin

section

variable {key opener closer body : Text}

/-- A loop is a copy of its body for each row. -/
theorem Unrolls.whole {w : Ink} (ho : Spells (.loopOpen key) opener)
    (hc : Spells .loopClose closer) (hs : Text.Sealed body) (hb : Unrolls context body w) :
    Unrolls context (opener ++ (body ++ closer))
      ((copies body (context.rows key)).flatMap Piece.marks) := by
  obtain ⟨bs, hclean, -⟩ := hb
  have hwhole : Block.Clean .loop _ _ := Block.clean_whole ho hc rfl rfl hs hclean
  refine ⟨_, hwhole, ?_⟩
  rw [marks_expandFrom hwhole.fits, List.map_singleton]
  have hcopies : copiesInk context (opener ++ (body ++ closer))
      (Block.whole key opener body closer) =
      (copies body (context.rows key)).flatMap Piece.marks := by
    rw [copiesInk, Text.slice]
    show (copies ((Text.slice? _ ⟨Text.size opener, _⟩).getD []) _).flatMap _ = _
    rw [Text.slice?_mid, Option.getD_some]
    rfl
  rw [hcopies]
  show spliced _ _ [(⟨0, Text.size (opener ++ (body ++ closer))⟩, _)] = _
  rw [← Ink.extent_ofText .template (opener ++ (body ++ closer))]
  exact spliced_whole Ink.weight_pos _ _

end

end Loop

end TagTemplate
