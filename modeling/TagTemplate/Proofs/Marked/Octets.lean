import TagTemplate.Proofs.Marked.Stretches
import TagTemplate.Proofs.Text.Utf8

/-!
# Marked text as marked bytes

The bytes of a marked text, each with the origin of its character, determine it
among all that is built by pushing and splicing. Every operation is what it is
on these bytes: a push appends bytes, a splice exchanges ranges of them and
leaves the others as they are, and a range is template text if none of its bytes
is data: `Built.canonical`.
-/

namespace TagTemplate

variable {α : Type}

/-- The list from position `pos` on with each range of positions replaced. -/
def replacedFrom (l : List α) (pos : Nat) : List (Span × List α) → List α
  | [] => l.drop pos
  | (s, r) :: edits => l.extract pos s.start ++ r ++ replacedFrom l s.stop edits

/-- The list with each range of positions replaced. -/
def replaced (l : List α) (edits : List (Span × List α)) : List α := replacedFrom l 0 edits

/-- The bytes of a piece, each with its origin. -/
def Piece.octets (p : Piece) : List (UInt8 × Origin) := (Text.bytes p.text).map (·, p.origin)

theorem Piece.length_octets (p : Piece) : p.octets.length = Text.size p.text := by
  rw [octets, List.length_map, Text.length_bytes]

/-- The bytes of a marked text, each with its origin. -/
def Marked.octets (m : Marked) : List (UInt8 × Origin) := m.pieces.flatMap Piece.octets

namespace Ink

/-- The bytes of an ink, each with the origin of its character. -/
def octets (w : Ink) : List (UInt8 × Origin) :=
  w.flatMap fun c => (String.utf8EncodeChar c.1).map (·, c.2)

@[simp] theorem octets_append (v w : Ink) : octets (v ++ w) = octets v ++ octets w :=
  List.flatMap_append

theorem octets_ofText (o : Origin) (t : Text) :
    octets (ofText o t) = (Text.bytes t).map (·, o) := by
  rw [octets, ofText, List.flatMap_map, Text.bytes, List.map_flatMap]

theorem map_fst_octets (w : Ink) : (octets w).map Prod.fst = Text.bytes w.text := by
  rw [octets, text, Text.bytes, List.map_flatMap, List.flatMap_map]
  simp [Function.comp_def]

theorem length_octets (w : Ink) : (octets w).length = Text.size w.text := by
  rw [← Text.length_bytes, ← map_fst_octets, List.length_map]

/-- The characters of an ink and their origins can be read off its bytes. -/
theorem eq_of_octets {v w : Ink} (h : octets v = octets w) : v = w := by
  have htext : v.text = w.text := by
    apply Text.bytes_injective
    rw [← map_fst_octets, h, map_fst_octets]
  induction v generalizing w with
  | nil => exact (List.map_eq_nil_iff.1 htext.symm).symm
  | cons c v ih =>
      obtain ⟨c, o⟩ := c
      obtain ⟨d, w, rfl, hd, hw⟩ := List.map_eq_cons_iff.1 htext.symm
      obtain ⟨d, o'⟩ := d
      obtain rfl : d = c := hd
      obtain ⟨b, bs, hbytes, -⟩ := Text.exists_utf8EncodeChar d
      rw [octets, octets, List.flatMap_cons, List.flatMap_cons] at h
      obtain ⟨hhead, htail⟩ := List.append_inj h (by rw [List.length_map, List.length_map])
      rw [hbytes] at hhead
      obtain rfl : o = o' := (Prod.mk.inj (List.cons.inj hhead).1).2
      rw [ih htail hw.symm]

/-- An excerpt between two characters is a range of bytes. -/
theorem octets_excerpt {w : Ink} {i j : Nat} (hi : Text.Boundary w.text i)
    (hj : Text.Boundary w.text j) (hij : i ≤ j) :
    octets (excerpt weight 0 ⟨i, j⟩ w) = (octets w).extract i j := by
  obtain ⟨a, b, hw, ha, hm⟩ := exists_split hi hj hij
  generalize excerpt weight 0 ⟨i, j⟩ w = m at hw hm
  subst hw
  rw [← length_octets] at ha
  rw [← length_octets, ← length_octets] at hm
  rw [octets_append, octets_append, List.append_assoc, List.extract_eq_take_drop, ← ha,
    List.drop_left, ← hm, Nat.add_sub_cancel_left, List.take_left]

theorem octets_splicedFrom {w : Ink} {pos : Nat} {edits : List (Span × Ink)}
    (h : Text.SpansFit w.text pos (edits.map Prod.fst)) :
    octets (splicedFrom weight w pos edits) =
      replacedFrom (octets w) pos (edits.map fun e => (e.1, octets e.2)) := by
  induction edits generalizing pos with
  | nil =>
      have hpos : Text.Boundary w.text pos := h
      rw [splicedFrom, extent_eq_size, octets_excerpt hpos (Text.boundary_size _) hpos.le,
        List.map_nil, replacedFrom, List.extract_eq_take_drop, ← length_octets, ← List.length_drop,
        List.take_length]
  | cons e edits ih =>
      obtain ⟨s, r⟩ := e
      obtain ⟨hpos, hstart, hle, -, hrest⟩ := h
      rw [splicedFrom, octets_append, octets_append, octets_excerpt hpos hstart hle, ih hrest,
        List.map_cons, replacedFrom]

end Ink

namespace Marked

theorem octets_eq (m : Marked) : m.octets = Ink.octets m.marks := by
  rw [octets, marks, Ink.octets, List.flatMap_assoc]
  exact List.flatMap_congr fun p _ => (Ink.octets_ofText p.origin p.text).symm

/-! ## Template ranges -/

theorem extract_append (l l' : List α) (i j : Nat) :
    (l ++ l').extract i j = l.extract i j ++ l'.extract (i - l.length) (j - l.length) := by
  simp only [List.extract_eq_take_drop, List.drop_append, List.take_append, List.length_drop]
  congr 2
  omega

theorem extract_eq_nil_iff {l : List α} {i j : Nat} :
    l.extract i j = [] ↔ j ≤ i ∨ l.length ≤ i := by
  rw [List.extract_eq_take_drop, List.take_eq_nil_iff, List.drop_eq_nil_iff]
  omega

/-- A piece holds no data of a range exactly if none of its bytes in the range is data. -/
theorem not_overlaps_eq_all {p : Piece} {offset : Nat} {s : Span} (hp : p.text ≠ [])
    (hs : s.start < s.stop) :
    (!(p.origin = .data && Span.overlaps ⟨offset, offset + Text.size p.text⟩ s)) =
      (p.octets.extract (s.start - offset) (s.stop - offset)).all (·.2 ≠ .data) := by
  have hmem : ∀ b ∈ p.octets.extract (s.start - offset) (s.stop - offset), b.2 = p.origin := by
    intro b hb
    rw [List.extract_eq_take_drop] at hb
    obtain ⟨byte, -, rfl⟩ := List.mem_map.1 (List.mem_of_mem_drop (List.mem_of_mem_take hb))
    rfl
  have hsize : 0 < Text.size p.text := by
    have := List.length_pos_iff.2 hp
    have := Text.length_le_size p.text
    omega
  have hnil := extract_eq_nil_iff (l := p.octets) (i := s.start - offset) (j := s.stop - offset)
  generalize p.octets.extract (s.start - offset) (s.stop - offset) = part at hmem hnil
  rw [p.length_octets] at hnil
  rw [Bool.eq_iff_iff, List.all_eq_true]
  by_cases ho : p.origin = .data
  · -- bytes of data can only be absent
    have hall : (∀ b ∈ part, decide (b.2 ≠ .data) = true) ↔ part = [] := by
      constructor
      · intro h
        refine List.eq_nil_iff_forall_not_mem.2 fun b hb => ?_
        exact absurd ((hmem b hb).trans ho) (of_decide_eq_true (h b hb))
      · rintro rfl
        exact fun b hb => absurd hb List.not_mem_nil
    rw [hall, hnil]
    simp only [ho, Span.overlaps, decide_true, Bool.true_and, Bool.not_eq_true',
      Bool.and_eq_false_iff, decide_eq_false_iff_not]
    omega
  · have hleft : (!(decide (p.origin = .data) &&
        Span.overlaps ⟨offset, offset + Text.size p.text⟩ s)) = true := by
      simp [ho]
    exact iff_of_true hleft fun b hb => by simp [hmem b hb, ho]

theorem isTemplateFrom_eq_all (offset : Nat) {s : Span} {ps : List Piece}
    (hps : ∀ p ∈ ps, p.text ≠ []) (hs : s.start < s.stop) :
    isTemplateFrom offset s ps =
      ((ps.flatMap Piece.octets).extract (s.start - offset) (s.stop - offset)).all
        (·.2 ≠ .data) := by
  induction ps generalizing offset with
  | nil => simp [isTemplateFrom]
  | cons p ps ih =>
      rw [List.flatMap_cons, extract_append, List.all_append, p.length_octets, Nat.sub_sub,
        Nat.sub_sub,
        ← ih (offset + Text.size p.text) fun q hq => hps q (List.mem_cons_of_mem p hq),
        ← not_overlaps_eq_all (hps p List.mem_cons_self) hs]
      rfl

/-! ## Everything that is built -/

/-- The bytes of a text with ranges replaced are its bytes with the ranges replaced. -/
theorem octets_splice {m : Marked} {edits : List (Span × Piece)}
    (h : Text.SpansFit m.text 0 (edits.map Prod.fst)) :
    (m.splice edits).octets = replaced m.octets (edits.map fun e => (e.1, e.2.octets)) := by
  have hspans : (edits.map fun e => (e.1, e.2.marks)).map Prod.fst = edits.map Prod.fst := by
    rw [List.map_map]
    rfl
  have hbytes : (edits.map fun e => (e.1, e.2.marks)).map (fun e => (e.1, Ink.octets e.2)) =
      edits.map fun e => (e.1, e.2.octets) := by
    rw [List.map_map]
    exact List.map_congr_left fun e _ =>
      congrArg (e.1, ·) (Ink.octets_ofText e.2.origin e.2.text)
  have hbounds : ∀ e ∈ edits, Text.Boundary m.text e.1.start ∧ Text.Boundary m.text e.1.stop :=
    fun e he => h.boundaries e.1 (List.mem_map_of_mem he)
  rw [text_eq, ← hspans] at h
  rw [octets_eq, marks_splice hbounds, spliced, Ink.octets_splicedFrom h, hbytes, ← octets_eq,
    replaced]

/-- Marked texts that come from pushing pieces and replacing ranges. -/
inductive Built : Marked → Prop where
  | empty : Built empty
  | ofTemplate (t : Text) : Built (ofTemplate t)
  | push {m : Marked} (h : Built m) (p : Piece) : Built (m.push p)
  | splice {m : Marked} (h : Built m) (edits : List (Span × Piece)) : Built (m.splice edits)

theorem Built.separate {m : Marked} (h : Built m) : Separate m.pieces := by
  induction h with
  | empty => trivial
  | ofTemplate t => exact separate_ofPieces _
  | push h p ih => exact separate_append ih
  | splice h edits ih => exact separate_ofPieces _

/-- **Marked text is known by its marked bytes.** What is built has no empty piece and no neighbours
of one origin, so there is one way of building it for each list of marked bytes; pushing appends to
this list, a splice replaces ranges of it, and a range is template text if it holds no data. -/
theorem Built.canonical {m : Marked} (h : Built m) :
    Separate m.pieces ∧
      (∀ m', Built m' → (m = m' ↔ m.octets = m'.octets)) ∧
      (∀ p, (m.push p).octets = m.octets ++ p.octets) ∧
      (∀ edits : List (Span × Piece), Text.SpansFit m.text 0 (edits.map Prod.fst) →
        (m.splice edits).octets = replaced m.octets (edits.map fun e => (e.1, e.2.octets))) ∧
      (∀ s : Span, s.start < s.stop →
        (m.isTemplate s = true ↔ ∀ b ∈ m.octets.extract s.start s.stop, b.2 ≠ .data)) ∧
      m.size = m.octets.length ∧ Text.bytes m.text = m.octets.map Prod.fst := by
  refine ⟨h.separate, fun m' h' => ⟨fun heq => heq ▸ rfl, fun hoctets => ?_⟩, fun p => ?_,
    fun edits hfit => octets_splice hfit, fun s hs => ?_, ?_, ?_⟩
  · rw [octets_eq, octets_eq] at hoctets
    exact eq_of_marks h.separate h'.separate (Ink.eq_of_octets hoctets)
  · rw [octets_eq, marks_push, Ink.octets_append, ← octets_eq]
    exact congrArg (m.octets ++ ·) (Ink.octets_ofText p.origin p.text)
  · have hall := isTemplateFrom_eq_all 0 (fun p hp => h.separate.ne_nil hp) hs
    rw [isTemplate, hall, List.all_eq_true]
    exact forall₂_congr fun b _ => decide_eq_true_iff
  · rw [size, text_eq, octets_eq, Ink.length_octets]
  · rw [text_eq, octets_eq, Ink.map_fst_octets]

/-- A data piece between two template pieces, characters of two bytes among them. -/
def enclosed : Marked :=
  ((ofTemplate "<é".toList).push (.data "é\x7b".toList)).push (.template ">".toList)

/-- The end of the first piece and most of the second exchanged, and something put in at the end of
the second. -/
theorem Built.canonical_of_enclosed :
    let edits := [(⟨1, 5⟩, .data "x".toList), (⟨6, 6⟩, .template "y".toList)]
    Built enclosed ∧ Text.SpansFit enclosed.text 0 (edits.map Prod.fst) ∧
      (enclosed.splice edits).octets =
        [(60, .template), (120, .data), (123, .data), (121, .template), (62, .template)] ∧
      (enclosed.isTemplate ⟨2, 4⟩ = true ↔
        ∀ b ∈ enclosed.octets.extract 2 4, b.2 ≠ .data) := by
  intro edits
  have hbuilt : Built enclosed := .push (.push (.ofTemplate _) _) _
  have hfit : Text.SpansFit enclosed.text 0 (edits.map Prod.fst) := by
    have hbound : ∀ s t : Text, enclosed.text = s ++ t →
        Text.Boundary enclosed.text (Text.size s) := fun s t h => ⟨s, t, h, rfl⟩
    refine ⟨hbound [] _ rfl, hbound ['<'] _ rfl, by decide, by decide, ?_, ?_, by decide,
      Nat.le_refl _, ?_⟩
    · exact hbound "<éé".toList _ rfl
    · exact hbound "<éé\x7b".toList _ rfl
    · exact hbound "<éé\x7b".toList _ rfl
  obtain ⟨-, -, -, hsplice, htemplate, -⟩ := hbuilt.canonical
  exact ⟨hbuilt, hfit, (hsplice edits hfit).trans (by decide), htemplate ⟨2, 4⟩ (by decide)⟩

end Marked

end TagTemplate
