import TagTemplate.Marked.Basic

/-!
# One way of marking a text

A list of pieces is separate if no piece is empty and neighbours differ in
their origin. `push` keeps lists separate, so every marked text that is built
from pieces is, and separate lists with the same marked characters are the same
list. Marked texts are therefore compared by their characters, whatever pieces
they were built from: `eq_of_marks`.
-/

namespace TagTemplate

/-- No piece is empty and neighbours have different origins. -/
def Separate : List Piece → Prop
  | [] => True
  | [p] => p.text ≠ []
  | p :: q :: ps => p.text ≠ [] ∧ p.origin ≠ q.origin ∧ Separate (q :: ps)

theorem Separate.head_ne_nil {p : Piece} {ps : List Piece} (h : Separate (p :: ps)) :
    p.text ≠ [] := by
  cases ps with
  | nil => exact h
  | cons q ps => exact h.1

theorem Separate.tail {p : Piece} {ps : List Piece} (h : Separate (p :: ps)) : Separate ps := by
  cases ps with
  | nil => trivial
  | cons q ps => exact h.2.2

theorem Separate.ne_nil {p : Piece} {ps : List Piece} (h : Separate ps) (hp : p ∈ ps) :
    p.text ≠ [] := by
  induction ps with
  | nil => cases hp
  | cons q ps ih =>
      rcases List.mem_cons.1 hp with rfl | hp
      · exact h.head_ne_nil
      · exact ih h.tail hp

namespace Marked

/-! ## Building -/

theorem origin_head_append (p q : Piece) (ps : List Piece) :
    ∃ r rs, append p (q :: ps) = r :: rs ∧ r.origin = q.origin := by
  cases ps with
  | nil =>
      simp only [append]
      split
      · exact ⟨q, [], rfl, rfl⟩
      · split
        · exact ⟨_, [], rfl, rfl⟩
        · exact ⟨q, [p], rfl, rfl⟩
  | cons r ps => exact ⟨q, append p (r :: ps), rfl, rfl⟩

theorem separate_append {p : Piece} {ps : List Piece} (h : Separate ps) :
    Separate (append p ps) := by
  fun_induction append p ps with
  | case1 hp => trivial
  | case2 hp => exact fun h' => hp (by simp [h'])
  | case3 q hp => exact h
  | case4 q hp hq =>
      show q.text ++ p.text ≠ []
      intro h'
      exact h (List.append_eq_nil_iff.1 h').1
  | case5 q hp hq => exact ⟨h, hq, fun h' => hp (by simp [h'])⟩
  | case6 q r ps ih =>
      obtain ⟨hq, hqr, hps⟩ := h
      obtain ⟨r', rs, hr, horigin⟩ := origin_head_append p r ps
      have htail := ih hps
      rw [hr] at htail ⊢
      exact ⟨hq, horigin ▸ hqr, htail⟩

theorem separate_foldl_push {m : Marked} (h : Separate m.pieces) (ps : List Piece) :
    Separate (ps.foldl push m).pieces := by
  induction ps generalizing m with
  | nil => exact h
  | cons p ps ih => exact ih (separate_append h)

/-- What is built from pieces is separate. -/
theorem separate_ofPieces (ps : List Piece) : Separate (ofPieces ps).pieces :=
  separate_foldl_push (m := empty) trivial ps

theorem marks_foldl_push (m : Marked) (ps : List Piece) :
    (ps.foldl push m).marks = m.marks ++ ps.flatMap Piece.marks := by
  induction ps generalizing m with
  | nil => simp
  | cons p ps ih =>
      rw [List.foldl_cons, ih, marks_push, List.flatMap_cons, List.append_assoc]

@[simp] theorem marks_ofPieces (ps : List Piece) :
    (ofPieces ps).marks = ps.flatMap Piece.marks := marks_foldl_push empty ps

/-! ## Reading back -/

theorem text_eq_map_marks (m : Marked) : m.text = m.marks.map Prod.fst := by
  obtain ⟨ps⟩ := m
  show ps.flatMap Piece.text = (ps.flatMap Piece.marks).map Prod.fst
  induction ps with
  | nil => rfl
  | cons p ps ih =>
      rw [List.flatMap_cons, List.flatMap_cons, List.map_append, ← ih]
      congr 1
      simp [Piece.marks, Function.comp_def]

/-- What follows a piece starts with the other origin. -/
theorem origin_ne_of_flatMap_eq_cons {p : Piece} {ps : List Piece} (h : Separate (p :: ps))
    {c : Char × Origin} {w : List (Char × Origin)} (hw : ps.flatMap Piece.marks = c :: w) :
    c.2 ≠ p.origin := by
  cases ps with
  | nil => cases hw
  | cons q ps =>
      obtain ⟨-, hpq, hps⟩ := h
      obtain ⟨d, t, ht⟩ := List.exists_cons_of_ne_nil hps.head_ne_nil
      rw [List.flatMap_cons, Piece.marks, ht] at hw
      obtain ⟨rfl, -⟩ := List.cons.inj hw
      exact fun h' => hpq h'.symm

theorem piece_eq_of_marks {p q : Piece} (ho : p.origin = q.origin) (h : p.marks = q.marks) :
    p = q := by
  obtain ⟨o, t⟩ := p
  obtain ⟨o', u⟩ := q
  simp only at ho
  subst ho
  have htu := congrArg (List.map Prod.fst) h
  simp only [Piece.marks, List.map_map, Function.comp_def, List.map_id'] at htu
  rw [htu]

theorem pieces_eq_of_marks {ps qs : List Piece} (hp : Separate ps) (hq : Separate qs)
    (h : ps.flatMap Piece.marks = qs.flatMap Piece.marks) : ps = qs := by
  induction ps generalizing qs with
  | nil =>
      cases qs with
      | nil => rfl
      | cons q qs =>
          obtain ⟨d, t, ht⟩ := List.exists_cons_of_ne_nil hq.head_ne_nil
          rw [List.flatMap_cons, Piece.marks, ht] at h
          cases h
  | cons p ps ih =>
      cases qs with
      | nil =>
          obtain ⟨d, t, ht⟩ := List.exists_cons_of_ne_nil hp.head_ne_nil
          rw [List.flatMap_cons, Piece.marks, ht] at h
          cases h
      | cons q qs =>
          obtain ⟨c, t, ht⟩ := List.exists_cons_of_ne_nil hp.head_ne_nil
          obtain ⟨d, u, hu⟩ := List.exists_cons_of_ne_nil hq.head_ne_nil
          rw [List.flatMap_cons, List.flatMap_cons] at h
          have ho : p.origin = q.origin := by
            have h' := h
            rw [Piece.marks, Piece.marks, ht, hu] at h'
            exact (Prod.mk.inj (List.cons.inj h').1).2
          -- neither piece is longer: the next character would have the wrong origin
          have hmarks : p.marks = q.marks ∧ ps.flatMap Piece.marks = qs.flatMap Piece.marks := by
            rcases List.append_eq_append_iff.1 h with ⟨v, hv, hrest⟩ | ⟨v, hv, hrest⟩
            · cases v with
              | nil => exact ⟨by simpa using hv.symm, by simpa using hrest⟩
              | cons e v =>
                  have he : e ∈ q.marks := by rw [hv]; simp
                  obtain ⟨x, -, rfl⟩ := List.mem_map.1 he
                  exact absurd ho.symm (origin_ne_of_flatMap_eq_cons hp hrest)
            · cases v with
              | nil => exact ⟨by simpa using hv, by simpa using hrest.symm⟩
              | cons e v =>
                  have he : e ∈ p.marks := by rw [hv]; simp
                  obtain ⟨x, -, rfl⟩ := List.mem_map.1 he
                  exact absurd ho (origin_ne_of_flatMap_eq_cons hq hrest)
          rw [piece_eq_of_marks ho hmarks.1, ih hp.tail hq.tail hmarks.2]

/-- Separate texts with the same marked characters are equal. -/
theorem eq_of_marks {m m' : Marked} (h : Separate m.pieces) (h' : Separate m'.pieces)
    (hmarks : m.marks = m'.marks) : m = m' := by
  obtain ⟨ps⟩ := m
  obtain ⟨qs⟩ := m'
  exact congrArg Marked.mk (pieces_eq_of_marks h h' hmarks)

end Marked

end TagTemplate
