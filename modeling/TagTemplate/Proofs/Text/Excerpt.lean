import TagTemplate.Text.Splice
import TagTemplate.Proofs.Text.Search

/-!
# Excerpts

Text and marked text are lists whose elements take up bytes. `excerpt` keeps
the elements that begin in a range of bytes; it is defined for every range, and
it splits where a list does. `spliced` replaces ranges by the excerpts between
them.

Ranges that are reported begin and end between two characters. On these
`Text.slice` is an excerpt and `Text.splice` is `spliced`, so that what is
proved here of excerpts holds of the library's texts.
-/

namespace TagTemplate

variable {α : Type} (weight : α → Nat)

/-- Number of bytes of a list. -/
def extent : List α → Nat
  | [] => 0
  | a :: l => weight a + extent l

@[simp] theorem extent_nil : extent weight [] = 0 := rfl

@[simp] theorem extent_cons (a : α) (l : List α) :
    extent weight (a :: l) = weight a + extent weight l := rfl

@[simp] theorem extent_append (l m : List α) :
    extent weight (l ++ m) = extent weight l + extent weight m := by
  induction l with
  | nil => simp
  | cons a l ih =>
      rw [List.cons_append, extent_cons, extent_cons, ih]
      omega

/-- The elements of a list that begin in a range, the first of the list beginning at byte
`offset`. -/
def excerpt (offset : Nat) (s : Span) : List α → List α
  | [] => []
  | a :: l =>
    if s.start ≤ offset ∧ offset < s.stop then a :: excerpt (offset + weight a) s l
    else excerpt (offset + weight a) s l

@[simp] theorem excerpt_nil (offset : Nat) (s : Span) : excerpt weight offset s [] = [] := rfl

theorem excerpt_append (offset : Nat) (s : Span) (l m : List α) :
    excerpt weight offset s (l ++ m) =
      excerpt weight offset s l ++ excerpt weight (offset + extent weight l) s m := by
  induction l generalizing offset with
  | nil => simp
  | cons a l ih =>
      simp only [List.cons_append, excerpt, extent_cons, ih, ← Nat.add_assoc]
      split <;> rfl

/-- The list from byte `pos` on with each range replaced. -/
def splicedFrom (l : List α) (pos : Nat) : List (Span × List α) → List α
  | [] => excerpt weight 0 ⟨pos, extent weight l⟩ l
  | (s, r) :: edits => excerpt weight 0 ⟨pos, s.start⟩ l ++ r ++ splicedFrom l s.stop edits

/-- The list with each range replaced. -/
def spliced (l : List α) (edits : List (Span × List α)) : List α := splicedFrom weight l 0 edits

variable {weight}

/-- An excerpt depends on which positions in the list the range holds. -/
theorem excerpt_congr {offset i j i' j' : Nat} {l : List α} (hpos : ∀ a, 0 < weight a)
    (h : ∀ n, offset ≤ n → n < offset + extent weight l → (i ≤ n ∧ n < j ↔ i' ≤ n ∧ n < j')) :
    excerpt weight offset ⟨i, j⟩ l = excerpt weight offset ⟨i', j'⟩ l := by
  induction l generalizing offset with
  | nil => rfl
  | cons a l ih =>
      have ha := hpos a
      rw [extent_cons] at h
      have hrest : excerpt weight (offset + weight a) ⟨i, j⟩ l =
          excerpt weight (offset + weight a) ⟨i', j'⟩ l :=
        ih fun n hn hn' => h n (by omega) (by omega)
      simp only [excerpt, h offset (Nat.le_refl _) (by omega), hrest]

/-- What begins before the range is left out. -/
theorem excerpt_eq_nil_of_le {offset i j : Nat} {l : List α} (hpos : ∀ a, 0 < weight a)
    (h : offset + extent weight l ≤ i) : excerpt weight offset ⟨i, j⟩ l = [] := by
  induction l generalizing offset with
  | nil => rfl
  | cons a l ih =>
      have ha := hpos a
      rw [extent_cons] at h
      rw [excerpt, if_neg (by simp only; omega)]
      exact ih (by omega)

/-- What begins after the range is left out. -/
theorem excerpt_eq_nil_of_ge {offset i j : Nat} {l : List α} (h : j ≤ offset) :
    excerpt weight offset ⟨i, j⟩ l = [] := by
  induction l generalizing offset with
  | nil => rfl
  | cons a l ih =>
      rw [excerpt, if_neg (by simp only; omega)]
      exact ih (by omega)

/-- What lies in the range is kept. -/
theorem excerpt_eq_self {offset i j : Nat} {l : List α} (hpos : ∀ a, 0 < weight a)
    (h : i ≤ offset) (h' : offset + extent weight l ≤ j) :
    excerpt weight offset ⟨i, j⟩ l = l := by
  induction l generalizing offset with
  | nil => rfl
  | cons a l ih =>
      have ha := hpos a
      rw [extent_cons] at h'
      rw [excerpt, if_pos ⟨h, by simp only; omega⟩, ih (by omega) (by omega)]

/-- The excerpt of a part of a list is that part. -/
theorem excerpt_mid {offset i j : Nat} {l m n : List α} (hpos : ∀ a, 0 < weight a)
    (hi : i = offset + extent weight l) (hj : j = i + extent weight m) :
    excerpt weight offset ⟨i, j⟩ (l ++ m ++ n) = m := by
  rw [excerpt_append, excerpt_append, excerpt_eq_nil_of_le hpos (by omega),
    excerpt_eq_self hpos (by omega) (by omega), excerpt_eq_nil_of_ge]
  · simp
  · rw [extent_append]
    omega

theorem excerpt_shift (offset n i j : Nat) (l : List α) :
    excerpt weight (offset + n) ⟨i + n, j + n⟩ l = excerpt weight offset ⟨i, j⟩ l := by
  induction l generalizing offset with
  | nil => rfl
  | cons a l ih =>
      have hcond : (i + n ≤ offset + n ∧ offset + n < j + n) ↔ (i ≤ offset ∧ offset < j) := by
        omega
      simp only [excerpt, hcond]
      rw [Nat.add_right_comm, ih]

/-! ## Splicing -/

/-- Edits moved to the right. -/
def shiftEdits (n : Nat) (edits : List (Span × List α)) : List (Span × List α) :=
  edits.map fun (s, r) => (s.shift n, r)

@[simp] theorem map_fst_shiftEdits (n : Nat) (edits : List (Span × List α)) :
    (shiftEdits n edits).map Prod.fst = (edits.map Prod.fst).map (·.shift n) := by
  rw [shiftEdits, List.map_map, List.map_map]
  rfl

/-- Ranges that lie in the first `n` bytes, from byte `pos` on, in order. -/
def SpansWithin (n : Nat) : Nat → List Span → Prop
  | pos, [] => pos ≤ n
  | pos, s :: spans => pos ≤ s.start ∧ s.start ≤ s.stop ∧ SpansWithin n s.stop spans

theorem SpansWithin.le {n pos : Nat} {spans : List Span} (h : SpansWithin n pos spans) :
    pos ≤ n := by
  induction spans generalizing pos with
  | nil => exact h
  | cons s spans ih =>
      obtain ⟨hstart, hstop, hrest⟩ := h
      have := ih hrest
      omega

/-- Ranges of which each ends before the later ones begin. -/
theorem spansWithin_of_pairwise {n pos : Nat} {spans : List Span}
    (hspans : spans.Pairwise fun s s' => s.stop ≤ s'.start)
    (hle : ∀ s ∈ spans, pos ≤ s.start ∧ s.start ≤ s.stop ∧ s.stop ≤ n) (hpos : pos ≤ n) :
    SpansWithin n pos spans := by
  induction spans generalizing pos with
  | nil => exact hpos
  | cons s spans ih =>
      obtain ⟨hbefore, hrest⟩ := List.pairwise_cons.1 hspans
      obtain ⟨hstart, hspan, hstop⟩ := hle s (by simp)
      exact ⟨hstart, hspan, ih hrest (fun s' h => ⟨hbefore s' h, (hle s' (by simp [h])).2⟩) hstop⟩

theorem spliced_nil (hpos : ∀ a, 0 < weight a) (l : List α) : spliced weight l [] = l :=
  excerpt_eq_self hpos (Nat.le_refl _) (by simp)

/-- The whole of a list replaced. -/
theorem spliced_whole (hpos : ∀ a, 0 < weight a) (l r : List α) :
    spliced weight l [(⟨0, extent weight l⟩, r)] = r := by
  show excerpt weight 0 ⟨0, 0⟩ l ++ r ++ excerpt weight 0 ⟨extent weight l, extent weight l⟩ l = r
  rw [excerpt_eq_nil_of_ge (Nat.le_refl _), excerpt_eq_nil_of_le hpos (by omega), List.nil_append,
    List.append_nil]

theorem excerpt_append_left {i j : Nat} {l m : List α} (hj : j ≤ extent weight l) :
    excerpt weight 0 ⟨i, j⟩ (l ++ m) = excerpt weight 0 ⟨i, j⟩ l := by
  rw [excerpt_append, excerpt_eq_nil_of_ge (by omega : j ≤ 0 + extent weight l), List.append_nil]

theorem excerpt_append_right {i j : Nat} {l m : List α} (hpos : ∀ a, 0 < weight a) :
    excerpt weight 0 ⟨i + extent weight l, j + extent weight l⟩ (l ++ m) =
      excerpt weight 0 ⟨i, j⟩ m := by
  rw [excerpt_append, excerpt_eq_nil_of_le hpos (by omega), List.nil_append, excerpt_shift]

/-- The excerpt of a range that runs over the place where two lists meet. -/
theorem excerpt_append_over {i j : Nat} {l m : List α} (hpos : ∀ a, 0 < weight a)
    (hi : i ≤ extent weight l) :
    excerpt weight 0 ⟨i, j + extent weight l⟩ (l ++ m) =
      excerpt weight 0 ⟨i, extent weight l⟩ l ++ excerpt weight 0 ⟨0, j⟩ m := by
  have hl : excerpt weight 0 ⟨i, j + extent weight l⟩ l =
      excerpt weight 0 ⟨i, extent weight l⟩ l :=
    excerpt_congr hpos fun n hn hn' => by omega
  have hm : excerpt weight (0 + extent weight l) ⟨i, j + extent weight l⟩ m =
      excerpt weight (0 + extent weight l) ⟨0 + extent weight l, j + extent weight l⟩ m :=
    excerpt_congr hpos fun n hn hn' => by omega
  rw [excerpt_append, hl, hm, excerpt_shift]

theorem splicedFrom_shift (hpos : ∀ a, 0 < weight a) (l m : List α) (pos : Nat)
    (edits : List (Span × List α)) :
    splicedFrom weight (l ++ m) (pos + extent weight l) (shiftEdits (extent weight l) edits) =
      splicedFrom weight m pos edits := by
  induction edits generalizing pos with
  | nil =>
      show excerpt weight 0 ⟨pos + extent weight l, extent weight (l ++ m)⟩ (l ++ m) = _
      rw [extent_append, Nat.add_comm (extent weight l), excerpt_append_right hpos]
      rfl
  | cons e edits ih =>
      obtain ⟨s, r⟩ := e
      show excerpt weight 0 ⟨pos + extent weight l, s.start + extent weight l⟩ (l ++ m) ++ r ++
        splicedFrom weight (l ++ m) (s.stop + extent weight l)
          (shiftEdits (extent weight l) edits) = _
      rw [excerpt_append_right hpos, ih]
      rfl

theorem splicedFrom_append (hpos : ∀ a, 0 < weight a) {l m : List α} {pos : Nat}
    {edits edits' : List (Span × List α)}
    (h : SpansWithin (extent weight l) pos (edits.map Prod.fst)) :
    splicedFrom weight (l ++ m) pos (edits ++ shiftEdits (extent weight l) edits') =
      splicedFrom weight l pos edits ++ spliced weight m edits' := by
  induction edits generalizing pos with
  | nil =>
      cases edits' with
      | nil =>
          show excerpt weight 0 ⟨pos, extent weight (l ++ m)⟩ (l ++ m) = _
          rw [extent_append, Nat.add_comm (extent weight l), excerpt_append_over hpos h]
          rfl
      | cons e edits' =>
          obtain ⟨s, r⟩ := e
          show excerpt weight 0 ⟨pos, s.start + extent weight l⟩ (l ++ m) ++ r ++
            splicedFrom weight (l ++ m) (s.stop + extent weight l)
              (shiftEdits (extent weight l) edits') = _
          rw [excerpt_append_over hpos h, splicedFrom_shift hpos]
          simp only [spliced, splicedFrom, List.append_assoc]
  | cons e edits ih =>
      obtain ⟨s, r⟩ := e
      show excerpt weight 0 ⟨pos, s.start⟩ (l ++ m) ++ r ++
        splicedFrom weight (l ++ m) s.stop (edits ++ shiftEdits (extent weight l) edits') = _
      have hle : s.start ≤ extent weight l := Nat.le_trans h.2.1 h.2.2.le
      rw [ih h.2.2, excerpt_append_left hle]
      simp only [splicedFrom, List.append_assoc]

/-- **Splicing splits** where a list does, if the edits do. -/
theorem spliced_append (hpos : ∀ a, 0 < weight a) {l m : List α}
    {edits edits' : List (Span × List α)}
    (h : SpansWithin (extent weight l) 0 (edits.map Prod.fst)) :
    spliced weight (l ++ m) (edits ++ shiftEdits (extent weight l) edits') =
      spliced weight l edits ++ spliced weight m edits' := splicedFrom_append hpos h

/-! ## Texts -/

namespace Text

theorem extent_eq_size (t : Text) : extent Char.utf8Size t = size t := by
  induction t with
  | nil => rfl
  | cons c t ih => rw [extent_cons, ih, size_cons]

/-- A position between two characters of a text, or at one of its ends. -/
def Boundary (t : Text) (n : Nat) : Prop := ∃ a b, t = a ++ b ∧ size a = n

theorem Boundary.le {t : Text} {n : Nat} (h : Boundary t n) : n ≤ size t := by
  obtain ⟨a, b, rfl, rfl⟩ := h
  simp

theorem boundary_zero (t : Text) : Boundary t 0 := ⟨[], t, rfl, rfl⟩

theorem boundary_size (t : Text) : Boundary t (size t) := ⟨t, [], by simp, rfl⟩

/-- A position behind the first part of a text cuts the second. -/
theorem Boundary.cut {a b : Text} {n : Nat} (h : Boundary (a ++ b) n) (hle : size a ≤ n) :
    ∃ x y, b = x ++ y ∧ n = size a + size x := by
  obtain ⟨c, d, hcd, rfl⟩ := h
  rcases List.append_eq_append_iff.1 hcd with ⟨x, rfl, rfl⟩ | ⟨x, rfl, rfl⟩
  · exact ⟨x, d, rfl, size_append a x⟩
  · have hx : x = [] := by
      rw [size_append] at hle
      exact size_eq_zero_iff.1 (by omega)
    subst hx
    exact ⟨[], b, rfl, by simp⟩

/-- A range between two boundaries has characters. -/
theorem slice?_of_boundaries {t : Text} {i j : Nat} (hi : Boundary t i) (hj : Boundary t j)
    (hij : i ≤ j) : ∃ a m b, t = a ++ m ++ b ∧ size a = i ∧ size a + size m = j ∧
      slice? t ⟨i, j⟩ = some m := by
  obtain ⟨a, x, rfl, rfl⟩ := hi
  obtain ⟨m, b, rfl, rfl⟩ := hj.cut hij
  exact ⟨a, m, b, by simp, rfl, rfl, slice?_eq_some_iff.2 ⟨a, b, by simp, rfl, rfl⟩⟩

theorem slice_eq_excerpt {t : Text} {i j : Nat} (hi : Boundary t i) (hj : Boundary t j)
    (hij : i ≤ j) : slice t ⟨i, j⟩ = excerpt Char.utf8Size 0 ⟨i, j⟩ t := by
  obtain ⟨a, m, b, rfl, ha, hm, hs⟩ := slice?_of_boundaries hi hj hij
  rw [excerpt_mid Char.utf8Size_pos (by rw [extent_eq_size]; omega)
    (by rw [extent_eq_size]; omega)]
  rw [slice, hs]
  rfl

/-- Ranges that begin and end between characters of a text, from byte `pos` on, in order. -/
def SpansFit (t : Text) : Nat → List Span → Prop
  | pos, [] => Boundary t pos
  | pos, s :: spans =>
    Boundary t pos ∧ Boundary t s.start ∧ pos ≤ s.start ∧ s.start ≤ s.stop ∧
      SpansFit t s.stop spans

theorem spliceFrom_eq_splicedFrom {t : Text} {pos : Nat} {edits : List (Span × Text)}
    (h : SpansFit t pos (edits.map Prod.fst)) :
    spliceFrom t pos edits = splicedFrom Char.utf8Size t pos edits := by
  induction edits generalizing pos with
  | nil =>
      rw [spliceFrom, splicedFrom, extent_eq_size]
      exact slice_eq_excerpt h (boundary_size t) h.le
  | cons e edits ih =>
      obtain ⟨s, r⟩ := e
      obtain ⟨hp, hs, hle, -, hrest⟩ := h
      rw [spliceFrom, splicedFrom, ih hrest, slice_eq_excerpt hp hs hle]

theorem spansFit_of_within {t : Text} {pos : Nat} {spans : List Span}
    (h : SpansWithin (size t) pos spans) (hpos : Boundary t pos)
    (hb : ∀ s ∈ spans, Boundary t s.start ∧ Boundary t s.stop) : SpansFit t pos spans := by
  induction spans generalizing pos with
  | nil => exact hpos
  | cons s spans ih =>
      obtain ⟨hle, hle', hrest⟩ := h
      obtain ⟨hstart, hstop⟩ := hb s (by simp)
      exact ⟨hpos, hstart, hle, hle', ih hrest hstop fun s' hs' => hb s' (by simp [hs'])⟩

theorem SpansFit.within {t : Text} {pos : Nat} {spans : List Span} (h : SpansFit t pos spans) :
    SpansWithin (size t) pos spans := by
  induction spans generalizing pos with
  | nil => exact h.le
  | cons s spans ih =>
      obtain ⟨-, -, hle, hle', hrest⟩ := h
      exact ⟨hle, hle', ih hrest⟩

theorem SpansFit.boundary {t : Text} {pos : Nat} {spans : List Span} (h : SpansFit t pos spans) :
    Boundary t pos := by
  cases spans with
  | nil => exact h
  | cons s spans => exact h.1

theorem SpansFit.boundaries {t : Text} {pos : Nat} {spans : List Span} (h : SpansFit t pos spans) :
    ∀ s ∈ spans, Boundary t s.start ∧ Boundary t s.stop := by
  induction spans generalizing pos with
  | nil => exact fun s hs => absurd hs List.not_mem_nil
  | cons s spans ih =>
      obtain ⟨-, hstart, -, -, hrest⟩ := h
      exact List.forall_mem_cons.2 ⟨⟨hstart, hrest.boundary⟩, ih hrest⟩

/-! ## Texts that are put together -/

theorem Boundary.append_left {a : Text} {n : Nat} (h : Boundary a n) (b : Text) :
    Boundary (a ++ b) n := by
  obtain ⟨x, y, rfl, hx⟩ := h
  exact ⟨x, y ++ b, by simp, hx⟩

theorem Boundary.append_right {b : Text} {n : Nat} (h : Boundary b n) (a : Text) :
    Boundary (a ++ b) (n + size a) := by
  obtain ⟨x, y, rfl, rfl⟩ := h
  exact ⟨a ++ x, y, by simp, by rw [size_append, Nat.add_comm]⟩

theorem SpansFit.shift {b : Text} {pos : Nat} {spans : List Span} (h : SpansFit b pos spans)
    (a : Text) : SpansFit (a ++ b) (pos + size a) (spans.map (·.shift (size a))) := by
  induction spans generalizing pos with
  | nil => exact Boundary.append_right h a
  | cons s spans ih =>
      obtain ⟨hpos, hstart, hle, hle', hrest⟩ := h
      exact ⟨hpos.append_right a, hstart.append_right a, Nat.add_le_add_right hle _,
        Nat.add_le_add_right hle' _, ih hrest⟩

theorem SpansFit.append {a b : Text} {pos : Nat} {spans spans' : List Span}
    (h : SpansFit a pos spans) (h' : SpansFit b 0 spans') :
    SpansFit (a ++ b) pos (spans ++ spans'.map (·.shift (size a))) := by
  induction spans generalizing pos with
  | nil =>
      have hpos : Boundary a pos := h
      cases spans' with
      | nil => exact hpos.append_left b
      | cons s spans' =>
          obtain ⟨-, hstart, -, hle', hrest⟩ := h'
          have hle : pos ≤ s.start + size a := by
            have := hpos.le
            omega
          exact ⟨hpos.append_left b, hstart.append_right a, hle, Nat.add_le_add_right hle' _,
            hrest.shift a⟩
  | cons s spans ih =>
      obtain ⟨hpos, hstart, hle, hle', hrest⟩ := h
      exact ⟨hpos.append_left b, hstart.append_left b, hle, hle', ih hrest⟩

/-- The range of a whole text. -/
theorem spansFit_whole (t : Text) : SpansFit t 0 [⟨0, size t⟩] :=
  ⟨boundary_zero t, boundary_zero t, Nat.le_refl _, Nat.zero_le _, boundary_size t⟩

theorem splice_append {a b : Text} {edits edits' : List (Span × Text)}
    (h : SpansFit a 0 (edits.map Prod.fst)) (h' : SpansFit b 0 (edits'.map Prod.fst)) :
    splice (a ++ b) (edits ++ shiftEdits (size a) edits') = splice a edits ++ splice b edits' := by
  have hboth := h.append h'
  rw [← map_fst_shiftEdits, ← List.map_append] at hboth
  rw [splice, splice, splice, spliceFrom_eq_splicedFrom hboth, spliceFrom_eq_splicedFrom h,
    spliceFrom_eq_splicedFrom h', ← extent_eq_size]
  refine spliced_append Char.utf8Size_pos ?_
  rw [extent_eq_size]
  exact h.within

theorem splice_whole (t r : Text) : splice t [(⟨0, size t⟩, r)] = r := by
  rw [splice, spliceFrom_eq_splicedFrom (spansFit_whole t), ← extent_eq_size]
  exact spliced_whole Char.utf8Size_pos t r

theorem splice_nil (t : Text) : splice t [] = t := by
  have hfit : SpansFit t 0 (([] : List (Span × Text)).map Prod.fst) := boundary_zero t
  rw [splice, spliceFrom_eq_splicedFrom hfit]
  exact spliced_nil Char.utf8Size_pos t

theorem slice?_append_left {a m : Text} {s : Span} (h : slice? a s = some m) (b : Text) :
    slice? (a ++ b) s = some m := by
  obtain ⟨x, y, rfl, hs, hs'⟩ := slice?_eq_some_iff.1 h
  exact slice?_eq_some_iff.2 ⟨x, y ++ b, by simp, hs, hs'⟩

theorem slice?_append_right {b m : Text} {s : Span} (h : slice? b s = some m) (a : Text) :
    slice? (a ++ b) (s.shift (size a)) = some m := by
  obtain ⟨x, y, rfl, hs, hs'⟩ := slice?_eq_some_iff.1 h
  refine slice?_eq_some_iff.2 ⟨a ++ x, y, by simp, ?_, ?_⟩
  · simp only [Span.shift, hs, size_append, Nat.add_comm]
  · simp only [Span.shift, hs', size_append]
    omega

theorem slice?_mid (a m b : Text) : slice? (a ++ (m ++ b)) ⟨size a, size a + size m⟩ = some m :=
  slice?_eq_some_iff.2 ⟨a, b, by simp, rfl, rfl⟩

end Text

end TagTemplate
