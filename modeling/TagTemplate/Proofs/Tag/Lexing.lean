import TagTemplate.Proofs.Tag.Spelling
import Mathlib.Data.List.Sort

/-!
# The tags of a text

`lex` finds every part of a text that spells a tag, once and in order:
`mem_lex_iff` and `pairwise_lex`. So the tags of two texts together are the
tags of each of them, as long as none reaches over the place where they meet:
`filter_lex_append` says this of the tags with some property.
-/

namespace TagTemplate.Tag

variable {k : Kind} {w t : Text}

/-! ## Reading from the left -/

theorem scan_skip (offset : Nat) (a t : Text) :
    scan offset a.length (a ++ t) = scan (offset + Text.size a) 0 t := by
  induction a generalizing offset with
  | nil => rfl
  | cons c a ih =>
      show scan (offset + c.utf8Size) a.length (a ++ t) = _
      rw [ih, Text.size_cons, Nat.add_assoc]

theorem opening?_of_spells (h : Spells k w) (b : Text) :
    ∃ i, opening? (w ++ b) = some (k, i) ∧ w = openMark ++ i ++ closeMark := by
  obtain ⟨i, rfl, hk, hc⟩ := h
  exact ⟨i, opening?_eq_some_iff.2 ⟨b, rfl, hk, hc⟩, rfl⟩

/-- A tag at the start is found, and the scan goes on behind it. -/
theorem scan_spells (h : Spells k w) (offset : Nat) (b : Text) :
    scan offset 0 (w ++ b) =
      ⟨k, ⟨offset, offset + Text.size w⟩⟩ :: scan (offset + Text.size w) 0 b := by
  obtain ⟨i, hopen, rfl⟩ := opening?_of_spells h b
  have hcons : openMark ++ i ++ closeMark ++ b = '{' :: ('{' :: i ++ closeMark ++ b) := rfl
  have hlen : i.length + 3 = ('{' :: i ++ closeMark).length := by simp [closeMark]
  have hsize : Text.size (openMark ++ i ++ closeMark) = Text.size i + 4 := by
    have hbrace : '{'.utf8Size = 1 ∧ '}'.utf8Size = 1 := by decide
    simp only [openMark, closeMark, Text.size_append, Text.size_cons, Text.size_nil, hbrace]
    omega
  rw [hcons] at hopen ⊢
  simp only [scan, hopen]
  rw [hlen, scan_skip, hsize, Nat.add_assoc offset]
  have hrest : '{'.utf8Size + Text.size ('{' :: i ++ closeMark) = Text.size i + 4 := by
    have hcons' : '{' :: ('{' :: i ++ closeMark) = openMark ++ i ++ closeMark := rfl
    rw [← hsize, ← hcons', Text.size_cons]
  rw [Nat.add_assoc offset, hrest]

/-- At a character where no tag starts, the scan goes on. -/
theorem scan_char {c : Char} (h : opening? (c :: t) = none) (offset : Nat) :
    scan offset 0 (c :: t) = scan (offset + c.utf8Size) 0 t := by
  simp only [scan, h]

/-- A text is empty, or starts with a tag, or starts with a character where no tag does. -/
theorem text_induction {motive : Text → Prop} (nil : motive [])
    (char : ∀ c t, opening? (c :: t) = none → motive t → motive (c :: t))
    (tag : ∀ k w b, Spells k w → motive b → motive (w ++ b)) (t : Text) : motive t := by
  induction hn : t.length using Nat.strong_induction_on generalizing t with
  | _ n ih =>
      subst hn
      cases t with
      | nil => exact nil
      | cons c t =>
          cases hopen : opening? (c :: t) with
          | none => exact char c t hopen (ih _ (by simp) t rfl)
          | some ki =>
              obtain ⟨k, i⟩ := ki
              obtain ⟨b, ht, hk, hc⟩ := opening?_eq_some_iff.1 hopen
              rw [ht]
              refine tag k _ b ⟨i, rfl, hk, hc⟩ (ih _ ?_ b rfl)
              rw [ht]
              simp only [openMark, List.length_append, List.length_cons]
              omega

/-! ## Every tag, once and in order -/

theorem Spells.unique {k' : Kind} {w' b b' : Text} (h : Spells k w) (h' : Spells k' w')
    (heq : w ++ b = w' ++ b') : k = k' ∧ w = w' := by
  obtain ⟨i, hopen, rfl⟩ := opening?_of_spells h b
  obtain ⟨i', hopen', rfl⟩ := opening?_of_spells h' b'
  rw [heq, hopen', Option.some.injEq, Prod.mk.injEq] at hopen
  exact ⟨hopen.1.symm, by rw [hopen.2]⟩

/-- Two tags in a text do not overlap. -/
theorem Spells.apart {k' : Kind} {w' a b b' : Text} (h : Spells k w) (h' : Spells k' w')
    (heq : w ++ b = a ++ w' ++ b') : a = [] ∨ w.length ≤ a.length := by
  obtain ⟨i, rfl, -, -⟩ := h'
  exact h.open_apart (z := i ++ closeMark ++ b') (by simpa using heq)

theorem mem_scan_iff {offset : Nat} {tag : Tag} :
    tag ∈ scan offset 0 t ↔
      ∃ a w b, t = a ++ w ++ b ∧ Spells tag.kind w ∧
        tag.span = ⟨offset + Text.size a, offset + Text.size a + Text.size w⟩ := by
  induction t using text_induction generalizing offset with
  | nil =>
      simp only [scan, List.not_mem_nil, false_iff]
      intro hspelled
      obtain ⟨a, w, b, h, hw, -⟩ := hspelled
      exact hw.ne_nil (by simp_all)
  | char c t hopen ih =>
      rw [scan_char hopen, ih]
      constructor
      · intro hspelled
        obtain ⟨a, w, b, rfl, hw, hs⟩ := hspelled
        exact ⟨c :: a, w, b, rfl, hw, by rw [hs, Text.size_cons, Nat.add_assoc offset]⟩
      · intro hspelled
        obtain ⟨a, w, b, h, hw, hs⟩ := hspelled
        cases a with
        | nil =>
            obtain ⟨i, hi, -⟩ := opening?_of_spells hw b
            rw [h] at hopen
            simp only [List.nil_append] at hopen
            rw [hi] at hopen
            cases hopen
        | cons d a =>
            obtain ⟨rfl, rfl⟩ := List.cons.inj h
            exact ⟨a, w, b, rfl, hw, by simp only [hs, Text.size_cons, Nat.add_assoc]⟩
  | tag k w b hw ih =>
      rw [scan_spells hw, List.mem_cons, ih]
      constructor
      · intro hwhere
        rcases hwhere with rfl | ⟨a, v, b', rfl, hv, hs⟩
        · exact ⟨[], w, b, rfl, hw, rfl⟩
        · refine ⟨w ++ a, v, b', by simp, hv, ?_⟩
          rw [hs, Text.size_append, Nat.add_assoc offset]
      · intro hspelled
        obtain ⟨a, v, b', h, hv, hs⟩ := hspelled
        rcases hw.apart hv h with rfl | hle
        · left
          obtain ⟨hk, rfl⟩ := hv.unique hw h.symm
          obtain ⟨kind, span⟩ := tag
          simp_all
        · right
          rw [List.append_assoc] at h
          obtain ⟨a, rfl⟩ := List.prefix_of_prefix_length_le ⟨b, h⟩ ⟨v ++ b', rfl⟩ hle
          refine ⟨a, v, b', ?_, hv, ?_⟩
          · rw [List.append_assoc] at h
            rw [List.append_assoc]
            exact List.append_cancel_left h
          · simp only [hs, Text.size_append, Nat.add_assoc]

/-- **The tags of a text** are the parts of it that spell one. -/
theorem mem_lex_iff {tag : Tag} :
    tag ∈ lex t ↔
      ∃ a w b, t = a ++ w ++ b ∧ Spells tag.kind w ∧
        tag.span = ⟨Text.size a, Text.size a + Text.size w⟩ := by
  rw [lex, mem_scan_iff]
  simp only [Nat.zero_add]

/-- A tag ends before the other starts. -/
def Before (s t : Tag) : Prop := s.span.stop ≤ t.span.start ∧ s.span.start < s.span.stop

theorem pairwise_scan (offset : Nat) (t : Text) :
    (scan offset 0 t).Pairwise Before := by
  induction t using text_induction generalizing offset with
  | nil => exact List.Pairwise.nil
  | char c t hopen ih =>
      rw [scan_char hopen]
      exact ih _
  | tag k w b hw ih =>
      rw [scan_spells hw, List.pairwise_cons]
      refine ⟨?_, ih _⟩
      intro tag htag
      have hpos := List.length_pos_iff.2 hw.ne_nil
      have hsize := Text.length_le_size w
      have hstart := (bounds_of_mem_scan htag).1
      exact ⟨hstart, by show offset < offset + Text.size w; omega⟩

theorem pairwise_lex (t : Text) : (lex t).Pairwise Before := pairwise_scan 0 t

theorem Before.irrefl (s : Tag) : ¬ Before s s := by
  intro hboth
  obtain ⟨h, h'⟩ := hboth
  omega

instance : Std.Irrefl Before := ⟨Before.irrefl⟩

instance : Std.Antisymm Before := ⟨fun s t h h' => by
  obtain ⟨h, hs⟩ := h
  obtain ⟨h', ht⟩ := h'
  omega⟩

/-- Tags in order are determined by which tags they are. -/
theorem eq_of_mem_iff {l₁ l₂ : List Tag} (h₁ : l₁.Pairwise Before) (h₂ : l₂.Pairwise Before)
    (h : ∀ tag, tag ∈ l₁ ↔ tag ∈ l₂) : l₁ = l₂ := h₁.eq_of_mem_iff h₂ h

theorem lt_of_mem_lex {tag : Tag} (h : tag ∈ lex t) : tag.span.start < tag.span.stop := by
  have := four_le_of_mem_lex h
  omega

theorem stop_le_of_mem_lex {tag : Tag} (h : tag ∈ lex t) : tag.span.stop ≤ Text.size t := by
  obtain ⟨a, w, b, rfl, -, hs⟩ := mem_lex_iff.1 h
  rw [hs]
  simp only [Text.size_append]
  omega

/-! ## The tags of two texts together -/

theorem mem_lex_append_left {a b : Text} {tag : Tag} :
    tag ∈ lex a ↔ tag ∈ lex (a ++ b) ∧ tag.span.stop ≤ Text.size a := by
  constructor
  · intro h
    refine ⟨?_, stop_le_of_mem_lex h⟩
    obtain ⟨x, w, y, rfl, hw, hs⟩ := mem_lex_iff.1 h
    exact mem_lex_iff.2 ⟨x, w, y ++ b, by simp, hw, hs⟩
  · intro hboth
    obtain ⟨h, hle⟩ := hboth
    obtain ⟨x, w, y, hxy, hw, hs⟩ := mem_lex_iff.1 h
    rw [hs] at hle
    change Text.size x + Text.size w ≤ Text.size a at hle
    rcases List.append_eq_append_iff.1 hxy with ⟨u, hu, rfl⟩ | ⟨u, rfl, -⟩
    · have hempty : u = [] := by
        have hsize := congrArg Text.size hu
        simp only [Text.size_append] at hsize
        exact Text.size_eq_zero_iff.1 (by omega)
      subst hempty
      exact mem_lex_iff.2 ⟨x, w, [], by rw [hu, List.append_nil, List.append_nil], hw, hs⟩
    · exact mem_lex_iff.2 ⟨x, w, u, rfl, hw, hs⟩

theorem mem_lex_append_right {a b : Text} {tag : Tag} :
    tag ∈ (lex b).map (shift · (Text.size a)) ↔
      tag ∈ lex (a ++ b) ∧ Text.size a ≤ tag.span.start := by
  rw [List.mem_map]
  constructor
  · intro hspelled
    obtain ⟨s, h, rfl⟩ := hspelled
    obtain ⟨x, w, y, rfl, hw, hs⟩ := mem_lex_iff.1 h
    refine ⟨mem_lex_iff.2 ⟨a ++ x, w, y, by simp, hw, ?_⟩, ?_⟩
    · simp only [shift, Span.shift, hs, Text.size_append, Span.mk.injEq]
      omega
    · simp only [shift, Span.shift]
      omega
  · intro hboth
    obtain ⟨h, hle⟩ := hboth
    obtain ⟨x, w, y, hxy, hw, hs⟩ := mem_lex_iff.1 h
    rw [hs] at hle
    change Text.size a ≤ Text.size x at hle
    rw [List.append_assoc] at hxy
    rcases List.append_eq_append_iff.1 hxy with ⟨u, rfl, rfl⟩ | ⟨u, rfl, hu⟩
    · refine ⟨⟨tag.kind, ⟨Text.size u, Text.size u + Text.size w⟩⟩, ?_, ?_⟩
      · exact mem_lex_iff.2 ⟨u, w, y, by simp, hw, rfl⟩
      · obtain ⟨kind, span⟩ := tag
        simp only at hs
        simp only [shift, Span.shift, hs, Text.size_append, Tag.mk.injEq, Span.mk.injEq, true_and]
        omega
    · have hempty : u = [] := by
        rw [Text.size_append] at hle
        exact Text.size_eq_zero_iff.1 (by omega)
      subst hempty
      refine ⟨⟨tag.kind, ⟨0, Text.size w⟩⟩, ?_, ?_⟩
      · exact mem_lex_iff.2 ⟨[], w, y, by simpa using hu.symm, hw, by simp⟩
      obtain ⟨kind, span⟩ := tag
      simp only at hs
      simp [shift, Span.shift, hs, Nat.add_comm]

theorem pairwise_shift {l : List Tag} (h : l.Pairwise Before) (n : Nat) :
    (l.map (shift · n)).Pairwise Before := by
  rw [List.pairwise_map]
  refine h.imp ?_
  intro s t hboth
  obtain ⟨h, h'⟩ := hboth
  constructor
  · show s.span.stop + n ≤ t.span.start + n
    omega
  · show s.span.start + n < s.span.stop + n
    omega

/-- The tags of a part of a text are those that lie in it. -/
theorem lex_slice {u : Text} {s : Span} (h : Text.slice? t s = some u) :
    (lex u).map (shift · s.start) =
      (lex t).filter fun tag => s.start ≤ tag.span.start && tag.span.stop ≤ s.stop := by
  obtain ⟨a, b, rfl, hstart, hstop⟩ := Text.slice?_eq_some_iff.1 h
  refine eq_of_mem_iff (pairwise_shift (pairwise_lex u) _) ((pairwise_lex _).filter _) ?_
  intro tag
  have hleft : tag ∈ lex (a ++ u) ↔ tag ∈ lex (a ++ u ++ b) ∧ tag.span.stop ≤ Text.size (a ++ u) :=
    mem_lex_append_left
  have hright : tag ∈ (lex u).map (shift · (Text.size a)) ↔
      tag ∈ lex (a ++ u) ∧ Text.size a ≤ tag.span.start := mem_lex_append_right
  rw [hleft, Text.size_append, ← hstart] at hright
  rw [hright, List.mem_filter, Bool.and_eq_true, decide_eq_true_eq, decide_eq_true_eq]
  constructor
  · intro hboth
    exact ⟨hboth.1.1, hboth.2, by omega⟩
  · intro hboth
    exact ⟨⟨hboth.1, by omega⟩, hboth.2.1⟩

/-- The tags with some property that two texts have together, if none of these reaches over the
place where the texts meet. -/
theorem filter_lex_append {a b : Text} {p : Tag → Bool}
    (h : ∀ tag ∈ lex (a ++ b), p tag = true →
      tag.span.stop ≤ Text.size a ∨ Text.size a ≤ tag.span.start) :
    (lex (a ++ b)).filter p =
      (lex a).filter p ++ ((lex b).map (shift · (Text.size a))).filter p := by
  refine eq_of_mem_iff ((pairwise_lex _).filter p) ?_ ?_
  · rw [List.pairwise_append]
    refine ⟨(pairwise_lex a).filter p, (pairwise_shift (pairwise_lex b) _).filter p, ?_⟩
    intro s hs s' hs'
    have hstop := stop_le_of_mem_lex (List.mem_filter.1 hs).1
    have hlt := lt_of_mem_lex (List.mem_filter.1 hs).1
    have hstart := (mem_lex_append_right.1 (List.mem_filter.1 hs').1).2
    exact ⟨hstop.trans hstart, hlt⟩
  · intro tag
    rw [List.mem_append, List.mem_filter, List.mem_filter, List.mem_filter,
      mem_lex_append_left (a := a) (b := b), mem_lex_append_right]
    constructor
    · intro hboth
      obtain ⟨hmem, hp⟩ := hboth
      exact (h tag hmem hp).imp (fun hle => ⟨⟨hmem, hle⟩, hp⟩) (fun hle => ⟨⟨hmem, hle⟩, hp⟩)
    · rintro (⟨⟨hmem, -⟩, hp⟩ | ⟨⟨hmem, -⟩, hp⟩) <;> exact ⟨hmem, hp⟩

end TagTemplate.Tag
