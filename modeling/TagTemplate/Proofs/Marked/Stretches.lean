import TagTemplate.Proofs.Marked.Rewrite

/-!
# Between the tags

When the tags of a marked text are taken out, the stretches between them are
left, one behind the other. No stretch holds a tag that the template wrote: such
a tag would be one of those that were taken out. So a tag of what is left holds
data or lies over a seam, where two stretches have come together.
-/

namespace TagTemplate

/-- A part of a list of lists, put together, lies over a place where two of the lists meet. `a` is
what stands before the part. -/
def Straddles {α : Type} (lists : List (List α)) (a part : List α) : Prop :=
  ∃ front back, lists = front ++ back ∧ a.length < front.flatten.length ∧
    front.flatten.length < a.length + part.length

/-- A part of some lists together lies in one of them or over a place where two meet. -/
theorem infix_or_straddles {α : Type} {lists : List (List α)} {a part b : List α}
    (h : lists.flatten = a ++ part ++ b) (hne : part ≠ []) :
    (∃ l ∈ lists, part <:+: l) ∨ Straddles lists a part := by
  induction lists generalizing a with
  | nil =>
      have hnil := (List.append_eq_nil_iff.1 (List.append_eq_nil_iff.1 h.symm).1).2
      exact absurd hnil hne
  | cons l lists ih =>
      rw [List.flatten_cons] at h
      by_cases hbefore : l.length ≤ a.length
      · -- the part lies behind the first list
        rw [List.append_assoc] at h
        obtain ⟨a, rfl⟩ := List.prefix_of_prefix_length_le ⟨_, h⟩ ⟨_, rfl⟩ hbefore
        rw [List.append_assoc] at h
        have hrest := List.append_cancel_left h
        rw [← List.append_assoc] at hrest
        rcases ih hrest with ⟨l', hl', hpart⟩ | ⟨front, back, rfl, hlt, hlt'⟩
        · exact .inl ⟨l', List.mem_cons_of_mem l hl', hpart⟩
        · refine .inr ⟨l :: front, back, rfl, ?_, ?_⟩
          · simp only [List.flatten_cons, List.length_append]
            omega
          · simp only [List.flatten_cons, List.length_append]
            omega
      · by_cases hwithin : a.length + part.length ≤ l.length
        · left
          obtain ⟨c, hc⟩ : a ++ part <+: l :=
            List.prefix_of_prefix_length_le ⟨b, h.symm⟩ ⟨_, rfl⟩ (by rwa [List.length_append])
          exact ⟨l, List.mem_cons_self, a, c, hc⟩
        · right
          refine ⟨[l], lists, rfl, ?_, ?_⟩
          · simp only [List.flatten_cons, List.flatten_nil, List.append_nil]
            omega
          · simp only [List.flatten_cons, List.flatten_nil, List.append_nil]
            omega

namespace Ink

open Tag (Kind)

variable {k : Kind} {w u v x y : Ink}

/-- What lies between some tags of an ink, from byte `pos` on. -/
def between (w : Ink) (pos : Nat) : List Tag → List Ink
  | [] => [excerpt weight 0 ⟨pos, extent weight w⟩ w]
  | tag :: tags =>
    excerpt weight 0 ⟨pos, tag.span.start⟩ w :: between w tag.span.stop tags

/-- What lies between the tags that the template wrote. -/
def stretches (w : Ink) : List Ink := between w 0 (tags w)

theorem flatten_between (w : Ink) (pos : Nat) (l : List Tag) :
    (between w pos l).flatten = splicedFrom weight w pos (l.map fun tag => (tag.span, [])) := by
  induction l generalizing pos with
  | nil => rw [between, List.flatten_cons, List.flatten_nil, List.append_nil]; rfl
  | cons tag l ih => rw [between, List.flatten_cons, ih, List.map_cons, splicedFrom,
      List.append_nil]

/-- Taking the tags out leaves the stretches. -/
theorem flatten_stretches (w : Ink) : (stretches w).flatten = rewrite (fun _ => some []) w := by
  rw [stretches, flatten_between, rewrite, edits]
  exact congrArg (spliced weight w) (congrFun List.filterMap_eq_map (tags w)).symm

/-- A range between boundaries is a part of the ink. -/
theorem exists_split {i j : Nat} (hi : Text.Boundary w.text i) (hj : Text.Boundary w.text j)
    (hij : i ≤ j) : ∃ a b, w = a ++ excerpt weight 0 ⟨i, j⟩ w ++ b ∧ Text.size (text a) = i ∧
      Text.size (text a) + Text.size (text (excerpt weight 0 ⟨i, j⟩ w)) = j := by
  obtain ⟨ta, tm, tb, htext, ha, hm, -⟩ := Text.slice?_of_boundaries hi hj hij
  obtain ⟨am, b, rfl, ham, rfl⟩ := List.map_eq_append_iff.1 htext
  obtain ⟨a, m, rfl, rfl, rfl⟩ := List.map_eq_append_iff.1 ham
  have hexcerpt : excerpt weight 0 ⟨i, j⟩ (a ++ m ++ b) = m := by
    refine excerpt_mid weight_pos ?_ ?_
    · rw [extent_eq_size, Nat.zero_add]
      exact ha.symm
    · rw [extent_eq_size]
      exact (ha ▸ hm).symm
  rw [hexcerpt]
  exact ⟨a, b, rfl, ha, hm⟩

/-- A stretch is a range in which none of the tags lies. -/
theorem exists_range_of_mem_between {pos : Nat} {l : List Tag} (hl : l.Pairwise Tag.Before)
    (hpos : Text.Boundary w.text pos)
    (htags : ∀ tag ∈ l, pos ≤ tag.span.start ∧ tag.span.start ≤ tag.span.stop ∧
      Text.Boundary w.text tag.span.start ∧ Text.Boundary w.text tag.span.stop)
    (hu : u ∈ between w pos l) :
    ∃ i j, u = excerpt weight 0 ⟨i, j⟩ w ∧ pos ≤ i ∧ i ≤ j ∧ Text.Boundary w.text i ∧
      Text.Boundary w.text j ∧ ∀ tag ∈ l, tag.span.stop ≤ i ∨ j ≤ tag.span.start := by
  induction l generalizing pos with
  | nil =>
      rw [List.mem_singleton.1 hu, extent_eq_size]
      exact ⟨pos, _, rfl, Nat.le_refl _, hpos.le, hpos, Text.boundary_size _,
        fun _ htag => absurd htag List.not_mem_nil⟩
  | cons tag l ih =>
      obtain ⟨hbefore, hl⟩ := List.pairwise_cons.1 hl
      obtain ⟨hstart, hstop, hbstart, hbstop⟩ := htags tag (by simp)
      rcases List.mem_cons.1 hu with rfl | hu
      · refine ⟨pos, _, rfl, Nat.le_refl _, hstart, hpos, hbstart, fun tag' htag' => .inr ?_⟩
        rcases List.mem_cons.1 htag' with rfl | htag'
        · exact Nat.le_refl _
        · exact hstop.trans (hbefore tag' htag').1
      · have htags' : ∀ tag' ∈ l, tag.span.stop ≤ tag'.span.start ∧
            tag'.span.start ≤ tag'.span.stop ∧ Text.Boundary w.text tag'.span.start ∧
            Text.Boundary w.text tag'.span.stop :=
          fun tag' htag' => ⟨(hbefore tag' htag').1, (htags tag' (by simp [htag'])).2⟩
        obtain ⟨i, j, hu, hi, hij, hbi, hbj, hout⟩ := ih hl hbstop htags' hu
        refine ⟨i, j, hu, by omega, hij, hbi, hbj, fun tag' htag' => ?_⟩
        rcases List.mem_cons.1 htag' with rfl | htag'
        · exact .inl hi
        · exact hout tag' htag'

/-- **No tag that the template wrote** lies in a stretch. -/
theorem not_inscribes_of_mem_stretches (hu : u ∈ stretches w) (hv : v <:+: u) :
    ¬ Inscribes k v := by
  intro hinscribes
  have hsorted : (tags w).Pairwise Tag.Before := (Tag.pairwise_lex _).filter _
  have hspans : ∀ tag ∈ tags w, 0 ≤ tag.span.start ∧ tag.span.start ≤ tag.span.stop ∧
      Text.Boundary w.text tag.span.start ∧ Text.Boundary w.text tag.span.stop := by
    intro tag htag
    have hlex := (mem_tags.1 htag).1
    exact ⟨Nat.zero_le _, (Tag.lt_of_mem_lex hlex).le, Tag.boundary_of_mem_lex hlex⟩
  obtain ⟨i, j, rfl, -, hij, hi, hj, hout⟩ :=
    exists_range_of_mem_between hsorted (Text.boundary_zero _) hspans hu
  obtain ⟨a, b, hw, hsize, hsize'⟩ := exists_split hi hj hij
  obtain ⟨x, y, hxy⟩ := hv
  rw [← hxy] at hw hsize'
  simp only [text_append, Text.size_append] at hsize'
  have hne := List.length_pos_iff.2 hinscribes.1.ne_nil
  have hlen := Text.length_le_size (text v)
  -- the tag is one of the tags of the whole, and lies in the range
  have htag : (⟨k, ⟨Text.size (text (a ++ x)),
      Text.size (text (a ++ x)) + Text.size (text v)⟩⟩ : Tag) ∈ tags w :=
    mem_tags_iff.2 ⟨a ++ x, v, y ++ b, by rw [hw]; simp only [List.append_assoc], hinscribes, rfl⟩
  rcases hout _ htag with hstop | hstart
  · simp only [text_append, Text.size_append] at hstop
    omega
  · simp only [text_append, Text.size_append] at hstart
    omega

end Ink

end TagTemplate
