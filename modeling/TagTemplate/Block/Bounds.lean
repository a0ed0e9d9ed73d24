import TagTemplate.Block

/-!
# Where blocks begin

The parts of a block begin behind tags of the text: its body behind its opening
tag, the part after its else tag behind that. So a part of a block is shorter
than the text that the block is found in, which ends every recursion into the
parts of blocks.
-/

namespace TagTemplate.Block

/-- A mark has the place of a tag, and the role of the tag's kind. -/
theorem exists_tag_of_mem_marks {family : Family} {tags : List Tag} {m : Mark}
    (h : m ∈ marks family tags) :
    ∃ tag ∈ tags, role? family tag.kind = some m.role ∧ tag.span = m.span := by
  obtain ⟨tag, htag, hmark⟩ := List.mem_filterMap.1 h
  obtain ⟨role, hrole, rfl⟩ := Option.map_eq_some_iff.1 hmark
  exact ⟨tag, htag, hrole, rfl⟩

/-- An open block whose tags are among some ranges. -/
def Pending.From (spans : List Span) (p : Pending) : Prop :=
  p.opener ∈ spans ∧ ∀ d ∈ p.divider, d ∈ spans

/-- A block whose parts begin where some of the ranges end. -/
def From (spans : List Span) (b : Block) : Prop :=
  (∃ s ∈ spans, b.body.start = s.stop) ∧ ∀ a ∈ b.alternative, ∃ s ∈ spans, a.start = s.stop

/-- A scan all of whose blocks have their tags among some ranges. -/
def Progress.From (spans : List Span) (s : Progress) : Prop :=
  (∀ p ∈ s.pending, p.From spans) ∧ ∀ b ∈ s.done, b.From spans

variable {spans : List Span} {family : Family} {policy : Policy} {text : Text}

theorem Pending.From.close {p : Pending} (h : p.From spans) (closer : Span) :
    (p.close closer).From spans := by
  obtain ⟨ho, hd⟩ := h
  cases hp : p.divider with
  | none => exact ⟨⟨p.opener, ho, by simp [Pending.close, hp]⟩, by simp [Pending.close, hp]⟩
  | some d =>
      refine ⟨⟨p.opener, ho, by simp [Pending.close, hp]⟩, ?_⟩
      intro a ha
      refine ⟨d, hd d hp, ?_⟩
      simp only [Pending.close, hp, Option.mem_def, Option.some.injEq] at ha
      rw [← ha]

theorem Progress.From.step {s s' : Progress} {m : Mark} (hs : s.From spans) (hm : m.span ∈ spans)
    (h : s.step family policy text m = .ok s') : s'.From spans := by
  obtain ⟨hp, hb⟩ := hs
  have skip : ∀ d, (report policy text m.span.start d).map (fun _ => s) = .ok s' →
      s'.From spans := by
    intro d hd
    cases hr : report policy text m.span.start d with
    | error e => simp [hr, Except.map] at hd
    | ok u =>
        simp only [hr, Except.map, Except.ok.injEq] at hd
        exact hd ▸ ⟨hp, hb⟩
  simp only [Progress.step] at h
  split at h
  · cases h
    refine ⟨?_, hb⟩
    intro p hmem
    rcases List.mem_cons.1 hmem with rfl | hmem
    · exact ⟨hm, by simp⟩
    · exact hp p hmem
  · exact skip _ h
  next top rest _ hpend =>
    rw [hpend] at hp
    split at h
    · cases h
      refine ⟨?_, hb⟩
      intro p hmem
      rcases List.mem_cons.1 hmem with rfl | hmem
      · refine ⟨(hp top (by simp)).1, ?_⟩
        intro d hd
        cases hd
        exact hm
      · exact hp p (List.mem_cons_of_mem _ hmem)
    · exact skip _ h
  · exact skip _ h
  next top _ hpend =>
    rw [hpend] at hp
    cases h
    refine ⟨by simp, ?_⟩
    intro b hmem
    rcases List.mem_append.1 hmem with hmem | hmem
    · exact hb b hmem
    · rw [List.mem_singleton.1 hmem]
      exact (hp top (by simp)).close m.span
  next hpend =>
    cases h
    refine ⟨?_, hb⟩
    intro p hmem
    exact hp p (by rw [hpend]; exact List.mem_cons_of_mem _ hmem)
  · exact skip _ h

theorem Progress.From.run {s s' : Progress} {ms : List Mark} (hs : s.From spans)
    (hm : ∀ m ∈ ms, m.span ∈ spans) (h : s.run family policy text ms = .ok s') :
    s'.From spans := by
  induction ms generalizing s with
  | nil => cases h; exact hs
  | cons m ms ih =>
      simp only [Progress.run] at h
      split at h
      · cases h
      next s₁ h₁ =>
        exact ih (hs.step (hm m (by simp)) h₁) (fun m' hm' => hm m' (by simp [hm'])) h

theorem From.of_findWithin {scans : Nat} {ms : List Mark} {found : List Block}
    (hm : ∀ m ∈ ms, m.span ∈ spans)
    (h : findWithin family policy text scans ms = .ok (some found)) :
    ∀ b ∈ found, b.From spans := by
  induction scans generalizing ms with
  | zero => simp [findWithin] at h
  | succ scans ih =>
      simp only [findWithin] at h
      split at h
      · cases h
      next s hs =>
        have hfrom : s.From spans :=
          Progress.From.run (s := Progress.start)
            ⟨by simp [Progress.start], by simp [Progress.start]⟩
            hm hs
        split at h
        · cases h
          exact hfrom.2
        · split at h
          · cases h
          · exact ih (fun m hmem => hm m (List.mem_filter.1 hmem).1) h

/-- The parts of the blocks of a text begin behind tags of the text. -/
theorem From.of_find {found : List Block} (h : find family policy text = .ok found) :
    ∀ b ∈ found, b.From ((Tag.lex text).map Tag.span) := by
  simp only [find] at h
  cases hf : findWithin family policy text
      ((marks family (Tag.lex text)).countP Mark.isOpener + 1) (marks family (Tag.lex text)) with
  | error e => simp [hf, Except.map] at h
  | ok r =>
      simp only [hf, Except.map, Except.ok.injEq] at h
      cases r with
      | none => rw [← h]; simp
      | some bs =>
          rw [← h]
          refine From.of_findWithin ?_ hf
          intro m hmem
          obtain ⟨tag, htag, -, hspan⟩ := exists_tag_of_mem_marks hmem
          exact List.mem_map.2 ⟨tag, htag, hspan⟩

/-- A range that begins behind a tag has fewer characters than the text. -/
theorem length_slice_lt_of_lex {a : Span}
    (h : ∃ s ∈ (Tag.lex text).map Tag.span, a.start = s.stop) :
    (Text.slice text a).length < text.length := by
  obtain ⟨s, hs, ha⟩ := h
  obtain ⟨tag, htag, rfl⟩ := List.mem_map.1 hs
  have := Tag.four_le_of_mem_lex htag
  refine Text.length_slice_lt ?_ (by omega)
  rintro rfl
  simp [Tag.lex, Tag.scan] at htag

end TagTemplate.Block
