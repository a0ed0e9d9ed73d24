import TagTemplate.Proofs.Marked.Ink

/-!
# Inscribed tags

A tag of marked text counts if the template wrote it: all of it, or, of a link,
the mark that opens it and the braces that close it. Whether a part of an ink
is such a tag depends on that part alone, data around it or not. `Inscribes`
says it of the part, and `tags` finds exactly the inscribed parts.

`rewrite` replaces the inscribed tags of some kinds. Values, links and the
final removal of tags are rewritings, and a rewriting splits wherever no tag
that it replaces reaches over the place: `rewrite_append`.
-/

namespace TagTemplate

open Tag (Kind Spells)

/-! ## The shape of links -/

namespace Tag

theorem not_isLink_named {form : Form} (hform : form ≠ .link) {allowed : Char → Bool}
    {make : Text → Kind} (hmake : ∀ t, (make t).isLink = false) (name : Text) :
    (named form allowed make name).isLink = false := by
  simp only [named]
  split
  · cases form <;> simp_all [Kind.isLink]
  · split
    · exact hmake name
    · cases form <;> simp_all [Kind.isLink]

theorem classifyDirective_link_of_isLink {rest : Text} {k : Kind}
    (h : classifyDirective rest = some k) (hk : k.isLink = true) :
    ∃ url, rest = "link:".toList ++ url ∧
      k = if url.isEmpty then .malformed .link .emptyUrl else .link url := by
  simp only [classifyDirective] at h
  split at h
  · cases h
    cases hk
  split at h
  · cases h
    cases hk
  split at h
  · cases h
    cases hk
  split at h
  · cases h
    rw [not_isLink_named (by decide) fun _ => rfl] at hk
    cases hk
  split at h
  · cases h
    rw [not_isLink_named (by decide) fun _ => rfl] at hk
    cases hk
  split at h
  next url hurl => exact ⟨url, Text.isPrefixOf?_eq_some_iff.1 hurl, (Option.some.inj h).symm⟩
  · cases h

theorem classify_link_of_isLink {i : Text} {k : Kind} (h : classify i = some k)
    (hk : k.isLink = true) : ∃ url, i = "#link:".toList ++ url ∧
      k = if url.isEmpty then .malformed .link .emptyUrl else .link url := by
  unfold classify at h
  split at h
  · cases h
  split at h
  · cases h
    rw [not_isLink_named (by decide) fun _ => rfl] at hk
    cases hk
  next rest =>
    obtain ⟨url, rfl, hurl⟩ := classifyDirective_link_of_isLink h hk
    exact ⟨url, rfl, hurl⟩
  · split at h
    · cases h
      cases hk
    · cases h

theorem Spells.link_shape {k : Kind} {w : Text} (h : Spells k w) (hk : k.isLink = true) :
    ∃ url, w = linkMark ++ url ++ closeMark := by
  obtain ⟨i, rfl, hi, -⟩ := h
  obtain ⟨url, rfl, -⟩ := classify_link_of_isLink hi hk
  exact ⟨url, by simp [linkMark]⟩

end Tag

/-- The ranges of a tag of some kind and size that have to be template text, the tag beginning
at byte zero. -/
def judged (k : Kind) (size : Nat) : List Span :=
  if k.isLink then
    [⟨0, Text.size Tag.linkMark⟩, ⟨size - Text.size Tag.closeMark, size⟩]
  else [⟨0, size⟩]

theorem judged_of_spells {k : Kind} {w : Text} (h : Spells k w) {s : Span}
    (hs : s ∈ judged k (Text.size w)) :
    s.start < s.stop ∧ s.stop ≤ Text.size w ∧ Text.Boundary w s.start := by
  have hpos : 0 < Text.size w := by
    have := List.length_pos_iff.2 h.ne_nil
    have := Text.length_le_size w
    omega
  simp only [judged] at hs
  split at hs
  next hk =>
    obtain ⟨url, rfl⟩ := h.link_shape hk
    have hclose : Text.size Tag.closeMark = 2 := by decide
    have hopen : Text.size Tag.linkMark = 8 := by decide
    simp only [List.mem_cons, List.not_mem_nil, or_false] at hs
    rcases hs with rfl | rfl
    · refine ⟨by simp [hopen], by simp only [Text.size_append]; omega, Text.boundary_zero _⟩
    · refine ⟨by simp only; omega, Nat.le_refl _, Tag.linkMark ++ url, Tag.closeMark, rfl, ?_⟩
      simp only [Text.size_append]
      omega
  next hk =>
    rw [List.mem_singleton.1 hs]
    exact ⟨hpos, Nat.le_refl _, Text.boundary_zero w⟩

namespace Ink

/-- Whether the template wrote a tag. -/
def wrote (w : Ink) (tag : Tag) : Bool :=
  (judged tag.kind (tag.span.stop - tag.span.start)).all fun s =>
    isTemplate (excerpt weight 0 (s.shift tag.span.start) w)

/-- The tags that the template wrote. -/
def tags (w : Ink) : List Tag := (Tag.lex w.text).filter w.wrote

/-- An ink that is a tag of a kind, written by the template, and nothing more. -/
def Inscribes (k : Kind) (v : Ink) : Prop :=
  Spells k v.text ∧
    (judged k (Text.size v.text)).all (fun s => isTemplate (excerpt weight 0 s v)) = true

theorem mem_tags {w : Ink} {tag : Tag} :
    tag ∈ tags w ↔ tag ∈ Tag.lex w.text ∧ wrote w tag = true := List.mem_filter

/-- The judged ranges of a tag lie in it. -/
theorem le_of_mem_judged {t : Text} {tag : Tag} (h : tag ∈ Tag.lex t) {s : Span}
    (hs : s ∈ judged tag.kind (tag.span.stop - tag.span.start)) :
    s.start < s.stop ∧ s.stop + tag.span.start ≤ tag.span.stop ∧
      Text.Boundary t (s.start + tag.span.start) := by
  obtain ⟨a, w, b, rfl, hw, hspan⟩ := Tag.mem_lex_iff.1 h
  rw [hspan] at hs ⊢
  simp only [Nat.add_sub_cancel_left] at hs
  obtain ⟨hlt, hle, x, y, hxy, hx⟩ := judged_of_spells hw hs
  refine ⟨hlt, by simp only; omega, a ++ x, y ++ b, by simp [hxy], ?_⟩
  rw [Text.size_append, hx, Nat.add_comm]

theorem wrote_append_left {a b : Ink} {tag : Tag} (h : tag ∈ Tag.lex a.text) :
    wrote (a ++ b) tag = wrote a tag := by
  rw [wrote, wrote, Bool.eq_iff_iff, List.all_eq_true, List.all_eq_true]
  apply forall₂_congr
  intro s hs
  obtain ⟨-, hle, -⟩ := le_of_mem_judged h hs
  have hstop := Tag.stop_le_of_mem_lex h
  simp only [Span.shift]
  rw [excerpt_append_left (by rw [extent_eq_size]; omega)]

theorem wrote_append_right (a b : Ink) (tag : Tag) :
    wrote (a ++ b) (tag.shift (Text.size a.text)) = wrote b tag := by
  simp only [wrote, Tag.shift, Span.shift, Nat.add_sub_add_right]
  apply List.all_congr rfl
  intro s
  rw [← extent_eq_size, ← Nat.add_assoc, ← Nat.add_assoc, excerpt_append_right weight_pos]

/-- **The inscribed tags** of an ink are the parts of it that inscribe one. -/
theorem mem_tags_iff {w : Ink} {tag : Tag} :
    tag ∈ tags w ↔ ∃ a v b, w = a ++ v ++ b ∧ Inscribes tag.kind v ∧
      tag.span = ⟨Text.size a.text, Text.size a.text + Text.size v.text⟩ := by
  have hpart : ∀ (a v b : Ink) (k : Kind), Spells k v.text →
      wrote (a ++ v ++ b)
        ⟨k, ⟨Text.size a.text, Text.size a.text + Text.size v.text⟩⟩ =
        (judged k (Text.size v.text)).all fun s => isTemplate (excerpt weight 0 s v) := by
    intro a v b k hv
    have hmem : (⟨k, ⟨Text.size a.text, Text.size a.text + Text.size v.text⟩⟩ : Tag) ∈
        Tag.lex (text (a ++ v)) :=
      Tag.mem_lex_iff.2 ⟨a.text, v.text, [], by simp, hv, rfl⟩
    have hshift : (⟨k, ⟨Text.size a.text, Text.size a.text + Text.size v.text⟩⟩ : Tag) =
        Tag.shift ⟨k, ⟨0, Text.size v.text⟩⟩ (Text.size a.text) := by
      simp [Tag.shift, Span.shift, Nat.add_comm]
    rw [wrote_append_left hmem, hshift, wrote_append_right]
    simp [wrote, Span.shift]
  rw [mem_tags, Tag.mem_lex_iff]
  obtain ⟨k, span⟩ := tag
  constructor
  · intro hex
    obtain ⟨⟨ta, tv, tb, htext, hv, rfl⟩, hwrote⟩ := hex
    obtain ⟨av, b, rfl, hav, rfl⟩ := List.map_eq_append_iff.1 htext
    obtain ⟨a, v, rfl, rfl, rfl⟩ := List.map_eq_append_iff.1 hav
    exact ⟨a, v, b, rfl, ⟨hv, (hpart a v b k hv).symm.trans hwrote⟩, rfl⟩
  · intro hex
    obtain ⟨a, v, b, rfl, ⟨hv, hwrote⟩, rfl⟩ := hex
    exact ⟨⟨a.text, v.text, b.text, by simp, hv, rfl⟩, (hpart a v b k hv).trans hwrote⟩

end Ink

end TagTemplate
