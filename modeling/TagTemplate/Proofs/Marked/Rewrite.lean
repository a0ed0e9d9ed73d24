import TagTemplate.Proofs.Marked.Inscription

/-!
# Rewriting inscribed tags

Two inks are parted, for the tags of some kinds, if no such tag reaches over the
place where they meet. This holds where a tag begins or ends, and also where one
side has no brace of the template that the tag could open or close with.

A rewriting replaces every inscribed tag of some kinds. Over parted inks it is
done on each side, on a tag alone it is the replacement, and where no tag is to
be replaced it changes nothing. The steps of a render after the loops are
rewritings: `marks_splice_tags`.
-/

namespace TagTemplate.Ink

open Tag (Kind Spells)

/-- No inscribed tag of a kind with `p` reaches over the place where two inks meet. -/
def Parted (p : Kind → Bool) (a b : Ink) : Prop :=
  ∀ k x v y, p k = true → Inscribes k v → a ++ b = x ++ v ++ y →
    x.length + v.length ≤ a.length ∨ a.length ≤ x.length

/-! ## Where inks are parted -/

theorem Parted.mono {p q : Kind → Bool} {a b : Ink} (h : Parted q a b)
    (hpq : ∀ k, p k = true → q k = true) : Parted p a b :=
  fun k x v y hk => h k x v y (hpq k hk)

theorem length_text (w : Ink) : w.text.length = w.length := List.length_map _

/-- Behind closing braces. -/
theorem parted_of_close (p : Kind → Bool) {a b : Ink} {z : Text}
    (ha : a.text = z ++ Tag.closeMark) : Parted p a b := by
  intro k x v y _ hv heq
  have htext := congrArg text heq
  simp only [text_append] at htext
  rcases List.append_eq_append_iff.1 heq with ⟨u, hu, -⟩ | ⟨u, rfl, -⟩
  · -- the tag ends behind the place, so the braces end before it
    rcases eq_or_ne u [] with rfl | hne
    · left
      have := congrArg List.length hu
      simp only [List.length_append, List.length_nil] at this
      omega
    · right
      have hclose : x.text ++ v.text = z ++ Tag.closeMark ++ text u := by
        rw [← ha, ← text_append, ← text_append, hu]
      have := hv.1.close_apart hclose (by simpa [text] using hne)
      have hlen := congrArg List.length ha
      rw [length_text, List.length_append] at hlen
      rw [length_text] at this
      simp only [Tag.closeMark, List.length_cons, List.length_nil] at hlen
      omega
  · left
    simp only [List.length_append]
    omega

/-- Before opening braces. -/
theorem parted_of_open (p : Kind → Bool) {a b : Ink} {z : Text}
    (hb : b.text = Tag.openMark ++ z) : Parted p a b := by
  intro k x v y _ hv heq
  rw [List.append_assoc] at heq
  rcases List.append_eq_append_iff.1 heq with ⟨u, rfl, -⟩ | ⟨u, rfl, hu⟩
  · right
    simp
  · have hopen : v.text ++ y.text = text u ++ Tag.openMark ++ z := by
      rw [List.append_assoc, ← hb, ← text_append, ← text_append, hu]
    rcases hv.1.open_apart hopen with hnil | hle
    · right
      have : u = [] := by simpa [text] using hnil
      simp [this]
    · left
      rw [length_text, length_text] at hle
      simp only [List.length_append]
      omega

/-- A tag starts with a brace of the template. -/
theorem Inscribes.head {k : Kind} {v : Ink} (h : Inscribes k v) :
    ∃ v', v = ('{', .template) :: v' := by
  obtain ⟨hspell, hjudged⟩ := h
  obtain ⟨i, hi, -, -⟩ := hspell
  cases v with
  | nil => simp [Tag.openMark] at hi
  | cons c v =>
      obtain ⟨c, o⟩ := c
      have hc : c = '{' := (List.cons.inj hi).1
      subst hc
      have hrange : ∃ s ∈ judged k (Text.size (text (('{', o) :: v))),
          s.start = 0 ∧ 0 < s.stop := by
        simp only [judged]
        split
        · exact ⟨_, List.mem_cons_self, rfl, by decide⟩
        · refine ⟨_, List.mem_cons_self, rfl, ?_⟩
          have := '{'.utf8Size_pos
          simp only [text, List.map_cons, Text.size_cons]
          omega
      obtain ⟨s, hs, hstart, hstop⟩ := hrange
      have htemplate := List.all_eq_true.1 hjudged s hs
      rw [excerpt, if_pos ⟨by omega, hstop⟩] at htemplate
      simp only [isTemplate, List.all_cons, Bool.and_eq_true, decide_eq_true_eq] at htemplate
      exact ⟨v, by rw [htemplate.1]⟩

theorem eq_ofText_of_isTemplate {w : Ink} (h : isTemplate w = true) :
    w = ofText .template w.text := by
  induction w with
  | nil => rfl
  | cons c w ih =>
      simp only [isTemplate, List.all_cons, Bool.and_eq_true, decide_eq_true_eq] at h
      obtain ⟨c, o⟩ := c
      obtain ⟨rfl, hw⟩ := h
      exact congrArg _ (ih hw)

/-- A tag ends with braces of the template. -/
theorem Inscribes.last {k : Kind} {v : Ink} (h : Inscribes k v) :
    ∃ v', v = v' ++ ofText .template Tag.closeMark := by
  obtain ⟨hspell, hjudged⟩ := h
  obtain ⟨i, hi, -, -⟩ := hspell
  obtain ⟨v, c, rfl, -, hc⟩ := List.map_eq_append_iff.1 hi
  change text c = Tag.closeMark at hc
  have htwo : Text.size Tag.closeMark = 2 := by decide
  have hsize : Text.size (text (v ++ c)) = extent weight v + 2 := by
    rw [text_append, Text.size_append, hc, htwo, extent_eq_size]
  have hrange : ∃ s ∈ judged k (Text.size (text (v ++ c))),
      s.start ≤ extent weight v ∧ extent weight v + 2 ≤ s.stop := by
    simp only [judged, hsize, htwo]
    split
    · exact ⟨_, List.mem_cons_of_mem _ List.mem_cons_self, by simp only; omega⟩
    · exact ⟨_, List.mem_cons_self, by simp only; omega⟩
  obtain ⟨s, hs, hstart, hstop⟩ := hrange
  have htemplate := List.all_eq_true.1 hjudged s hs
  have hextent : extent weight c = 2 := by rw [extent_eq_size, hc, htwo]
  rw [excerpt_append, Nat.zero_add, isTemplate_append, Bool.and_eq_true,
    excerpt_eq_self weight_pos hstart (by omega)] at htemplate
  exact ⟨v, by rw [eq_ofText_of_isTemplate htemplate.2, hc]⟩

/-- Behind an ink without an opening brace of the template. -/
theorem parted_of_left (p : Kind → Bool) {a : Ink} (b : Ink)
    (ha : ('{', .template) ∉ a) : Parted p a b := by
  intro k x v y _ hv heq
  right
  obtain ⟨v', rfl⟩ := hv.head
  rw [List.append_assoc] at heq
  rcases List.append_eq_append_iff.1 heq with ⟨u, rfl, -⟩ | ⟨u, rfl, hu⟩
  · simp
  · cases u with
    | nil => simp
    | cons c u =>
        obtain ⟨rfl, -⟩ := List.cons.inj hu
        exact absurd (by simp) ha

/-- Before an ink without a closing brace of the template. -/
theorem parted_of_right (p : Kind → Bool) (a : Ink) {b : Ink}
    (hb : ('}', .template) ∉ b) : Parted p a b := by
  intro k x v y _ hv heq
  left
  obtain ⟨v', rfl⟩ := hv.last
  rw [show Ink.ofText .template Tag.closeMark = [('}', .template)] ++ [('}', .template)] from rfl,
    ← List.append_assoc] at heq ⊢
  rcases List.append_eq_append_iff.1 heq with ⟨u, hu, rfl⟩ | ⟨u, rfl, -⟩
  · rcases List.eq_nil_or_concat' u with rfl | ⟨u, c, rfl⟩
    · have := congrArg List.length hu
      simp only [List.length_append, List.length_nil] at this ⊢
      omega
    · rw [← List.append_assoc, ← List.append_assoc] at hu
      obtain ⟨-, hc⟩ := List.append_inj' hu rfl
      rw [← hc] at hb
      exact absurd (by simp) hb
  · simp only [List.length_append]
    omega

/-- A tag that is no link is template text throughout. -/
theorem Inscribes.isTemplate {k : Kind} {v : Ink} (h : Inscribes k v) (hk : k.isLink = false) :
    Ink.isTemplate v = true := by
  have hjudged := List.all_eq_true.1 h.2 ⟨0, Text.size v.text⟩ (by simp [judged, hk])
  rwa [excerpt_eq_self weight_pos (Nat.le_refl _) (by rw [extent_eq_size, Nat.zero_add])] at hjudged

/-- Where two origins meet, for tags that are no links. -/
theorem parted_of_origin {p : Kind → Bool} {a b : Ink} {c d : Char × Origin}
    (hp : ∀ k, p k = true → k.isLink = false) (hcd : c.2 ≠ d.2) :
    Parted p (a ++ [c]) (d :: b) := by
  intro k x v y hk hv heq
  by_contra hover
  rw [not_or, Nat.not_le, Nat.not_le] at hover
  -- a tag that reaches over the place holds both characters
  have hmem : ∀ e ∈ ([c, d] : Ink), e ∈ v := by
    simp only [List.length_append, List.length_cons, List.length_nil] at hover
    rw [List.append_assoc, List.append_assoc] at heq
    obtain ⟨a', rfl⟩ : x <+: a :=
      List.prefix_of_prefix_length_le ⟨v ++ y, heq.symm⟩ ⟨_, rfl⟩ (by omega)
    rw [List.append_assoc] at heq
    have hrest := List.append_cancel_left heq
    obtain ⟨v', rfl⟩ : a' ++ [c, d] <+: v := by
      refine List.prefix_of_prefix_length_le ⟨b, by simp⟩ ⟨y, hrest.symm⟩ ?_
      simp only [List.length_append, List.length_cons, List.length_nil] at hover ⊢
      omega
    intro e he
    exact List.mem_append_left _ (List.mem_append_right _ he)
  have htemplate := List.all_eq_true.1 (hv.isTemplate (hp k hk))
  have hc := htemplate c (hmem c (by simp))
  have hd := htemplate d (hmem d (by simp))
  simp only [decide_eq_true_eq] at hc hd
  exact hcd (hc.trans hd.symm)

/-! ## Tags of parted inks -/

theorem filter_tags_append {p : Kind → Bool} {a b : Ink} (h : Parted p a b) :
    (tags (a ++ b)).filter (fun tag => p tag.kind) =
      (tags a).filter (fun tag => p tag.kind) ++
        ((tags b).filter fun tag => p tag.kind).map (Tag.shift · (Text.size a.text)) := by
  have hleft : (Tag.lex a.text).filter (fun tag => p tag.kind && wrote (a ++ b) tag) =
      (Tag.lex a.text).filter (fun tag => p tag.kind && wrote a tag) :=
    List.filter_congr fun tag htag => by rw [wrote_append_left htag]
  have hright : ((Tag.lex b.text).map (Tag.shift · (Text.size a.text))).filter
      (fun tag => p tag.kind && wrote (a ++ b) tag) =
      ((Tag.lex b.text).filter fun tag => p tag.kind && wrote b tag).map
        (Tag.shift · (Text.size a.text)) := by
    rw [List.filter_map]
    congr 1
    apply List.filter_congr
    intro tag _
    simp only [Function.comp_apply, wrote_append_right]
    rfl
  simp only [tags, List.filter_filter, text_append]
  rw [Tag.filter_lex_append, hleft, hright]
  intro tag htag hq
  rw [Bool.and_eq_true] at hq
  have hmem : tag ∈ tags (a ++ b) := mem_tags.2 ⟨by rwa [text_append], hq.2⟩
  obtain ⟨x, v, y, heq, hv, hspan⟩ := mem_tags_iff.1 hmem
  rw [hspan]
  rcases h tag.kind x v y hq.1 hv heq with hle | hle
  · left
    obtain ⟨z, rfl⟩ : x ++ v <+: a :=
      List.prefix_of_prefix_length_le ⟨y, heq.symm⟩ ⟨b, rfl⟩ (by rwa [List.length_append])
    simp only [text_append, Text.size_append]
    omega
  · right
    rw [List.append_assoc] at heq
    obtain ⟨z, rfl⟩ : a <+: x := List.prefix_of_prefix_length_le ⟨b, heq⟩ ⟨v ++ y, rfl⟩ hle
    simp only [text_append, Text.size_append]
    omega

/-- The tag of an ink that inscribes it. -/
theorem tags_of_inscribes {k : Kind} {v : Ink} (h : Inscribes k v) :
    tags v = [⟨k, ⟨0, Text.size v.text⟩⟩] := by
  have hlex : Tag.lex v.text = [⟨k, ⟨0, Text.size v.text⟩⟩] := by
    have := Tag.scan_spells h.1 0 []
    rw [List.append_nil, Nat.zero_add] at this
    exact this
  have hwrote : wrote v ⟨k, ⟨0, Text.size v.text⟩⟩ = true := by
    simpa [wrote, Span.shift] using h.2
  rw [tags, hlex, List.filter_cons, if_pos hwrote, List.filter_nil]

theorem tags_eq_nil_of_left {w : Ink} (h : ('{', .template) ∉ w) : tags w = [] := by
  apply List.eq_nil_iff_forall_not_mem.2
  intro tag htag
  obtain ⟨a, v, b, rfl, hv, -⟩ := mem_tags_iff.1 htag
  obtain ⟨v', rfl⟩ := hv.head
  exact h (by simp)

theorem tags_eq_nil_of_right {w : Ink} (h : ('}', .template) ∉ w) : tags w = [] := by
  apply List.eq_nil_iff_forall_not_mem.2
  intro tag htag
  obtain ⟨a, v, b, rfl, hv, -⟩ := mem_tags_iff.1 htag
  obtain ⟨v', rfl⟩ := hv.last
  exact h (by simp [ofText, Tag.closeMark])

/-! ## Rewriting -/

/-- The edits of an ink that replace its tags, those of the kinds that `f` has something for. -/
def edits (f : Kind → Option Ink) (w : Ink) : List (Span × Ink) :=
  (tags w).filterMap fun tag => (f tag.kind).map fun r => (tag.span, r)

/-- The ink with its tags replaced, those of the kinds that `f` has something for. -/
def rewrite (f : Kind → Option Ink) (w : Ink) : Ink := spliced weight w (edits f w)

theorem edits_eq_filter (f : Kind → Option Ink) (w : Ink) :
    edits f w = ((tags w).filter fun tag => (f tag.kind).isSome).filterMap
      fun tag => (f tag.kind).map fun r => (tag.span, r) := by
  rw [edits, List.filterMap_filter]
  apply List.filterMap_congr
  intro tag _
  cases f tag.kind <;> rfl

theorem edits_append {f : Kind → Option Ink} {a b : Ink}
    (h : Parted (fun k => (f k).isSome) a b) :
    edits f (a ++ b) = edits f a ++ shiftEdits (extent weight a) (edits f b) := by
  rw [edits_eq_filter, filter_tags_append h, List.filterMap_append, ← edits_eq_filter,
    edits_eq_filter f b, shiftEdits, List.filterMap_map, List.map_filterMap, extent_eq_size]
  congr 1
  apply List.filterMap_congr
  intro tag _
  simp only [Function.comp_apply, Tag.shift]
  cases f tag.kind <;> rfl

/-- The ranges of some tags of a text. -/
theorem spansWithin_of_sublist {t : Text} {l : List Tag} (hl : l.Sublist (Tag.lex t)) :
    SpansWithin (Text.size t) 0 (l.map Tag.span) := by
  refine spansWithin_of_pairwise (List.pairwise_map.2 (((Tag.pairwise_lex t).sublist hl).imp
    fun h => h.1)) (fun s hs => ?_) (Nat.zero_le _)
  obtain ⟨tag, htag, rfl⟩ := List.mem_map.1 hs
  have hstop := Tag.stop_le_of_mem_lex (hl.subset htag)
  have hlt := Tag.lt_of_mem_lex (hl.subset htag)
  omega

/-- Some tags of a text lie in it one behind the other, between characters. -/
theorem spansFit_of_sublist {t : Text} {l : List Tag} (hl : l.Sublist (Tag.lex t)) :
    Text.SpansFit t 0 (l.map Tag.span) := by
  refine Text.spansFit_of_within (spansWithin_of_sublist hl) (Text.boundary_zero t) fun s hs => ?_
  obtain ⟨tag, htag, rfl⟩ := List.mem_map.1 hs
  exact Tag.boundary_of_mem_lex (hl.subset htag)

/-- So do edits that replace some of the tags where they stand. -/
theorem spansFit_filterMap {α : Type} {t : Text} {l : List Tag} (hl : l.Sublist (Tag.lex t))
    {g : Tag → Option (Span × α)} (hg : ∀ tag, ∀ e ∈ g tag, e.1 = tag.span) :
    Text.SpansFit t 0 ((l.filterMap g).map Prod.fst) := by
  have hspans : (l.filterMap g).map Prod.fst =
      (l.filter fun tag => (g tag).isSome).map Tag.span := by
    clear hl
    induction l with
    | nil => rfl
    | cons tag l ih =>
        cases htag : g tag with
        | none => simp [htag, ih]
        | some e => simp [htag, ih, hg tag e htag]
  rw [hspans]
  exact spansFit_of_sublist (List.filter_sublist.trans hl)

theorem span_of_mem_map {α : Type} (f : Kind → Option α) (tag : Tag) :
    ∀ e ∈ (f tag.kind).map fun r => (tag.span, r), e.1 = tag.span := by
  intro e he
  obtain ⟨r, -, rfl⟩ := Option.map_eq_some_iff.1 he
  rfl

theorem spansWithin_edits (f : Kind → Option Ink) (w : Ink) :
    SpansWithin (extent weight w) 0 ((edits f w).map Prod.fst) := by
  rw [extent_eq_size]
  exact (spansFit_filterMap List.filter_sublist (span_of_mem_map f)).within

/-- **A rewriting splits** over inks that are parted for the tags it replaces. -/
theorem rewrite_append {f : Kind → Option Ink} {a b : Ink}
    (h : Parted (fun k => (f k).isSome) a b) : rewrite f (a ++ b) = rewrite f a ++ rewrite f b := by
  rw [rewrite, edits_append h, spliced_append weight_pos (spansWithin_edits f a)]
  rfl

theorem rewrite_of_inscribes {k : Kind} {v : Ink} (f : Kind → Option Ink) (h : Inscribes k v) :
    rewrite f v = (f k).getD v := by
  rw [rewrite, edits, tags_of_inscribes h, ← extent_eq_size]
  cases hf : f k with
  | none =>
      rw [List.filterMap_cons_none (by simp only [hf]; rfl)]
      exact spliced_nil weight_pos v
  | some r =>
      rw [List.filterMap_cons_some (by simp only [hf]; rfl)]
      exact spliced_whole weight_pos v r

theorem rewrite_eq_self {f : Kind → Option Ink} {w : Ink}
    (h : ∀ tag ∈ tags w, f tag.kind = none) : rewrite f w = w := by
  have hnil : edits f w = [] :=
    List.filterMap_eq_nil_iff.2 fun tag htag => by rw [h tag htag]; rfl
  rw [rewrite, hnil]
  exact spliced_nil weight_pos w

end TagTemplate.Ink

/-! ## The steps of a render -/

namespace TagTemplate.Marked

open Tag (Kind)

theorem wrote_eq {m : Marked} (hm : Separate m.pieces) {tag : Tag} (h : tag ∈ Tag.lex m.text) :
    m.wrote tag = Ink.wrote m.marks tag := by
  have hfour := Tag.four_le_of_mem_lex h
  have hrange : ∀ s ∈ judged tag.kind (tag.span.stop - tag.span.start),
      Ink.isTemplate (excerpt Ink.weight 0 (s.shift tag.span.start) m.marks) =
        m.isTemplate (s.shift tag.span.start) := by
    intro s hs
    obtain ⟨hlt, -, hstart⟩ := Ink.le_of_mem_judged h hs
    exact (isTemplate_eq hm hstart (by show _ < _; omega)).symm
  have htwo : Text.size Tag.closeMark = 2 := by decide
  rw [wrote, Ink.wrote]
  simp only [judged] at hrange ⊢
  split
  next hk =>
    rw [if_pos hk] at hrange
    rw [List.all_cons, List.all_cons, List.all_nil, hrange _ (by simp), hrange _ (by simp)]
    simp only [Span.shift, htwo, Nat.zero_add, Bool.and_true]
    rw [Nat.add_comm (Text.size Tag.linkMark), Nat.sub_add_cancel (by omega),
      show tag.span.stop - tag.span.start - 2 + tag.span.start = tag.span.stop - 2 by omega]
  next hk =>
    rw [if_neg hk] at hrange
    rw [List.all_cons, List.all_nil, hrange _ (by simp)]
    simp only [Span.shift, Nat.zero_add, Bool.and_true]
    rw [Nat.sub_add_cancel (by omega)]

/-- The tags that the template wrote are the inscribed tags of the ink. -/
theorem tags_eq {m : Marked} (hm : Separate m.pieces) : m.tags = Ink.tags m.marks := by
  rw [tags, Ink.tags, ← text_eq]
  exact List.filter_congr fun tag htag => wrote_eq hm htag

theorem marks_splice_tags {m : Marked} (hm : Separate m.pieces) (g : Kind → Option Piece) :
    (m.splice (m.tags.filterMap fun tag => (g tag.kind).map fun p => (tag.span, p))).marks =
      Ink.rewrite (fun k => (g k).map Piece.marks) m.marks := by
  rw [marks_splice]
  · rw [Ink.rewrite, Ink.edits, List.map_filterMap, tags_eq hm]
    congr 1
    apply List.filterMap_congr
    intro tag _
    cases g tag.kind <;> rfl
  · intro e he
    obtain ⟨tag, htag, hg⟩ := List.mem_filterMap.1 he
    obtain ⟨p, -, rfl⟩ := Option.map_eq_some_iff.1 hg
    exact Tag.boundary_of_mem_lex (List.mem_filter.1 htag).1

/-- Removing the tags is a rewriting as well. -/
theorem marks_strip {m : Marked} (hm : Separate m.pieces) :
    m.strip.marks = Ink.rewrite (fun _ => some []) m.marks := by
  have hsplice := marks_splice_tags hm fun _ => some (Piece.template [])
  rw [show (m.tags.filterMap fun tag => (some (Piece.template [])).map (tag.span, ·)) =
    m.tags.map fun tag => (tag.span, Piece.template []) from
      congrFun List.filterMap_eq_map m.tags] at hsplice
  exact hsplice

end TagTemplate.Marked
