import TagTemplate.Proofs.Marked.Blank
import TagTemplate.Proofs.Marked.Own
import TagTemplate.Proofs.Tag.Grammar

/-!
# Tags piece by piece

Neighbouring pieces differ in their origin, so a range without data does not
only consist of template text: it lies in one template piece. What has to be
template text of a tag is therefore found in single pieces, and of all tags but
links that is the tag as a whole. Data next to a template piece neither makes a
tag of what is none there nor takes one away: `tags_piecewise`.
-/

namespace TagTemplate

open Tag (openMark closeMark linkMark)

namespace Marked

variable {m : Marked} {ps : List Piece} {p : Piece} {i j : Nat} {tag : Tag}

/-! ## Ranges without data -/

/-- A range lies in one template piece. -/
def InTemplate (ps : List Piece) (s : Span) : Prop :=
  ∃ i t, ps[i]? = some (.template t) ∧ offset ps i ≤ s.start ∧
    s.stop ≤ offset ps i + Text.size t

theorem inTemplate_cons :
    InTemplate (p :: ps) ⟨i, j⟩ ↔ p.origin = .template ∧ j ≤ Text.size p.text ∨
      Text.size p.text ≤ i ∧ InTemplate ps ⟨i - Text.size p.text, j - Text.size p.text⟩ := by
  constructor
  · rintro ⟨n, t, hn, hstart, hstop⟩
    cases n with
    | zero =>
        obtain rfl : p = .template t := Option.some.inj hn
        exact .inl ⟨rfl, by simpa [offset, Piece.template] using hstop⟩
    | succ n =>
        simp only [offset] at hstart hstop
        exact .inr ⟨by omega, n, t, hn, by simp only; omega, by simp only; omega⟩
  · rintro (⟨horigin, hj⟩ | ⟨hi, n, t, hn, hstart, hstop⟩)
    · obtain ⟨o, t⟩ := p
      cases horigin
      exact ⟨0, t, rfl, Nat.zero_le _, by simpa [offset] using hj⟩
    · simp only at hstart hstop
      exact ⟨n + 1, t, hn, by simp only [offset]; omega, by simp only [offset]; omega⟩

/-- Pieces that begin behind a range have no part in it. -/
theorem isTemplateFrom_of_le {n : Nat} {s : Span} (h : s.stop ≤ n) :
    isTemplateFrom n s ps = true := by
  induction ps generalizing n with
  | nil => rfl
  | cons p ps ih =>
      have hapart : Span.overlaps ⟨n, n + Text.size p.text⟩ s = false := by
        simp only [Span.overlaps, Bool.and_eq_false_iff, decide_eq_false_iff_not]
        omega
      rw [isTemplateFrom, hapart, Bool.and_false, ih (by omega)]
      rfl

/-- **A range without data lies in one template piece.** At the end of a piece it would reach into
a neighbour, and one of the two is data. -/
theorem isTemplateFrom_iff (h : Separate ps) (n : Nat) (hij : i < j)
    (hj : j ≤ Text.size (ps.flatMap Piece.text)) :
    isTemplateFrom n ⟨n + i, n + j⟩ ps = true ↔ InTemplate ps ⟨i, j⟩ := by
  induction ps generalizing n i j with
  | nil =>
      simp only [List.flatMap_nil, Text.size_nil] at hj
      omega
  | cons p ps ih =>
      rw [List.flatMap_cons, Text.size_append] at hj
      rw [inTemplate_cons]
      simp only [isTemplateFrom]
      by_cases hbehind : Text.size p.text ≤ i
      · have hover : Span.overlaps ⟨n, n + Text.size p.text⟩ ⟨n + i, n + j⟩ = false := by
          simp only [Span.overlaps, Bool.and_eq_false_iff, decide_eq_false_iff_not]
          omega
        have hrest := ih h.tail (n + Text.size p.text)
          (show i - Text.size p.text < j - Text.size p.text by omega) (by omega)
        rw [show n + Text.size p.text + (i - Text.size p.text) = n + i by omega,
          show n + Text.size p.text + (j - Text.size p.text) = n + j by omega] at hrest
        rw [hover, Bool.and_false, Bool.not_false, Bool.true_and, hrest]
        constructor
        · exact fun hin => .inr ⟨hbehind, hin⟩
        · rintro (⟨-, hle⟩ | ⟨-, hin⟩)
          · omega
          · exact hin
      · have hover : Span.overlaps ⟨n, n + Text.size p.text⟩ ⟨n + i, n + j⟩ = true := by
          simp only [Span.overlaps, Bool.and_eq_true, decide_eq_true_eq]
          omega
        rw [hover, Bool.and_true]
        by_cases hwithin : j ≤ Text.size p.text
        · rw [isTemplateFrom_of_le (by simp only; omega), Bool.and_true]
          cases p.origin <;> simp <;> omega
        · -- the range goes on in the next piece
          cases ps with
          | nil =>
              simp only [List.flatMap_nil, Text.size_nil] at hj
              omega
          | cons q qs =>
              have hover' : Span.overlaps ⟨n + Text.size p.text,
                  n + Text.size p.text + Text.size q.text⟩ ⟨n + i, n + j⟩ = true := by
                simp only [Span.overlaps, Bool.and_eq_true, decide_eq_true_eq]
                omega
              have hdata : p.origin = .data ∨ q.origin = .data := by
                have hne := h.2.1
                cases hp : p.origin <;> cases hq : q.origin <;> simp_all
              simp only [isTemplateFrom, hover']
              rcases hdata with hdata | hdata <;> simp [hdata] <;> omega

theorem isTemplate_iff (hm : Separate m.pieces) {s : Span} (hlt : s.start < s.stop)
    (hle : s.stop ≤ m.size) : m.isTemplate s = true ↔ InTemplate m.pieces s := by
  have hiff := isTemplateFrom_iff hm 0 hlt hle
  rwa [Nat.zero_add, Nat.zero_add] at hiff

/-- A range has no data if none of two parts of it has. -/
theorem isTemplateFrom_split (hps : ∀ p ∈ ps, p.text ≠ []) (n : Nat) {k : Nat} (hij : i < j)
    (hjk : j < k) : isTemplateFrom n ⟨i, k⟩ ps =
      (isTemplateFrom n ⟨i, j⟩ ps && isTemplateFrom n ⟨j, k⟩ ps) := by
  induction ps generalizing n with
  | nil => rfl
  | cons p ps ih =>
      have hpos : 0 < Text.size p.text :=
        Nat.pos_of_ne_zero fun h => hps p (by simp) (Text.size_eq_zero_iff.1 h)
      have hover : Span.overlaps ⟨n, n + Text.size p.text⟩ ⟨i, k⟩ =
          (Span.overlaps ⟨n, n + Text.size p.text⟩ ⟨i, j⟩ ||
            Span.overlaps ⟨n, n + Text.size p.text⟩ ⟨j, k⟩) := by
        rw [Bool.eq_iff_iff]
        simp only [Span.overlaps, Bool.or_eq_true, Bool.and_eq_true, decide_eq_true_eq]
        omega
      simp only [isTemplateFrom, hover, ih fun q hq => hps q (by simp [hq])]
      cases p.origin <;> simp [Bool.and_assoc, Bool.and_left_comm]

/-! ## Tags of single pieces -/

theorem slice?_piece (h : ps[i]? = some p) :
    Text.slice? (ps.flatMap Piece.text) ⟨offset ps i, offset ps i + Text.size p.text⟩ =
      some p.text := by
  rw [Text.slice?_eq_some_iff]
  induction ps generalizing i with
  | nil => cases h
  | cons q ps ih =>
      rw [List.flatMap_cons]
      cases i with
      | zero =>
          obtain rfl : q = p := Option.some.inj h
          exact ⟨[], _, rfl, rfl, rfl⟩
      | succ i =>
          obtain ⟨a, b, htext, hstart, -⟩ := ih h
          refine ⟨q.text ++ a, b, by rw [htext]; simp only [List.append_assoc], ?_, ?_⟩
          · rw [Text.size_append, ← hstart]
            rfl
          · rw [Text.size_append, ← hstart]
            rfl

theorem lex_piece {t : Text} (h : m.pieces[i]? = some (.template t)) :
    (Tag.lex t).map (fun tag => m.place (i, tag)) = (Tag.lex m.text).filter fun tag =>
      offset m.pieces i ≤ tag.span.start && tag.span.stop ≤ offset m.pieces i + Text.size t :=
  Tag.lex_slice (slice?_piece h)

/-- The tags that lie in one template piece are those of the piece, read alone. -/
theorem mem_lex_inTemplate_iff :
    tag ∈ Tag.lex m.text ∧ InTemplate m.pieces tag.span ↔
      ∃ i t tag', m.pieces[i]? = some (.template t) ∧ tag' ∈ Tag.lex t ∧
        m.place (i, tag') = tag := by
  constructor
  · rintro ⟨hmem, i, t, hi, hstart, hstop⟩
    have hin : tag ∈ (Tag.lex t).map fun tag => m.place (i, tag) := by
      rw [lex_piece hi]
      exact List.mem_filter.2 ⟨hmem, by simpa using ⟨hstart, hstop⟩⟩
    obtain ⟨tag', hmem', hplace⟩ := List.mem_map.1 hin
    exact ⟨i, t, tag', hi, hmem', hplace⟩
  · rintro ⟨i, t, tag', hi, hmem', hplace⟩
    have hin : tag ∈ (Tag.lex t).map fun tag => m.place (i, tag) :=
      List.mem_map.2 ⟨tag', hmem', hplace⟩
    rw [lex_piece hi] at hin
    obtain ⟨hmem, hwithin⟩ := List.mem_filter.1 hin
    rw [Bool.and_eq_true, decide_eq_true_eq, decide_eq_true_eq] at hwithin
    exact ⟨hmem, i, t, hi, hwithin⟩

/-- Both marks of a malformed link are template text if all of it is: nothing is between them. -/
theorem wrote_malformed_link (hm : Separate m.pieces) {fault : Fault}
    (hkind : tag.kind = .malformed .link fault) (h : tag ∈ Tag.lex m.text) :
    m.wrote tag = m.isTemplate tag.span := by
  obtain ⟨a, w, b, -, hspells, hspan⟩ := Tag.mem_lex_iff.1 h
  rw [hkind] at hspells
  rw [Tag.eq_blankLink_of_spells hspells, show Text.size Tag.blankLink = 10 by decide] at hspan
  have hlink : tag.kind.isLink = true := by rw [hkind]; rfl
  have hopen : Text.size linkMark = 8 := by decide
  have hclose : Text.size closeMark = 2 := by decide
  rw [wrote, if_pos hlink, hspan, hopen, hclose]
  exact (isTemplateFrom_split (fun _ hp => hm.ne_nil hp) 0 (by simp only; omega)
    (by simp only; omega)).symm

theorem mem_tags_malformed_link_iff (hm : Separate m.pieces) {fault : Fault}
    (hkind : tag.kind = .malformed .link fault) :
    tag ∈ m.tags ↔ ∃ i t tag', m.pieces[i]? = some (.template t) ∧ tag' ∈ Tag.lex t ∧
      m.place (i, tag') = tag := by
  rw [← mem_lex_inTemplate_iff, tags, List.mem_filter]
  refine and_congr_right fun h => ?_
  rw [wrote_malformed_link hm hkind h]
  exact isTemplate_iff hm (Tag.lt_of_mem_lex h) (Tag.stop_le_of_mem_lex h)

end Marked

/-! ## Links -/

namespace Tag

variable {t url : Text} {span : Span}

/-- A link stands in a text: its mark, the URL, and the first closing braces behind the mark. The
URL is not empty, and it has neither opening nor closing braces. -/
def LinkAt (t url : Text) (span : Span) : Prop :=
  ∃ before after, t = before ++ linkMark ++ url ++ closeMark ++ after ∧
    span = ⟨Text.size before,
      Text.size before + Text.size linkMark + Text.size url + Text.size closeMark⟩ ∧
    url ≠ [] ∧ ¬ openMark <:+: url ∧ ¬ closeMark <:+: url ∧
    ∀ x y, url ++ closeMark ++ after = x ++ closeMark ++ y → Text.size url ≤ Text.size x

theorem encloses_iff : encloses url = true ↔ ¬ openMark <:+: url ∧ Closes url := by
  have hclose : Text.cut? closeMark (url ++ closeMark) = some (url, []) ↔ Closes url := by
    rw [← cut?_closeMark_iff (b := []), List.append_nil]
  rw [encloses, Bool.and_eq_true, Bool.not_eq_true', ← Bool.not_eq_true,
    Text.contains_iff_infix, decide_eq_true_eq, hclose]

theorem Closes.not_infix (h : Closes url) : ¬ closeMark <:+: url := by
  rintro ⟨x, y, rfl⟩
  have hle := h x (y ++ closeMark) (by simp only [List.append_assoc])
  simp only [closeMark, List.length_append, List.length_cons, List.length_nil] at hle
  omega

theorem spells_link_of_iff :
    Spells (.link url) (linkMark ++ url ++ closeMark) ↔
      url ≠ [] ∧ ¬ openMark <:+: url ∧ Closes url := by
  rw [spells_link_iff, linkKind?, Option.ite_none_right_eq_some, encloses_iff, and_comm]
  cases url <;> simp

theorem mem_lex_link_iff : (⟨.link url, span⟩ : Tag) ∈ lex t ↔ LinkAt t url span := by
  rw [mem_lex_iff]
  constructor
  · rintro ⟨before, w, after, rfl, hspells, hspan⟩
    have hw : w = linkMark ++ url ++ closeMark := by
      obtain ⟨i, rfl, hi, -⟩ := hspells
      obtain ⟨url', rfl, hurl⟩ := classify_link_of_isLink hi rfl
      split at hurl
      · cases hurl
      · cases hurl
        simp only [linkMark, List.append_assoc]
    subst hw
    obtain ⟨hne, hopen, hcloses⟩ := spells_link_of_iff.1 hspells
    refine ⟨before, after, by simp only [List.append_assoc], ?_, hne, hopen, hcloses.not_infix,
      closes_iff_first.1 hcloses⟩
    obtain rfl := hspan
    simp only [Text.size_append, Nat.add_assoc]
  · rintro ⟨before, after, rfl, rfl, hne, hopen, -, hfirst⟩
    refine ⟨before, linkMark ++ url ++ closeMark, after, by simp only [List.append_assoc],
      spells_link_of_iff.2 ⟨hne, hopen, closes_iff_first.2 hfirst⟩, ?_⟩
    simp only [Text.size_append, Nat.add_assoc]

end Tag

namespace Marked

variable {m : Marked}

theorem mem_tags_link_iff (hm : Separate m.pieces) {url : Text} {span : Span} :
    (⟨.link url, span⟩ : Tag) ∈ m.tags ↔ Tag.LinkAt m.text url span ∧
      InTemplate m.pieces ⟨span.start, span.start + Text.size linkMark⟩ ∧
      InTemplate m.pieces ⟨span.stop - Text.size closeMark, span.stop⟩ := by
  rw [tags, List.mem_filter, Tag.mem_lex_link_iff]
  refine and_congr_right fun h => ?_
  have hle : span.stop ≤ m.size := Tag.stop_le_of_mem_lex (Tag.mem_lex_link_iff.2 h)
  have hsize : span.start + Text.size linkMark ≤ span.stop ∧ 2 ≤ span.stop := by
    obtain ⟨before, after, -, rfl, -⟩ := h
    have hclose : Text.size closeMark = 2 := by decide
    simp only
    omega
  have hopen : Text.size linkMark = 8 := by decide
  have hclose : Text.size closeMark = 2 := by decide
  rw [wrote, if_pos (show Tag.Kind.isLink (.link url) = true from rfl), Bool.and_eq_true]
  exact and_congr (isTemplate_iff hm (by simp only; omega) (by simp only; omega))
    (isTemplate_iff hm (by simp only; omega) hle)

/-- **Tags are found piece by piece.** The tags of a marked text that are no links are those of
its template pieces, each piece read alone, in their places and in order, and the malformed links
are those of its template pieces too. A link is found where one stands in the joined text whose
opening and closing marks are each in a template piece. No two tags overlap. -/
theorem tags_piecewise {m : Marked} (hm : Separate m.pieces) :
    (m.tags.filter fun tag => !tag.kind.isLink) = (own m.pieces).map m.place ∧
      (∀ fault span, (⟨.malformed .link fault, span⟩ : Tag) ∈ m.tags ↔
        ∃ i t tag, m.pieces[i]? = some (.template t) ∧ tag ∈ Tag.lex t ∧
          m.place (i, tag) = ⟨.malformed .link fault, span⟩) ∧
      (∀ url span, (⟨.link url, span⟩ : Tag) ∈ m.tags ↔ Tag.LinkAt m.text url span ∧
        InTemplate m.pieces ⟨span.start, span.start + Text.size linkMark⟩ ∧
        InTemplate m.pieces ⟨span.stop - Text.size closeMark, span.stop⟩) ∧
      m.tags.Pairwise Tag.Before :=
  ⟨filter_tags_eq_own hm, fun _ _ => mem_tags_malformed_link_iff hm rfl,
    fun _ _ => mem_tags_link_iff hm, (Tag.pairwise_lex m.text).filter _⟩

/-- A value in the URL of a link, with a brace in it, and one that looks like a placeholder. -/
theorem tags_piecewise_of_data :
    let m : Marked := ⟨[.template "\x7b\x7ba\x7d\x7d\x7b\x7b#link:/p?q=".toList,
      .data "\x7bv".toList, .template "&w\x7d\x7d\x7b\x7b#link:\x7d\x7d".toList,
      .data "\x7b\x7bc\x7d\x7d".toList]⟩
    Separate m.pieces ∧
      (m.tags.filter fun tag => !tag.kind.isLink) = [⟨.value "a".toList, ⟨0, 5⟩⟩] ∧
      Tag.LinkAt m.text "/p?q=\x7bv&w".toList ⟨5, 24⟩ ∧
      (⟨.malformed .link .emptyUrl, ⟨24, 34⟩⟩ : Tag) ∈ m.tags := by
  intro m
  have hm : Separate m.pieces :=
    ⟨by decide, by decide, by decide, by decide, by decide, by decide, List.cons_ne_nil _ _⟩
  obtain ⟨hown, hmalformed, hlink, -⟩ := tags_piecewise hm
  refine ⟨hm, hown.trans (by decide +kernel), ((hlink _ _).1 (by decide +kernel)).1,
    (hmalformed _ _).2 ⟨2, _, ⟨.malformed .link .emptyUrl, ⟨4, 14⟩⟩, rfl, by decide +kernel,
      by decide +kernel⟩⟩

end Marked

end TagTemplate
