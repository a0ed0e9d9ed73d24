import TagTemplate.Proofs.Fallible
import TagTemplate.Proofs.Marked.Stretches
import TagTemplate.Proofs.Noninterference
import TagTemplate.Proofs.Tag.Collapsing

/-!
# The tags that a render leaves

The last step of a render takes out the tags that the template wrote, joins
blank lines and cuts off the blanks at the ends. It looks at the text once, so
what it leaves need not be free of tags: braces of the template around a value
spell one, and so may the two sides of a tag that is gone. There are no others.
Each tag of a rendered text holds inserted text where the template would have
had to write, or lies over the place of a tag that was taken out.
-/

namespace TagTemplate

open Tag (Kind Spells)

/-! ## What cleaning leaves -/

namespace Marked

/-- A tag of some kind, spelled `w` between `x` and `y`, that is left of a marked text: what stands
between the tags of the template spells it in that place, blank lines aside, as a tag that the
template has not written or one that lies over the place of a tag. -/
def Leaves (m : Marked) (kind : Kind) (x w y : Text) : Prop :=
  ∃ (a v b : Ink) (k : Kind), (Ink.stretches m.marks).flatten = a ++ v ++ b ∧
    Text.collapseBreaks a.text = x ∧ Text.collapseBreaks v.text = w ∧
    Text.collapseBreaks b.text = y ∧ Spells k v.text ∧ k.collapse = kind ∧
    (¬ Ink.Inscribes k v ∨ Straddles (Ink.stretches m.marks) a v)

theorem separate_of_writeLinks {m m' : Marked} {policy : Policy} {pretty : Bool}
    (h : m.writeLinks policy pretty = .ok m') : Separate m'.pieces := by
  obtain ⟨_, -, rfl⟩ := Fallible.map_eq_ok_iff.1 h
  exact separate_ofPieces _

/-- Every tag of a cleaned text is left of the marked text. -/
theorem leaves_of_clean {m : Marked} (hm : Separate m.pieces) {kind : Kind} {x w y : Text}
    (hw : Spells kind w) (h : m.clean = x ++ w ++ y) : m.Leaves kind x w y := by
  obtain ⟨a, v, b, k, hstrip, ha, hcollapse, hb, hv, rfl⟩ := hw.exists_of_collapseBreaks h
  -- the characters of the tag with their origins
  rw [text_eq, marks_strip hm, ← Ink.flatten_stretches] at hstrip
  obtain ⟨av, b, hsplit, hav, rfl⟩ := List.map_eq_append_iff.1 hstrip
  obtain ⟨a, v, rfl, rfl, rfl⟩ := List.map_eq_append_iff.1 hav
  refine ⟨a, v, b, k, hsplit, ha, hcollapse, hb, hv, rfl, ?_⟩
  have hne : v ≠ [] := by
    rintro rfl
    exact hv.ne_nil rfl
  rcases infix_or_straddles hsplit hne with ⟨u, hu, hpart⟩ | hstraddles
  · exact .inl (Ink.not_inscribes_of_mem_stretches hu hpart)
  · exact .inr hstraddles

/-- The braces of a tag that is left stand between the tags of the template. -/
theorem Leaves.exists_brace {m : Marked} {kind : Kind} {x w y : Text}
    (h : m.Leaves kind x w y) : ∃ u ∈ Ink.stretches m.marks, '{' ∈ Ink.text u := by
  obtain ⟨a, v, b, k, hsplit, -, -, -, ⟨i, hi, -, -⟩, -⟩ := h
  have hbrace : '{' ∈ Ink.text v := by
    rw [hi, Tag.openMark]
    simp
  obtain ⟨c, hc, hchar⟩ := List.mem_map.1 hbrace
  have hmem : c ∈ (Ink.stretches m.marks).flatten := by
    rw [hsplit]
    exact List.mem_append_left _ (List.mem_append_right _ hc)
  obtain ⟨u, hu, hcu⟩ := List.mem_flatten.1 hmem
  exact ⟨u, hu, List.mem_map.2 ⟨c, hcu, hchar⟩⟩

end Marked

/-! ## A whole render -/

namespace Renderer

/-- The steps of a render up to the writing of links. -/
def linked (r : Renderer) (loader : Loader) (context : Context) (text : Text) :
    Except Error Marked :=
  (Registry.empty.expand loader r.rules text).1.bind fun text =>
    (insertContext r.rules.policy context text).bind fun m =>
      m.writeLinks r.rules.policy r.prettyLinks

variable {r : Renderer} {loader : Loader} {context : Context} {text : Text}

theorem renderText_eq_map_linked : (r.renderText loader context text).result =
    (r.linked loader context text).map fun m => Text.trim m.clean := by
  show (Registry.empty.expand loader r.rules text).1.bind (r.finish context) = _
  rw [linked]
  cases (Registry.empty.expand loader r.rules text).1 with
  | error e => rfl
  | ok text =>
      show r.finish context text = ((insertContext r.rules.policy context text).bind _).map _
      rw [finish_eq]
      cases insertContext r.rules.policy context text with
      | error e => rfl
      | ok m => rfl

/-- The pieces of a text whose links are written are put together anew. -/
theorem separate_of_linked {m : Marked} (h : r.linked loader context text = .ok m) :
    Separate m.pieces := by
  obtain ⟨expanded, -, hrest⟩ := Fallible.bind_eq_ok_iff.1 h
  obtain ⟨inserted, -, hwritten⟩ := Fallible.bind_eq_ok_iff.1 hrest
  exact Marked.separate_of_writeLinks hwritten

/-- **What a render leaves of tags.** Every tag of a rendered text is left of the text as it is
when its links are written. There is none if no brace opens between the tags of that text. -/
theorem renderText_leaves {s : Text} (h : (r.renderText loader context text).result = .ok s) :
    ∃ m front back, r.linked loader context text = .ok m ∧ s = Text.trim m.clean ∧
      m.clean = front ++ s ++ back ∧
      (∀ tag ∈ Tag.lex s, ∃ x w y, s = x ++ w ++ y ∧
        tag.span = ⟨Text.size x, Text.size x + Text.size w⟩ ∧
        m.Leaves tag.kind (front ++ x) w (y ++ back)) ∧
      ((∀ u ∈ Ink.stretches m.marks, '{' ∉ Ink.text u) → Tag.lex s = []) := by
  rw [renderText_eq_map_linked] at h
  obtain ⟨m, hlinked, rfl⟩ := Fallible.map_eq_ok_iff.1 h
  obtain ⟨front, back, htrim⟩ := Text.trim_isInfix m.clean
  have hleaves : ∀ tag ∈ Tag.lex (Text.trim m.clean), ∃ x w y,
      Text.trim m.clean = x ++ w ++ y ∧
        tag.span = ⟨Text.size x, Text.size x + Text.size w⟩ ∧
        m.Leaves tag.kind (front ++ x) w (y ++ back) := by
    intro tag htag
    obtain ⟨x, w, y, hxy, hw, hspan⟩ := Tag.mem_lex_iff.1 htag
    refine ⟨x, w, y, hxy, hspan, Marked.leaves_of_clean (separate_of_linked hlinked) hw ?_⟩
    rw [← htrim, hxy]
    simp only [List.append_assoc]
  refine ⟨m, front, back, hlinked, rfl, htrim.symm, hleaves, fun hbraces => ?_⟩
  refine List.eq_nil_iff_forall_not_mem.2 fun tag htag => ?_
  obtain ⟨x, w, y, -, -, hleft⟩ := hleaves tag htag
  obtain ⟨u, hu, hbrace⟩ := hleft.exists_brace
  exact hbraces u hu hbrace

/-- Braces of the template around a value. -/
theorem renderText_leaves_of_braces :
    let r : Renderer := ⟨false, ⟨.strict, 0⟩⟩
    let loader : Loader := fun _ _ => .error .noSuchSource
    let context := Context.single "x".toList (.text "b".toList)
    let text := "\x7b\x7b\x7b\x7bx\x7d\x7d\x7d\x7d".toList
    let s := "\x7b\x7bb\x7d\x7d".toList
    (r.renderText loader context text).result = .ok s ∧
      ∃ m x w y, r.linked loader context text = .ok m ∧ s <:+: m.clean ∧
        m.Leaves (.value "b".toList) x w y := by
  intro r loader context text s
  have hresult : (r.renderText loader context text).result = .ok s := by decide +kernel
  obtain ⟨m, front, back, hlinked, -, hclean, hleaves, -⟩ := renderText_leaves hresult
  have hlex : Tag.lex s = [⟨.value "b".toList, ⟨0, 5⟩⟩] := by decide
  obtain ⟨x, w, y, -, -, hleft⟩ := hleaves ⟨.value "b".toList, ⟨0, 5⟩⟩ (by rw [hlex]; simp)
  exact ⟨hresult, m, front ++ x, w, y ++ back, hlinked, ⟨front, back, hclean.symm⟩, hleft⟩

end Renderer

/-- **A rendered text can have tags.** One is spelled by braces of the template around a value
without braces, the other by what is left of a link when the placeholder in its URL is taken
out. -/
theorem exists_rendered_tags :
    let r : Renderer := ⟨true, ⟨.strict, 32⟩⟩
    let loader : Loader := fun _ _ => .error .noSuchSource
    let around := "\x7b\x7b\x7b\x7bx\x7d\x7d\x7d\x7d".toList
    let gone := "\x7b\x7b#link:?id=\x7b\x7bid\x7d\x7d\x7d\x7d".toList
    (∃ s, (r.renderText loader (.single "x".toList (.text "b".toList)) around).result = .ok s ∧
        Tag.lex s = [⟨.value "b".toList, ⟨0, 5⟩⟩]) ∧
      ∃ s, (r.renderText loader .empty gone).result = .ok s ∧
        Tag.lex s = [⟨.link "?id=".toList, ⟨0, 14⟩⟩] := by
  intro r loader around gone
  refine ⟨⟨"\x7b\x7bb\x7d\x7d".toList, ?_, ?_⟩, "\x7b\x7b#link:?id=\x7d\x7d".toList, ?_, ?_⟩
  all_goals decide +kernel

end TagTemplate
