import TagTemplate.Proofs.Check
import TagTemplate.Proofs.Marked.Sealed
import TagTemplate.Proofs.Text.Seams

/-!
# Links without a URL

The one malformed link is the link without a URL, and it counts only if all of
it is template text. So an ink has a malformed link exactly if one fixed word of
ten characters occurs in it. Values that are not empty neither put this word
together nor hide it: an ink that is filled in with them has no malformed link
that it did not have before.
-/

namespace TagTemplate

open Tag (Kind Spells)

/-- The text of a link without a URL. -/
def Tag.blankLink : Text := Tag.linkMark ++ Tag.closeMark

/-- A malformed tag of a link has no URL. -/
theorem Tag.eq_blankLink_of_spells {fault : Fault} {w : Text}
    (h : Spells (.malformed .link fault) w) : w = Tag.blankLink := by
  obtain ⟨i, rfl, hi, -⟩ := h
  obtain ⟨url, rfl, hurl⟩ := Tag.classify_link_of_isLink hi rfl
  cases url with
  | nil => rfl
  | cons c url => cases hurl

namespace Ink

/-- A link without a URL that the template wrote. -/
def blankLink : Ink := ofText .template Tag.blankLink

/-- The ink holds a link without a URL. -/
def Blank (w : Ink) : Prop := blankLink <:+: w

/-- The ink ends within a link without a URL. -/
def Hangs (w : Ink) : Prop := Frays blankLink w

theorem blankLink_ne_nil : blankLink ≠ [] := by decide

theorem inscribes_blankLink : Inscribes (.malformed .link .emptyUrl) blankLink := by
  have hkind : Tag.linkKind? (text []) = some (.malformed .link .emptyUrl) := by decide
  have hlink := inscribes_link hkind
  rwa [link, List.nil_append, ← ofText_append] at hlink

/-- The tag of a malformed link is template text throughout. -/
theorem eq_blankLink_of_inscribes {fault : Fault} {v : Ink}
    (h : Inscribes (.malformed .link fault) v) : v = blankLink := by
  obtain ⟨hspells, hjudged⟩ := h
  have htext := Tag.eq_blankLink_of_spells hspells
  obtain ⟨a, b, rfl, ha, hb⟩ := List.map_eq_append_iff.1 htext
  change text a = Tag.linkMark at ha
  change text b = Tag.closeMark at hb
  have hea : extent weight a = 8 := by
    rw [extent_eq_size, ha]
    decide
  have heb : extent weight b = 2 := by
    rw [extent_eq_size, hb]
    decide
  have hsize : Text.size (text (a ++ b)) = 10 := by
    rw [htext]
    decide
  have hranges : judged (.malformed .link fault) 10 = [⟨0, 8⟩, ⟨8, 10⟩] := rfl
  rw [hsize, hranges, List.all_cons, List.all_cons, List.all_nil, Bool.and_true,
    Bool.and_eq_true] at hjudged
  obtain ⟨hfirst, hsecond⟩ := hjudged
  rw [excerpt_append_left (by omega), excerpt_eq_self weight_pos (Nat.le_refl _) (by omega)]
    at hfirst
  have hshift : (⟨8, 10⟩ : Span) = ⟨0 + extent weight a, 2 + extent weight a⟩ := by rw [hea]
  rw [hshift, excerpt_append_right weight_pos,
    excerpt_eq_self weight_pos (Nat.le_refl _) (by omega)] at hsecond
  rw [eq_ofText_of_isTemplate hfirst, eq_ofText_of_isTemplate hsecond, ha, hb, ← ofText_append]
  rfl

/-- An ink has a malformed link exactly if it holds a link without a URL. -/
theorem faultless_link_iff {w : Ink} : Faultless [.link] (tags w) ↔ ¬ Blank w := by
  constructor
  · intro h hblank
    obtain ⟨a, b, rfl⟩ := hblank
    refine h ⟨.malformed .link .emptyUrl, _⟩ (mem_tags_iff.2 ⟨a, blankLink, b, rfl, ?_, rfl⟩)
      .link .emptyUrl rfl (List.mem_singleton_self _)
    exact inscribes_blankLink
  · intro h tag htag form fault hkind hform
    rw [List.mem_singleton.1 hform] at hkind
    obtain ⟨a, v, b, rfl, hv, -⟩ := mem_tags_iff.1 htag
    rw [hkind] at hv
    rw [eq_blankLink_of_inscribes hv] at h
    exact h ⟨a, b, rfl⟩

/-! ## Seams -/

variable {a b w : Ink}

/-- No link without a URL lies over the end of a sealed ink. -/
theorem Sealed.not_hangs (h : Sealed w) : ¬ Hangs w := by
  intro hhangs
  obtain ⟨u, v, huv, hu, hv, x, rfl⟩ := hhangs
  have hsplit : x ++ u ++ v = x ++ blankLink ++ [] := by
    rw [huv, List.append_assoc, List.append_nil]
  have hlen := congrArg List.length huv
  have hulen := List.length_pos_iff.2 hu
  have hvlen := List.length_pos_iff.2 hv
  rw [List.length_append] at hlen
  rcases h v _ x blankLink [] rfl inscribes_blankLink hsplit with hle | hle
  · rw [List.length_append] at hle
    omega
  · rw [List.length_append] at hle
    omega

/-- What is sealed together is sealed at its end. -/
theorem Sealed.of_append (h : Sealed (a ++ b)) : Sealed b := by
  intro c k x v y hk hv heq
  have heq' : a ++ b ++ c = a ++ x ++ v ++ y := by
    rw [List.append_assoc, heq]
    simp only [List.append_assoc]
  rcases h c k (a ++ x) v y hk hv heq' with hle | hle
  · left
    simp only [List.length_append] at hle
    omega
  · right
    simp only [List.length_append] at hle
    omega

theorem blank_append_cases (h : Blank (a ++ b)) (ha : ¬ Hangs a) : Blank a ∨ Blank b := by
  rcases infix_append_cases h with h | h | h
  · exact .inl h
  · exact .inr h
  · exact absurd h ha

/-! ## Filling in -/

/-- Values none of which is empty. -/
def Filled (value : Text → Option Text) : Prop := ∀ key t, value key = some t → t ≠ []

theorem origin_of_isTemplate (h : isTemplate w = true) {c : Char × Origin} (hc : c ∈ w) :
    c.2 = .template := of_decide_eq_true (List.all_eq_true.1 h c hc)

theorem isTemplate_of_subset (h : isTemplate w = true) (hsub : a ⊆ w) : isTemplate a = true :=
  List.all_eq_true.2 fun c hc => List.all_eq_true.1 h c (hsub hc)

/-- Data is foreign to template text. -/
theorem foreign_ofText_data {z : Ink} (hz : isTemplate z = true) (t : Text) :
    Foreign z (ofText .data t) := by
  intro c hc hmem
  obtain ⟨d, -, rfl⟩ := List.mem_map.1 hc
  cases origin_of_isTemplate hz hmem

theorem Filled.foreignEdits {value : Text → Option Text} (h : Filled value) (w : Ink) :
    ForeignEdits blankLink (edits (fillingInk value) w) := by
  intro e he
  obtain ⟨tag, -, hedit⟩ := List.mem_filterMap.1 he
  obtain ⟨r, hr, rfl⟩ := Option.map_eq_some_iff.1 hedit
  obtain ⟨t, ht, rfl⟩ := Option.map_eq_some_iff.1 hr
  refine ⟨foreign_ofText_data (isTemplate_ofText_template _) t, ?_⟩
  cases hkind : tag.kind with
  | value key =>
      rw [hkind] at ht
      have hne := h key t ht
      simpa [ofText] using hne
  | _ =>
      rw [hkind] at ht
      cases ht

/-- Values that are not empty make no link without a URL. -/
theorem Filled.blank {value : Text → Option Text} (h : Filled value)
    (hblank : Blank (rewrite (fillingInk value) w)) : Blank w :=
  infix_of_infix_splicedFrom (h.foreignEdits w) hblank

theorem Filled.hangs {value : Text → Option Text} (h : Filled value)
    (hhangs : Hangs (rewrite (fillingInk value) w)) : Hangs w :=
  frays_of_frays_splicedFrom weight_pos (h.foreignEdits w) hhangs

end Ink

end TagTemplate
