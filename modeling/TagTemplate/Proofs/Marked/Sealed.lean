import TagTemplate.Proofs.Marked.Filling

/-!
# Inks that end apart

An ink is sealed if no tag reaches over its end, whatever follows it: one that
ends with closing braces, and one in which no tag can start. Sealed inks may be
put one behind the other: what they are rewritten to, and which tags they have,
is then known from each of them.

A link whose URL is data is the one tag that is put together of several parts.
It is a tag exactly if the data closes nothing and opens nothing, and it is
found as a whole or not at all.
-/

namespace TagTemplate.Ink

open Tag (Kind Spells Closes)

/-- No tag reaches over the end of the ink. -/
def Sealed (w : Ink) : Prop := ∀ b, Parted (fun _ => true) w b

/-- The kinds of the tags of an ink. -/
def kinds (w : Ink) : List Kind := (tags w).map Tag.kind

theorem parted_mono {p : Kind → Bool} {a b : Ink} (h : Parted (fun _ => true) a b) :
    Parted p a b := h.mono fun _ _ => rfl

/-! ## Sealing -/

theorem sealed_of_close {w : Ink} {z : Text} (h : w.text = z ++ Tag.closeMark) : Sealed w :=
  fun _ => parted_of_close _ h

theorem sealed_of_left {w : Ink} (h : ('{', .template) ∉ w) : Sealed w :=
  fun b => parted_of_left _ b h

theorem sealed_nil : Sealed [] := sealed_of_left List.not_mem_nil

theorem sealed_of_spells {k : Kind} {w : Ink} (h : Spells k w.text) : Sealed w := by
  obtain ⟨i, hi, -, -⟩ := h
  exact sealed_of_close hi

theorem Sealed.append {a b : Ink} (ha : Sealed a) (hb : Sealed b) : Sealed (a ++ b) := by
  intro c k x v y hk hv heq
  rw [List.append_assoc] at heq
  rcases ha (b ++ c) k x v y hk hv heq with hle | hle
  · left
    rw [List.length_append]
    omega
  · -- the tag lies behind the first ink, so the second one decides
    rw [List.append_assoc] at heq
    obtain ⟨x, rfl⟩ : a <+: x := List.prefix_of_prefix_length_le ⟨b ++ c, rfl⟩
      ⟨v ++ y, heq.symm⟩ hle
    rw [List.append_assoc] at heq
    have hrest := List.append_cancel_left heq
    rw [← List.append_assoc] at hrest
    simp only [List.length_append]
    rcases hb c k x v y hk hv hrest with h | h <;> omega

theorem sealed_flatMap {α : Type} {g : α → Ink} {l : List α} (h : ∀ a ∈ l, Sealed (g a)) :
    Sealed (l.flatMap g) := by
  induction l with
  | nil => exact sealed_nil
  | cons a l ih => exact (h a (by simp)).append (ih fun a' ha' => h a' (by simp [ha']))

/-! ## Reading sealed inks -/

theorem kinds_append {a b : Ink} (h : Parted (fun _ => true) a b) :
    kinds (a ++ b) = kinds a ++ kinds b := by
  have htags := filter_tags_append h
  simp only [List.filter_true] at htags
  rw [kinds, htags, List.map_append, List.map_map]
  rfl

theorem rewrite_flatMap {α : Type} {g : α → Ink} {l : List α} (f : Kind → Option Ink)
    (h : ∀ a ∈ l, Sealed (g a)) (b : Ink) :
    rewrite f (l.flatMap g ++ b) = (l.flatMap fun a => rewrite f (g a)) ++ rewrite f b := by
  induction l with
  | nil => rfl
  | cons a l ih =>
      rw [List.flatMap_cons, List.flatMap_cons, List.append_assoc,
        rewrite_append (parted_mono (h a (by simp) _)), ih fun a' ha' => h a' (by simp [ha']),
        List.append_assoc]

theorem kinds_flatMap {α : Type} {g : α → Ink} {l : List α} (h : ∀ a ∈ l, Sealed (g a))
    (b : Ink) : kinds (l.flatMap g ++ b) = (l.flatMap fun a => kinds (g a)) ++ kinds b := by
  induction l with
  | nil => rfl
  | cons a l ih =>
      rw [List.flatMap_cons, List.flatMap_cons, List.append_assoc, kinds_append (h a (by simp) _),
        ih fun a' ha' => h a' (by simp [ha']), List.append_assoc]

theorem kinds_of_inscribes {k : Kind} {v : Ink} (h : Inscribes k v) : kinds v = [k] := by
  rw [kinds, tags_of_inscribes h]
  rfl

theorem kinds_eq_nil_of_left {w : Ink} (h : ('{', .template) ∉ w) : kinds w = [] := by
  rw [kinds, tags_eq_nil_of_left h]
  rfl

theorem rewrite_of_kinds {f : Kind → Option Ink} {w : Ink} (h : ∀ k ∈ kinds w, f k = none) :
    rewrite f w = w :=
  rewrite_eq_self fun _ htag => h _ (List.mem_map_of_mem htag)

/-- A text that spells a tag is one if the template wrote it. -/
theorem inscribes_of_spells {k : Kind} {t : Text} (h : Spells k t) :
    Inscribes k (ofText .template t) := by
  refine ⟨by rwa [text_ofText], List.all_eq_true.2 fun s _ => ?_⟩
  rw [excerpt_ofText, isTemplate_ofText_template]

theorem not_mem_ofText_data (c : Char) (t : Text) : (c, Origin.template) ∉ ofText .data t := by
  intro h
  obtain ⟨d, -, hd⟩ := List.mem_map.1 h
  cases hd

theorem not_mem_ofText {c : Char} {t : Text} (h : c ∉ t) :
    (c, Origin.template) ∉ ofText .template t := by
  intro hmem
  obtain ⟨d, hd, heq⟩ := List.mem_map.1 hmem
  cases heq
  exact h hd

/-! ## Links -/

/-- A link that the template wrote, with the ink of its URL. -/
def link (u : Ink) : Ink :=
  ofText .template Tag.linkMark ++ (u ++ ofText .template Tag.closeMark)

theorem text_link (u : Ink) : text (link u) = Tag.linkMark ++ text u ++ Tag.closeMark := by
  rw [link, text_append, text_append, text_ofText, text_ofText, List.append_assoc]

theorem sealed_link (u : Ink) : Sealed (link u) := sealed_of_close (text_link u)

/-- A link that spells a tag is one: only its marks have to be template text. -/
theorem inscribes_link {k : Kind} {u : Ink} (h : Tag.linkKind? (text u) = some k) :
    Inscribes k (link u) := by
  have hspells : Spells k (text (link u)) := by
    rw [text_link]
    exact Tag.spells_link_iff.2 h
  have hk := Tag.isLink_of_linkKind? h
  have hsize : extent weight (link u) = extent weight (ofText .template Tag.linkMark) +
      extent weight u + 2 := by
    rw [link, extent_append, extent_append, Nat.add_assoc]
    rfl
  have hmark : extent weight (ofText .template Tag.linkMark) = 8 := by decide
  have hclose : extent weight (ofText .template Tag.closeMark) = 2 := by decide
  have htwo : Text.size Tag.closeMark = 2 := by decide
  have height : Text.size Tag.linkMark = 8 := by decide
  refine ⟨hspells, ?_⟩
  rw [judged, if_pos hk, ← extent_eq_size, List.all_cons, List.all_cons, List.all_nil, htwo, height]
  have hfirst : excerpt weight 0 ⟨0, 8⟩ (link u) = ofText .template Tag.linkMark := by
    rw [link, excerpt_append_left (by omega),
      excerpt_eq_self weight_pos (Nat.le_refl _) (by omega)]
  have hlast : excerpt weight 0 ⟨extent weight (link u) - 2, extent weight (link u)⟩ (link u) =
      ofText .template Tag.closeMark := by
    have hassoc : link u =
        ofText .template Tag.linkMark ++ u ++ ofText .template Tag.closeMark ++ [] := by
      rw [link, List.append_nil, List.append_assoc]
    have := @excerpt_mid _ weight 0 (extent weight (link u) - 2) (extent weight (link u))
      (ofText .template Tag.linkMark ++ u) (ofText .template Tag.closeMark) [] weight_pos
      (by rw [extent_append]; omega) (by omega)
    rwa [← hassoc] at this
  rw [hfirst, hlast, isTemplate_ofText_template, isTemplate_ofText_template]
  rfl

/-- If the URL has no braces of the template, the only tag in a link is the link. -/
theorem eq_link_of_inscribes {k : Kind} {u x v y : Ink} (hopen : ('{', .template) ∉ u)
    (hclose : ('}', .template) ∉ u) (hv : Inscribes k v) (heq : link u = x ++ v ++ y) :
    v = link u := by
  have hx : x = [] := by
    obtain ⟨v', rfl⟩ := hv.head
    have htail : ('{', .template) ∉ (link u).drop 2 := by
      simp [link, Tag.linkMark, Tag.openMark, Tag.closeMark, ofText, hopen]
    rcases x with _ | ⟨c, _ | ⟨d, x⟩⟩
    · rfl
    · -- the second brace of the tag would be the character behind the mark's braces
      obtain ⟨i, hi, -, -⟩ := hv.1
      have htext := congrArg text heq
      rw [text_link, text_append, text_append, hi] at htext
      simp [Tag.linkMark, Tag.openMark, text] at htext
    · rw [heq] at htail
      exact absurd (by simp) htail
  have hy : y = [] := by
    obtain ⟨v', rfl⟩ := hv.last
    have hinit : ('}', Origin.template) ∉ ofText .template Tag.linkMark ++ u := by
      simp [Tag.linkMark, Tag.openMark, ofText, hclose]
    have hsplit : ofText .template Tag.linkMark ++ u ++ [('}', .template), ('}', .template)] =
        x ++ v' ++ [('}', .template), ('}', .template)] ++ y := by
      rw [List.append_assoc, List.append_assoc x]
      exact heq
    rcases List.eq_nil_or_concat' y with rfl | ⟨y, e, rfl⟩
    · rfl
    · -- the tag would end one character or more before the closing braces do
      exfalso
      apply hinit
      rw [show ([('}', .template), ('}', .template)] : Ink) =
        [('}', .template)] ++ [('}', .template)] from rfl, ← List.append_assoc, ← List.append_assoc,
        ← List.append_assoc] at hsplit
      have hsplit := (List.append_inj' hsplit rfl).1
      rcases List.eq_nil_or_concat' y with rfl | ⟨y, e, rfl⟩
      · rw [List.append_nil] at hsplit
        rw [(List.append_inj' hsplit rfl).1]
        simp
      · rw [← List.append_assoc] at hsplit
        rw [(List.append_inj' hsplit rfl).1]
        simp
  rw [heq, hx, hy, List.nil_append, List.append_nil]

section

variable {u : Ink} (hopen : ('{', .template) ∉ u) (hclose : ('}', .template) ∉ u)

include hopen hclose

theorem tags_link_eq_nil (h : Tag.linkKind? (text u) = none) : tags (link u) = [] := by
  apply List.eq_nil_iff_forall_not_mem.2
  intro tag htag
  obtain ⟨x, v, y, heq, hv, -⟩ := mem_tags_iff.1 htag
  have hspells := hv.1
  rw [eq_link_of_inscribes hopen hclose hv heq, text_link, Tag.spells_link_iff, h] at hspells
  cases hspells

/-- A link with a URL without braces of the template is its tag or has none. -/
theorem kinds_link : kinds (link u) = (Tag.linkKind? (text u)).toList := by
  cases h : Tag.linkKind? (text u) with
  | none =>
      rw [kinds, tags_link_eq_nil hopen hclose h]
      rfl
  | some k => exact kinds_of_inscribes (inscribes_link h)

theorem rewrite_link (f : Kind → Option Ink) :
    rewrite f (link u) = ((Tag.linkKind? (text u)).bind f).getD (link u) := by
  cases h : Tag.linkKind? (text u) with
  | none =>
      apply rewrite_of_kinds
      intro k hk
      rw [kinds_link hopen hclose, h] at hk
      cases hk
  | some k => exact rewrite_of_inscribes f (inscribes_link h)

end

/-! ## Links that wait for a value -/

theorem kinds_link_before {a : Ink} (ha : ('}', .template) ∉ a) :
    kinds (ofText .template Tag.linkMark ++ a) = [] := by
  rw [kinds, tags_eq_nil_of_right]
  · rfl
  · simp [Tag.linkMark, Tag.openMark, ofText, ha]

section

variable {k : Kind} {a v : Ink} (ha : ('}', .template) ∉ a) (hv : Inscribes k v)

include hv

theorem parted_link (b : Ink) :
    Parted (fun _ => true) (ofText .template Tag.linkMark ++ a) (v ++ b) := by
  obtain ⟨i, hi, -, -⟩ := hv.1
  refine parted_of_open _ (z := i ++ Tag.closeMark ++ text b) ?_
  rw [text_append, hi]
  simp

include ha

/-- A tag in the URL of a link keeps the link from being one. -/
theorem kinds_link_of_tag (b : Ink) :
    kinds (link (a ++ (v ++ b))) = k :: kinds (b ++ ofText .template Tag.closeMark) := by
  rw [link, List.append_assoc, List.append_assoc, ← List.append_assoc,
    kinds_append (parted_link hv _), kinds_link_before ha,
    kinds_append (sealed_of_spells hv.1 _), kinds_of_inscribes hv]
  rfl

theorem rewrite_link_of_tag (f : Kind → Option Ink) (b : Ink) :
    rewrite f (link (a ++ (v ++ b))) =
      ofText .template Tag.linkMark ++
        (a ++ ((f k).getD v ++ rewrite f (b ++ ofText .template Tag.closeMark))) := by
  have hbefore : rewrite f (ofText .template Tag.linkMark ++ a) =
      ofText .template Tag.linkMark ++ a := by
    apply rewrite_of_kinds
    intro k hk
    rw [kinds_link_before ha] at hk
    cases hk
  rw [link, List.append_assoc, List.append_assoc, ← List.append_assoc,
    rewrite_append (parted_mono (parted_link hv _)), hbefore,
    rewrite_append (parted_mono (sealed_of_spells hv.1 _)), rewrite_of_inscribes f hv,
    List.append_assoc]

end

end TagTemplate.Ink
