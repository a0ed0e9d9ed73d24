import TagTemplate.Proofs.Block.Runs
import TagTemplate.Proofs.Marked.Sealed

/-!
# Texts with clean blocks

A text is clean for a family if all its marks of the family fit. Such texts are
made of few parts: texts without marks, blocks around clean bodies, and clean
texts one behind the other. The blocks that are found are known for each of
them, and lie where the parts do.
-/

namespace TagTemplate

/-- No tag reaches over the end of the text, whatever follows it. -/
def Text.Sealed (t : Text) : Prop := Ink.Sealed (Ink.ofText .template t)

theorem Text.Sealed.append {a b : Text} (ha : Text.Sealed a) (hb : Text.Sealed b) :
    Text.Sealed (a ++ b) := by
  rw [Text.Sealed, Ink.ofText_append]
  exact Ink.Sealed.append ha hb

theorem Text.sealed_of_spells {k : Tag.Kind} {w : Text} (h : Tag.Spells k w) : Text.Sealed w :=
  Ink.sealed_of_spells (Ink.inscribes_of_spells h).1

/-- The tags behind a sealed text are those of the rest alone. -/
theorem Tag.lex_append {a b : Text} (h : Text.Sealed a) :
    Tag.lex (a ++ b) = Tag.lex a ++ (Tag.lex b).map (Tag.shift · (Text.size a)) := by
  have htags := Ink.filter_tags_append (h (Ink.ofText .template b))
  rw [← Ink.ofText_append, Ink.tags_ofText_template, Ink.tags_ofText_template,
    Ink.tags_ofText_template, Ink.text_ofText] at htags
  simpa only [List.filter_true] using htags

theorem Tag.lex_of_spells {k : Tag.Kind} {w : Text} (h : Tag.Spells k w) :
    Tag.lex w = [⟨k, ⟨0, Text.size w⟩⟩] := by
  have htags := Ink.tags_of_inscribes (Ink.inscribes_of_spells h)
  rwa [Ink.tags_ofText_template, Ink.text_ofText] at htags

namespace Block

variable {family : Family} {a b t : Text} {bs bs' : List Block}

theorem marks_append (h : Text.Sealed a) (b : Text) :
    marks family (Tag.lex (a ++ b)) = marks family (Tag.lex a) ++
      (marks family (Tag.lex b)).map (Mark.shift (Text.size a)) := by
  rw [Tag.lex_append h, marks, List.filterMap_append, List.filterMap_map]
  congr 1
  rw [marks, List.map_filterMap]
  apply List.filterMap_congr
  intro tag _
  show (role? family tag.kind).map _ = ((role? family tag.kind).map _).map _
  rw [Option.map_map]
  rfl

theorem marks_of_spells {k : Tag.Kind} {w : Text} (h : Tag.Spells k w) {r : Role}
    (hr : role? family k = some r) : marks family (Tag.lex w) = [⟨r, ⟨0, Text.size w⟩⟩] := by
  rw [Tag.lex_of_spells h, marks, List.filterMap_cons_some (by rw [hr]; rfl)]
  rfl

/-- All marks of the family fit, and these are the blocks. -/
structure Clean (family : Family) (t : Text) (bs : List Block) : Prop where
  runs : Runs .start (marks family (Tag.lex t)) ⟨[], bs⟩
  fits : Text.SpansFit t 0 (bs.map Block.span)
  body : ∀ b ∈ bs, ∃ m, Text.slice? t b.body = some m
  alternative : ∀ b ∈ bs, ∀ s ∈ b.alternative, ∃ m, Text.slice? t s = some m

theorem Clean.find (h : Clean family t bs) (policy : Policy) :
    find family policy t = .ok bs := find_of_runs h.runs policy

/-- A text without marks of the family has no blocks. -/
theorem clean_of_marks (h : marks family (Tag.lex t) = []) : Clean family t [] where
  runs := by
    rw [h]
    exact .nil _
  fits := Text.boundary_zero t
  body := fun _ hb => nomatch hb
  alternative := fun _ hb => nomatch hb

/-- The blocks of two texts together. -/
theorem Clean.append (hs : Text.Sealed a) (ha : Clean family a bs) (hb : Clean family b bs') :
    Clean family (a ++ b) (bs ++ bs'.map (shift (Text.size a))) where
  runs := by
    have hrest := (hb.runs.shift (Text.size a)).behind bs
    rw [marks_append hs]
    refine ha.runs.append ?_
    simpa [Progress.behind, Progress.shift, Progress.start] using hrest
  fits := by
    have hfits := ha.fits.append hb.fits
    rw [List.map_map] at hfits
    rw [List.map_append, List.map_map]
    exact hfits
  body := by
    intro x hx
    rcases List.mem_append.1 hx with hx | hx
    · obtain ⟨m, hm⟩ := ha.body x hx
      exact ⟨m, Text.slice?_append_left hm b⟩
    · obtain ⟨y, hy, rfl⟩ := List.mem_map.1 hx
      obtain ⟨m, hm⟩ := hb.body y hy
      exact ⟨m, Text.slice?_append_right hm a⟩
  alternative := by
    intro x hx s hsx
    rcases List.mem_append.1 hx with hx | hx
    · obtain ⟨m, hm⟩ := ha.alternative x hx s hsx
      exact ⟨m, Text.slice?_append_left hm b⟩
    · obtain ⟨y, hy, rfl⟩ := List.mem_map.1 hx
      obtain ⟨r, hr, rfl⟩ := Option.map_eq_some_iff.1 hsx
      obtain ⟨m, hm⟩ := hb.alternative y hy r hr
      exact ⟨m, Text.slice?_append_right hm a⟩

/-! ## One block -/

section

variable {opener closer : Text} {k k' : Tag.Kind} {key : Text}

/-- The whole of a text as a block. -/
def whole (key opener body closer : Text) : Block :=
  ⟨key, ⟨0, Text.size (opener ++ (body ++ closer))⟩,
    ⟨Text.size opener, Text.size opener + Text.size body⟩, none⟩

/-- The whole of a text as a block with an alternative. -/
def wholeElse (key opener body divider alternative closer : Text) : Block :=
  ⟨key, ⟨0, Text.size (opener ++ (body ++ (divider ++ (alternative ++ closer))))⟩,
    ⟨Text.size opener, Text.size opener + Text.size body⟩,
    some ⟨Text.size opener + Text.size body + Text.size divider,
      Text.size opener + Text.size body + Text.size divider + Text.size alternative⟩⟩

/-- A clean text between an opening and a closing tag is the body of a block. -/
theorem clean_whole (ho : Tag.Spells k opener) (hc : Tag.Spells k' closer)
    (hk : role? family k = some (.opens key)) (hk' : role? family k' = some .closes) {body : Text}
    (hs : Text.Sealed body) (hb : Clean family body bs) :
    Clean family (opener ++ (body ++ closer)) [whole key opener body closer] where
  runs := by
    rw [marks_append (Text.sealed_of_spells ho), marks_append hs, marks_of_spells ho hk,
      marks_of_spells hc hk', List.map_append, List.map_singleton, List.map_singleton]
    have hinner := (hb.runs.shift (Text.size opener)).inside
      ⟨key, ⟨0, Text.size opener⟩, none⟩ [] []
    refine Runs.append (.single (.opens _ _ _ _)) (hinner.append (.single ?_))
    have hclose := Accepts.closesOuter ⟨key, ⟨0, Text.size opener⟩, none⟩
      (((⟨0, Text.size closer⟩ : Span).shift (Text.size body)).shift (Text.size opener)) []
    have hwhole : Pending.close ⟨key, ⟨0, Text.size opener⟩, none⟩
        (((⟨0, Text.size closer⟩ : Span).shift (Text.size body)).shift (Text.size opener)) =
        whole key opener body closer := by
      simp only [Pending.close, Span.shift, whole, Text.size_append, Block.mk.injEq,
        Span.mk.injEq, true_and, and_true]
      omega
    rwa [hwhole] at hclose
  fits := Text.spansFit_whole _
  body := by
    intro x hx
    rw [List.mem_singleton.1 hx]
    exact ⟨body, Text.slice?_mid opener body closer⟩
  alternative := by
    intro x hx s hsx
    rw [List.mem_singleton.1 hx] at hsx
    cases hsx

/-- Two clean texts, divided, between an opening and a closing tag are the bodies of a block. -/
theorem clean_wholeElse {divider : Text} {kd : Tag.Kind} {body alternative : Text}
    (ho : Tag.Spells k opener) (hd : Tag.Spells kd divider) (hc : Tag.Spells k' closer)
    (hk : role? family k = some (.opens key)) (hkd : role? family kd = some .divides)
    (hk' : role? family k' = some .closes) (hs : Text.Sealed body) (hs' : Text.Sealed alternative)
    (hb : Clean family body bs) (ha : Clean family alternative bs') :
    Clean family (opener ++ (body ++ (divider ++ (alternative ++ closer))))
      [wholeElse key opener body divider alternative closer] where
  runs := by
    rw [marks_append (Text.sealed_of_spells ho), marks_append hs,
      marks_append (Text.sealed_of_spells hd), marks_append hs', marks_of_spells ho hk,
      marks_of_spells hd hkd, marks_of_spells hc hk']
    simp only [List.map_append, List.map_singleton, List.map_map]
    have hinner := (hb.runs.shift (Text.size opener)).inside
      ⟨key, ⟨0, Text.size opener⟩, none⟩ [] []
    have hinner' := (((ha.runs.shift (Text.size divider)).shift (Text.size body)).shift
      (Text.size opener)).inside
      ⟨key, ⟨0, Text.size opener⟩, some (((⟨0, Text.size divider⟩ : Span).shift
        (Text.size body)).shift (Text.size opener))⟩ [] []
    rw [List.map_map, List.map_map] at hinner'
    refine Runs.append (.single (.opens _ _ _ _)) (hinner.append ?_)
    refine Runs.append (.single (.divides _ _ _ _ _)) (hinner'.append (.single ?_))
    have hclose := Accepts.closesOuter
      ⟨key, ⟨0, Text.size opener⟩, some (((⟨0, Text.size divider⟩ : Span).shift
        (Text.size body)).shift (Text.size opener))⟩
      (((((⟨0, Text.size closer⟩ : Span).shift (Text.size alternative)).shift
        (Text.size divider)).shift (Text.size body)).shift (Text.size opener)) []
    have hwhole : Pending.close
        ⟨key, ⟨0, Text.size opener⟩, some (((⟨0, Text.size divider⟩ : Span).shift
          (Text.size body)).shift (Text.size opener))⟩
        (((((⟨0, Text.size closer⟩ : Span).shift (Text.size alternative)).shift
          (Text.size divider)).shift (Text.size body)).shift (Text.size opener)) =
        wholeElse key opener body divider alternative closer := by
      simp only [Pending.close, Span.shift, wholeElse, Text.size_append, Block.mk.injEq,
        Span.mk.injEq, Option.some.injEq, true_and]
      omega
    rwa [hwhole] at hclose
  fits := Text.spansFit_whole _
  body := by
    intro x hx
    rw [List.mem_singleton.1 hx]
    exact ⟨body, Text.slice?_mid opener body _⟩
  alternative := by
    intro x hx s hsx
    rw [List.mem_singleton.1 hx] at hsx
    cases hsx
    refine ⟨alternative, ?_⟩
    rw [← Text.size_append, ← Text.size_append]
    have hmid := Text.slice?_mid (opener ++ body ++ divider) alternative closer
    rwa [List.append_assoc, List.append_assoc] at hmid

end

end Block

end TagTemplate
