import TagTemplate.Proofs.Marked.Filling
import TagTemplate.Proofs.Slices.Block

/-!
# Marked text in range

The last three steps of a render work on marked text. They look for tags in the
joined text and judge them there, but what they cut out are parts of pieces: a
range of the joined text is clipped to each piece in turn and counted from where
the piece begins. Offsets are subtracted here, by `difference?`, which has no
result where a difference would be negative.
-/

namespace TagTemplate

/-- The difference of two offsets, if it is one. -/
def difference? (m n : Nat) : Option Nat := if n ≤ m then some (m - n) else none

theorem difference?_eq {m n : Nat} (h : n ≤ m) : difference? m n = some (m - n) := if_pos h

namespace Marked

variable {m : Marked}

/-! ## Tags -/

/-- The opening and the closing mark of a link, which lie in it one behind the other. -/
def linkEnds? (link : Span) : Option (Span × Span) := do
  let inner ← difference? link.stop (Text.size Tag.closeMark)
  let opener : Span := ⟨link.start, link.start + Text.size Tag.linkMark⟩
  let closer : Span := ⟨inner, link.stop⟩
  if SpansWithin link.stop link.start [opener, closer] then pure (opener, closer) else none

/-- Whether a tag of the joined text was written by the template. -/
def wrote? (m : Marked) (tag : Tag) : Option Bool :=
  if tag.kind.isLink then do
    let (opener, closer) ← linkEnds? tag.span
    pure (m.isTemplate opener && m.isTemplate closer)
  else pure (m.isTemplate tag.span)

/-- Those of some tags that the template wrote. -/
def keep? (m : Marked) : List Tag → Option (List Tag)
  | [] => pure []
  | tag :: tags => do
    let wrote ← m.wrote? tag
    let kept ← m.keep? tags
    pure (if wrote then tag :: kept else kept)

/-- The tags that the template wrote. -/
def tags? (m : Marked) : Option (List Tag) := do
  let tags ← Tag.lex? m.text
  m.keep? tags

theorem linkEnds?_of_room {link : Span}
    (h : link.start + Text.size Tag.linkMark + Text.size Tag.closeMark ≤ link.stop) :
    linkEnds? link = some (⟨link.start, link.start + Text.size Tag.linkMark⟩,
      ⟨link.stop - Text.size Tag.closeMark, link.stop⟩) := by
  rw [linkEnds?, difference?_eq (by omega), Option.bind_eq_bind, Option.bind_some]
  exact if_pos ⟨Nat.le_refl _, Nat.le_add_right _ _, Nat.le_sub_of_add_le h, Nat.sub_le _ _,
    Nat.le_refl _⟩

/-- The marks of a link can be told apart exactly if there is room in it for both. -/
theorem exists_linkEnds?_iff {link : Span} :
    (∃ ends, linkEnds? link = some ends) ↔
      link.start + Text.size Tag.linkMark + Text.size Tag.closeMark ≤ link.stop := by
  constructor
  · intro h
    obtain ⟨ends, hends⟩ := h
    obtain ⟨inner, hinner, hends⟩ := Option.bind_eq_some_iff.1 hends
    obtain ⟨hle, hinner⟩ := Option.ite_none_right_eq_some.1 hinner
    obtain ⟨⟨-, -, hbetween, -⟩, -⟩ := Option.ite_none_right_eq_some.1 hends
    cases hinner
    exact Nat.add_le_of_le_sub hle hbetween
  · intro h
    exact ⟨_, linkEnds?_of_room h⟩

/-- Every link of a text has room for its marks. -/
theorem link_room {t : Text} {tag : Tag} (h : tag ∈ Tag.lex t) (hk : tag.kind.isLink = true) :
    tag.span.start + Text.size Tag.linkMark + Text.size Tag.closeMark ≤ tag.span.stop := by
  obtain ⟨a, w, b, -, hw, hspan⟩ := Tag.mem_lex_iff.1 h
  obtain ⟨url, rfl⟩ := hw.link_shape hk
  rw [hspan]
  simp only [Text.size_append]
  omega

theorem wrote?_eq {tag : Tag} (h : tag ∈ Tag.lex m.text) : m.wrote? tag = some (m.wrote tag) := by
  rw [wrote?, wrote]
  split
  next hk =>
    rw [linkEnds?_of_room (link_room h hk)]
    rfl
  next => rfl

theorem keep?_eq {tags : List Tag} (h : ∀ tag ∈ tags, tag ∈ Tag.lex m.text) :
    m.keep? tags = some (tags.filter m.wrote) := by
  induction tags with
  | nil => rfl
  | cons tag tags ih =>
      obtain ⟨htag, htags⟩ := List.forall_mem_cons.1 h
      rw [keep?, wrote?_eq htag, ih htags, List.filter_cons]
      rfl

theorem tags?_eq (m : Marked) : m.tags? = some m.tags := by
  rw [tags?, Tag.lex?_eq]
  exact keep?_eq fun _ h => h

/-! ## Splices -/

/-- The parts of the pieces that lie in a range, the first piece starting at byte `offset`. -/
def rangeFrom? (offset : Nat) (s : Span) : List Piece → Option (List Piece)
  | [] => pure []
  | p :: ps => do
    let stop := offset + Text.size p.text
    let first := max s.start offset
    let last := min s.stop stop
    let rest ← rangeFrom? stop s ps
    if first < last then
      let start ← difference? first offset
      let stop ← difference? last offset
      let part ← Text.slice? p.text ⟨start, stop⟩
      pure (⟨p.origin, part⟩ :: rest)
    else pure rest

/-- The pieces from byte `pos` on with each range replaced. -/
def splicedFrom? (m : Marked) (pos : Nat) : List (Span × Piece) → Option (List Piece)
  | [] => rangeFrom? 0 ⟨pos, m.size⟩ m.pieces
  | (s, p) :: edits => do
    let gap ← rangeFrom? 0 ⟨pos, s.start⟩ m.pieces
    let rest ← splicedFrom? m s.stop edits
    pure (gap ++ p :: rest)

/-- The text with each range replaced. They have to come in order and not to overlap. -/
def splice? (m : Marked) (edits : List (Span × Piece)) : Option Marked :=
  if SpansWithin m.size 0 (edits.map Prod.fst) then (m.splicedFrom? 0 edits).map ofPieces
  else none

/-- A range of the joined text is clipped to a range of each piece. -/
theorem rangeFrom?_eq {offset i j : Nat} {ps : List Piece}
    (hi : Text.Boundary (ps.flatMap Piece.text)
      (min (i - offset) (Text.size (ps.flatMap Piece.text))))
    (hj : Text.Boundary (ps.flatMap Piece.text)
      (min (j - offset) (Text.size (ps.flatMap Piece.text)))) :
    rangeFrom? offset ⟨i, j⟩ ps = some (rangeFrom offset ⟨i, j⟩ ps) := by
  induction ps generalizing offset with
  | nil => rfl
  | cons p ps ih =>
      rw [List.flatMap_cons] at hi hj
      obtain ⟨hip, hips⟩ := Text.boundary_clip_append hi
      obtain ⟨hjp, hjps⟩ := Text.boundary_clip_append hj
      rw [Nat.sub_sub] at hips hjps
      rw [rangeFrom?, ih hips hjps, rangeFrom, Option.bind_eq_bind, Option.bind_some]
      dsimp only
      by_cases hlt : max i offset < min j (offset + Text.size p.text)
      · have hi' : max i offset - offset = min (i - offset) (Text.size p.text) := by omega
        have hj' : min j (offset + Text.size p.text) - offset =
            min (j - offset) (Text.size p.text) := by
          omega
        rw [if_pos hlt, if_pos (by omega), difference?_eq (by omega), difference?_eq (by omega),
          hi', hj', Option.bind_eq_bind, Option.bind_some, Option.bind_eq_bind, Option.bind_some,
          Text.slice?_eq_slice hip hjp (by omega)]
        rfl
      · rw [if_neg hlt, if_neg (by omega)]
        rfl

theorem range?_eq {i j : Nat} (hi : Text.Boundary m.text i) (hj : Text.Boundary m.text j) :
    rangeFrom? 0 ⟨i, j⟩ m.pieces = some (rangeFrom 0 ⟨i, j⟩ m.pieces) :=
  rangeFrom?_eq hi.clip hj.clip

theorem splicedFrom?_eq {pos : Nat} {edits : List (Span × Piece)}
    (h : Text.SpansFit m.text pos (edits.map Prod.fst)) :
    m.splicedFrom? pos edits = some (m.splicedFrom pos edits) := by
  induction edits generalizing pos with
  | nil => exact range?_eq h (Text.boundary_size m.text)
  | cons e edits ih =>
      obtain ⟨s, p⟩ := e
      obtain ⟨hpos, hstart, -, -, hrest⟩ := h
      rw [splicedFrom?, range?_eq hpos hstart, ih hrest]
      rfl

theorem splice?_eq {edits : List (Span × Piece)}
    (h : Text.SpansFit m.text 0 (edits.map Prod.fst)) :
    m.splice? edits = some (m.splice edits) := by
  have hwithin : SpansWithin m.size 0 (edits.map Prod.fst) := h.within
  rw [splice?, if_pos hwithin, splicedFrom?_eq h]
  rfl

theorem within_of_splice? {m' : Marked} {edits : List (Span × Piece)}
    (h : m.splice? edits = some m') : SpansWithin m.size 0 (edits.map Prod.fst) := by
  rw [splice?] at h
  exact (Option.ite_none_right_eq_some.1 h).1

/-! ## The steps -/

/-- The text with the values of its placeholders filled in. -/
def fillValues? (context : Context) (m : Marked) : Option Marked := do
  let tags ← m.tags?
  m.splice? (tags.filterMap (value? context))

/-- The text with its links written. -/
def writeLinks? (policy : Policy) (pretty : Bool) (m : Marked) :
    Option (Except Error Marked) := do
  let tags ← m.tags?
  match ← reportMalformed? policy [.link] m.text tags with
  | .error e => pure (.error e)
  | .ok () => do
    let spliced ← m.splice? (tags.filterMap (link? pretty))
    pure (.ok spliced)

/-- The text without the tags that the template wrote. -/
def strip? (m : Marked) : Option Marked := do
  let tags ← m.tags?
  m.splice? (tags.map fun tag => (tag.span, .template []))

/-- The text in the end. -/
def clean? (m : Marked) : Option Text := do
  let stripped ← m.strip?
  pure (Text.collapseBreaks stripped.text)

theorem span_of_value? (context : Context) (tag : Tag) :
    ∀ e ∈ value? context tag, e.1 = tag.span := by
  intro e he
  rw [value?] at he
  split at he
  · obtain ⟨scalar, -, rfl⟩ := Option.map_eq_some_iff.1 he
    rfl
  · cases he

theorem span_of_link? (pretty : Bool) (tag : Tag) : ∀ e ∈ link? pretty tag, e.1 = tag.span := by
  intro e he
  rw [link?] at he
  split at he
  · cases he
    rfl
  · cases he

theorem sublist_tags (m : Marked) : m.tags.Sublist (Tag.lex m.text) := List.filter_sublist

theorem fillValues?_eq (context : Context) (m : Marked) :
    m.fillValues? context = some (m.fillValues context) := by
  rw [fillValues?, tags?_eq]
  exact splice?_eq (Ink.spansFit_filterMap m.sublist_tags (span_of_value? context))

theorem writeLinks?_eq (policy : Policy) (pretty : Bool) (m : Marked) :
    m.writeLinks? policy pretty = some (m.writeLinks policy pretty) := by
  have hstart : ∀ tag ∈ m.tags, Text.Boundary m.text tag.span.start :=
    fun tag htag => (Tag.boundary_of_mem_lex (m.sublist_tags.subset htag)).1
  rw [writeLinks?, tags?_eq, Option.bind_eq_bind, Option.bind_some, reportMalformed?_eq hstart,
    Option.bind_eq_bind, Option.bind_some, writeLinks]
  cases reportMalformed policy [.link] m.text m.tags with
  | error e => rfl
  | ok u =>
      dsimp only
      rw [splice?_eq (Ink.spansFit_filterMap m.sublist_tags (span_of_link? pretty))]
      rfl

theorem strip?_eq (m : Marked) : m.strip? = some m.strip := by
  rw [strip?, tags?_eq]
  refine splice?_eq ?_
  rw [List.map_map]
  exact Ink.spansFit_of_sublist m.sublist_tags

theorem clean?_eq (m : Marked) : m.clean? = some m.clean := by
  rw [clean?, strip?_eq]
  rfl

end Marked

end TagTemplate
