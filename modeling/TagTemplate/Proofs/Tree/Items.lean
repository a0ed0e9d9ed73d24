import TagTemplate.Proofs.Check
import TagTemplate.Proofs.Tree.Eval

/-!
# Items

Between the steps of a render a tree is a list of items: text, placeholders,
links and the tags of blocks and references. A placeholder remembers the value
that it has been filled with. The ink of a list of items is what the steps work
on, and each step is done item by item: no tag reaches from one item into the
next, and a link is taken as a whole.
-/

namespace TagTemplate

open Tag (Kind)

/-! ## Cells -/

/-- Text, or a placeholder with its value, once it has one. -/
inductive Cell where
  | literal (t : Plain)
  | value (key : Key) (bound : Option Text)

namespace Cell

/-- The characters of a cell. -/
def ink : Cell → Ink
  | literal t => Ink.ofText .template t.text
  | value key none => Ink.ofText .template (Word.value key).text
  | value _ (some t) => Ink.ofText .data t

/-- The text of a cell, if it has one. -/
def text? : Cell → Option Text
  | literal t => some t.text
  | value _ bound => bound

/-- A cell filled in with the value of its key, unless it has one already. -/
def fill (value : Text → Option Text) : Cell → Cell
  | literal t => literal t
  | .value key bound => .value key (bound.or (value key.text))

theorem inscribes_value (key : Key) : Ink.Inscribes (.value key.text) (value key none).ink :=
  Ink.inscribes_of_spells (Word.value key).spells

/-- Braces of the template are in a cell only if it waits for a value. -/
theorem not_mem_ink {x : Cell} (h : x.text?.isSome = true) {c : Char} (hc : c = '{' ∨ c = '}') :
    (c, Origin.template) ∉ x.ink := by
  cases x with
  | literal t =>
      rcases hc with rfl | rfl
      · exact Ink.not_mem_ofText t.noOpen
      · exact Ink.not_mem_ofText t.noClose
  | value key bound =>
      cases bound with
      | none => cases h
      | some t => exact Ink.not_mem_ofText_data c t

theorem sealed_ink (x : Cell) : Ink.Sealed x.ink := by
  by_cases h : x.text?.isSome = true
  · exact Ink.sealed_of_left (not_mem_ink h (.inl rfl))
  · cases x with
    | literal t => exact absurd rfl h
    | value key bound =>
        cases bound with
        | none => exact Ink.sealed_of_spells (inscribes_value key).1
        | some t => exact absurd rfl h

theorem rewrite_ink {x : Cell} (h : x.text?.isSome = true) (f : Kind → Option Ink) :
    Ink.rewrite f x.ink = x.ink := by
  apply Ink.rewrite_of_kinds
  intro k hk
  rw [Ink.kinds_eq_nil_of_left (not_mem_ink h (.inl rfl))] at hk
  cases hk

theorem text_ink {x : Cell} {t : Text} (h : x.text? = some t) : Ink.text x.ink = t := by
  cases x with
  | literal t' =>
      cases h
      exact Ink.text_ofText .template _
  | value key bound =>
      cases h
      exact Ink.text_ofText .data _

theorem kinds_ink (x : Cell) : ∀ k ∈ Ink.kinds x.ink, ∃ key, k = .value key := by
  intro k hk
  by_cases h : x.text?.isSome = true
  · rw [Ink.kinds_eq_nil_of_left (not_mem_ink h (.inl rfl))] at hk
    cases hk
  · cases x with
    | literal t => exact absurd rfl h
    | value key bound =>
        cases bound with
        | none =>
            rw [Ink.kinds_of_inscribes (inscribes_value key)] at hk
            exact ⟨key.text, List.mem_singleton.1 hk⟩
        | some t => exact absurd rfl h

/-- Filling in values is done cell by cell. -/
theorem rewrite_filling (value : Text → Option Text) (x : Cell) :
    Ink.rewrite (fillingInk value) x.ink = (x.fill value).ink := by
  by_cases h : x.text?.isSome = true
  · rw [rewrite_ink h]
    cases x with
    | literal t => rfl
    | value key bound =>
        cases bound with
        | none => cases h
        | some t => rfl
  · cases x with
    | literal t => exact absurd rfl h
    | value key bound =>
        cases bound with
        | some t => exact absurd rfl h
        | none =>
            rw [Ink.rewrite_of_inscribes _ (inscribes_value key)]
            show ((value key.text).map (Ink.ofText .data)).getD _ =
              (Cell.value key (value key.text)).ink
            cases value key.text <;> rfl

end Cell

/-! ## The cells of a link -/

section Link

variable {cells : List Cell}

/-- Whether all cells have their texts. -/
def Cell.complete (cells : List Cell) : Bool := (cells.map Cell.text?).all Option.isSome

theorem Cell.complete_iff : Cell.complete cells = true ↔ ∀ x ∈ cells, x.text?.isSome = true := by
  simp [Cell.complete]

theorem isUrl_complete (h : Cell.complete cells = true) :
    isUrl (cells.map Cell.text?) = Tag.encloses (urlText (cells.map Cell.text?)) := by
  rw [isUrl]
  exact (congrArg (· && _) h).trans (Bool.true_and _)

theorem isUrl_waiting (h : Cell.complete cells = false) :
    isUrl (cells.map Cell.text?) = false := by
  rw [isUrl]
  exact (congrArg (· && _) h).trans (Bool.false_and _)

theorem Cell.not_mem_flatMap_ink (h : Cell.complete cells = true) {c : Char}
    (hc : c = '{' ∨ c = '}') : (c, Origin.template) ∉ cells.flatMap Cell.ink := by
  intro hmem
  obtain ⟨x, hx, hcx⟩ := List.mem_flatMap.1 hmem
  exact Cell.not_mem_ink (Cell.complete_iff.1 h x hx) hc hcx

theorem Cell.text_flatMap_ink (h : Cell.complete cells = true) :
    Ink.text (cells.flatMap Cell.ink) = urlText (cells.map Cell.text?) := by
  rw [Cell.complete_iff] at h
  induction cells with
  | nil => rfl
  | cons x cells ih =>
      obtain ⟨t, ht⟩ := Option.isSome_iff_exists.1 (h x (by simp))
      rw [List.flatMap_cons, Ink.text_append, ih fun x' hx' => h x' (by simp [hx']),
        Cell.text_ink ht]
      show t ++ urlText (cells.map Cell.text?) = x.text?.getD [] ++ urlText (cells.map Cell.text?)
      rw [ht]
      rfl

/-- A link that waits for a value has a first placeholder. -/
theorem Cell.exists_waiting (h : Cell.complete cells = false) :
    ∃ before key after, cells = before ++ .value key none :: after ∧
      Cell.complete before = true := by
  have hfind : ∃ x, cells.find? (fun x => !x.text?.isSome) = some x := by
    refine Option.isSome_iff_exists.1 (List.find?_isSome.2 ?_)
    by_contra hno
    rw [← Bool.not_eq_true, Cell.complete_iff] at h
    apply h
    intro x hx
    by_contra hx'
    exact hno ⟨x, hx, by simpa using hx'⟩
  obtain ⟨x, hx⟩ := hfind
  obtain ⟨hwaits, before, after, rfl, hbefore⟩ := List.find?_eq_some_iff_append.1 hx
  cases x with
  | literal t => cases hwaits
  | value key bound =>
      cases bound with
      | some t => cases hwaits
      | none =>
          refine ⟨before, key, after, rfl, Cell.complete_iff.2 fun x hx => ?_⟩
          simpa using hbefore x hx

theorem rewrite_closeMark (f : Kind → Option Ink) :
    Ink.rewrite f (Ink.ofText .template Tag.closeMark) = Ink.ofText .template Tag.closeMark := by
  apply Ink.rewrite_of_kinds
  intro k hk
  rw [Ink.kinds_eq_nil_of_left (by decide)] at hk
  cases hk

/-- A link whose cells have their texts is rewritten as a whole. -/
theorem rewrite_link_complete (h : Cell.complete cells = true) (f : Kind → Option Ink) :
    Ink.rewrite f (Ink.link (cells.flatMap Cell.ink)) =
      ((Tag.linkKind? (urlText (cells.map Cell.text?))).bind f).getD
        (Ink.link (cells.flatMap Cell.ink)) := by
  rw [Ink.rewrite_link (Cell.not_mem_flatMap_ink h (.inl rfl))
    (Cell.not_mem_flatMap_ink h (.inr rfl)), Cell.text_flatMap_ink h]

/-- A link that waits for a value is rewritten cell by cell. -/
theorem rewrite_link_waiting (h : Cell.complete cells = false) (f : Kind → Option Ink) :
    Ink.rewrite f (Ink.link (cells.flatMap Cell.ink)) =
      Ink.link (cells.flatMap fun x => Ink.rewrite f x.ink) := by
  obtain ⟨before, key, after, rfl, hbefore⟩ := Cell.exists_waiting h
  have hself : (before.flatMap fun x => Ink.rewrite f x.ink) = before.flatMap Cell.ink :=
    List.flatMap_congr fun x hx => Cell.rewrite_ink (Cell.complete_iff.1 hbefore x hx) f
  rw [List.flatMap_append, List.flatMap_cons,
    Ink.rewrite_link_of_tag (Cell.not_mem_flatMap_ink hbefore (.inr rfl))
      (Cell.inscribes_value key),
    Ink.rewrite_flatMap f (fun x _ => x.sealed_ink), rewrite_closeMark, List.flatMap_append,
    List.flatMap_cons, hself, Ink.rewrite_of_inscribes f (Cell.inscribes_value key), Ink.link]
  simp only [List.append_assoc]

theorem kinds_link_complete (h : Cell.complete cells = true) :
    Ink.kinds (Ink.link (cells.flatMap Cell.ink)) =
      (Tag.linkKind? (urlText (cells.map Cell.text?))).toList := by
  rw [Ink.kinds_link (Cell.not_mem_flatMap_ink h (.inl rfl))
    (Cell.not_mem_flatMap_ink h (.inr rfl)), Cell.text_flatMap_ink h]

theorem kinds_link_waiting (h : Cell.complete cells = false) :
    ∀ k ∈ Ink.kinds (Ink.link (cells.flatMap Cell.ink)), ∃ key, k = .value key := by
  intro k hk
  obtain ⟨before, key, after, rfl, hbefore⟩ := Cell.exists_waiting h
  rw [List.flatMap_append, List.flatMap_cons,
    Ink.kinds_link_of_tag (Cell.not_mem_flatMap_ink hbefore (.inr rfl)) (Cell.inscribes_value key),
    Ink.kinds_flatMap (fun x _ => x.sealed_ink), Ink.kinds_eq_nil_of_left (by decide),
    List.append_nil] at hk
  rcases List.mem_cons.1 hk with rfl | hk
  · exact ⟨key.text, rfl⟩
  · obtain ⟨x, -, hx⟩ := List.mem_flatMap.1 hk
    exact x.kinds_ink k hx

end Link

/-! ## Items -/

/-- What a tree is a list of between the steps of a render. -/
inductive Item where
  | cell (x : Cell)
  | link (cells : List Cell)
  | mark (w : Word) (h : w.kind.isMark = true)

/-- What a tag is replaced by when links are written. -/
def linking (pretty : Bool) : Kind → Option Text
  | .link url => some (Link.write pretty url)
  | _ => none

/-- The data that a tag is replaced by when links are written. -/
def linkingInk (pretty : Bool) (k : Kind) : Option Ink :=
  (linking pretty k).map (Ink.ofText .data)

/-- Nothing in the place of every tag. -/
def strippingInk : Kind → Option Ink := fun _ => some []

section Mark

variable {k : Kind} (h : k.isMark = true)

include h

theorem Tag.not_faulty_of_isMark (forms : List Form) : faulty forms k = false := by
  cases k <;> first | rfl | cases h

theorem fillingInk_of_isMark (value : Text → Option Text) : fillingInk value k = none := by
  cases k <;> first | rfl | cases h

theorem linkingInk_of_isMark (pretty : Bool) : linkingInk pretty k = none := by
  cases k <;> first | rfl | cases h

end Mark

namespace Item

/-- The characters of an item. -/
def ink : Item → Ink
  | cell x => x.ink
  | link cells => Ink.link (cells.flatMap Cell.ink)
  | mark w _ => Ink.ofText .template w.text

/-- An item filled in with the values of its keys. -/
def fill (value : Text → Option Text) : Item → Item
  | cell x => cell (x.fill value)
  | link cells => link (cells.map (Cell.fill value))
  | mark w h => mark w h

/-- The characters of an item after the links are written. -/
def written (pretty : Bool) : Item → Ink
  | cell x => x.ink
  | link cells =>
    if isUrl (cells.map Cell.text?) && !(urlText (cells.map Cell.text?)).isEmpty then
      Ink.ofText .data (Link.write pretty (urlText (cells.map Cell.text?)))
    else Ink.link (cells.flatMap Cell.ink)
  | mark w _ => Ink.ofText .template w.text

/-- The text that an item stands for in the end. -/
def eval (pretty : Bool) : Item → Text
  | cell x => x.text?.getD []
  | link cells => evalLink pretty (cells.map Cell.text?)
  | mark _ _ => []

/-- Whether an item is a link with an empty URL. -/
def isBlank : Item → Bool
  | link cells => isBlankUrl (cells.map Cell.text?)
  | _ => false

theorem inscribes_mark (w : Word) : Ink.Inscribes w.kind (Ink.ofText .template w.text) :=
  Ink.inscribes_of_spells w.spells

theorem sealed_mark (w : Word) : Ink.Sealed (Ink.ofText .template w.text) :=
  Ink.sealed_of_spells (inscribes_mark w).1

theorem sealed_ink (i : Item) : Ink.Sealed i.ink := by
  cases i with
  | cell x => exact x.sealed_ink
  | link cells => exact Ink.sealed_link _
  | mark w h => exact sealed_mark w

theorem sealed_written (pretty : Bool) (i : Item) : Ink.Sealed (i.written pretty) := by
  cases i with
  | cell x => exact x.sealed_ink
  | link cells =>
      rw [written]
      split
      · exact Ink.sealed_of_left (Ink.not_mem_ofText_data _ _)
      · exact Ink.sealed_link _
  | mark w h => exact sealed_mark w

/-- The tags of an item are placeholders, links or the mark that it is. -/
theorem kinds_cases {i : Item} {k : Kind} (hk : k ∈ Ink.kinds i.ink) :
    (∃ key, k = .value key) ∨ k.isLink = true ∨ ∃ w h, i = mark w h ∧ k = w.kind := by
  cases i with
  | cell x => exact .inl (x.kinds_ink k hk)
  | link cells =>
      change k ∈ Ink.kinds (Ink.link (cells.flatMap Cell.ink)) at hk
      cases h : Cell.complete cells with
      | false => exact .inl (kinds_link_waiting h k hk)
      | true =>
          rw [kinds_link_complete h] at hk
          exact .inr (.inl (Tag.isLink_of_linkKind? (Option.mem_toList.1 hk)))
  | mark w h =>
      change k ∈ Ink.kinds (Ink.ofText .template w.text) at hk
      rw [Ink.kinds_of_inscribes (inscribes_mark w)] at hk
      exact .inr (.inr ⟨w, h, rfl, List.mem_singleton.1 hk⟩)

/-! ### Filling in values -/

theorem rewrite_filling (value : Text → Option Text) (i : Item) :
    Ink.rewrite (fillingInk value) i.ink = (i.fill value).ink := by
  cases i with
  | cell x => exact x.rewrite_filling value
  | link cells =>
      have hcells : (cells.flatMap fun x => Ink.rewrite (fillingInk value) x.ink) =
          (cells.map (Cell.fill value)).flatMap Cell.ink := by
        rw [List.flatMap_map]
        exact List.flatMap_congr fun x _ => x.rewrite_filling value
      show _ = Ink.link ((cells.map (Cell.fill value)).flatMap Cell.ink)
      rw [← hcells]
      cases h : Cell.complete cells with
      | false => exact rewrite_link_waiting h _
      | true =>
          have hself : (cells.flatMap fun x => Ink.rewrite (fillingInk value) x.ink) =
              cells.flatMap Cell.ink :=
            List.flatMap_congr fun x hx => Cell.rewrite_ink (Cell.complete_iff.1 h x hx) _
          show Ink.rewrite (fillingInk value) (Ink.link (cells.flatMap Cell.ink)) = _
          rw [hself, rewrite_link_complete h]
          -- a link is nothing to fill in
          cases hk : Tag.linkKind? (urlText (cells.map Cell.text?)) with
          | none => rfl
          | some k =>
              have hlink := Tag.isLink_of_linkKind? hk
              have hnone : fillingInk value k = none := by
                by_contra hsome
                rw [isLink_of_fillingInk (Option.isSome_iff_ne_none.2 hsome)] at hlink
                cases hlink
              show (fillingInk value k).getD _ = _
              rw [hnone]
              rfl
  | mark w h =>
      show Ink.rewrite (fillingInk value) (Ink.ofText .template w.text) =
        Ink.ofText .template w.text
      rw [Ink.rewrite_of_inscribes _ (inscribes_mark w), fillingInk_of_isMark h]
      rfl

/-! ### Writing links -/

theorem rewrite_linking (pretty : Bool) (i : Item) :
    Ink.rewrite (linkingInk pretty) i.ink = i.written pretty := by
  cases i with
  | cell x =>
      apply Ink.rewrite_of_kinds
      intro k hk
      obtain ⟨key, rfl⟩ := x.kinds_ink k hk
      rfl
  | link cells =>
      rw [written]
      cases h : Cell.complete cells with
      | false =>
          rw [isUrl_waiting h]
          apply Ink.rewrite_of_kinds
          intro k hk
          obtain ⟨key, rfl⟩ := kinds_link_waiting h k hk
          rfl
      | true =>
          show Ink.rewrite (linkingInk pretty) (Ink.link (cells.flatMap Cell.ink)) = _
          rw [rewrite_link_complete h, isUrl_complete h, Tag.linkKind?]
          generalize urlText (cells.map Cell.text?) = url
          cases Tag.encloses url with
          | false => rfl
          | true =>
              cases url with
              | nil => rfl
              | cons c t => rfl
  | mark w h =>
      show Ink.rewrite (linkingInk pretty) (Ink.ofText .template w.text) =
        Ink.ofText .template w.text
      rw [Ink.rewrite_of_inscribes _ (inscribes_mark w), linkingInk_of_isMark h]
      rfl

/-! ### Removing tags -/

theorem text_stripped_cell (x : Cell) :
    Ink.text (Ink.rewrite strippingInk x.ink) = x.text?.getD [] := by
  cases h : x.text? with
  | some t =>
      rw [Cell.rewrite_ink (by rw [h]; rfl), Cell.text_ink h]
      rfl
  | none =>
      cases x with
      | literal t => cases h
      | value key bound =>
          cases h
          rw [Ink.rewrite_of_inscribes _ (Cell.inscribes_value key)]
          rfl

theorem text_stripped_cells (cells : List Cell) :
    Ink.text (cells.flatMap fun x => Ink.rewrite strippingInk x.ink) =
      urlText (cells.map Cell.text?) := by
  induction cells with
  | nil => rfl
  | cons x cells ih =>
      rw [List.flatMap_cons, Ink.text_append, ih, text_stripped_cell]
      rfl

/-- What is left of an item is what it stands for. -/
theorem text_stripped (pretty : Bool) (i : Item) :
    Ink.text (Ink.rewrite strippingInk (i.written pretty)) = i.eval pretty := by
  cases i with
  | cell x => exact text_stripped_cell x
  | link cells =>
      rw [written, eval, evalLink]
      cases h : Cell.complete cells with
      | false =>
          rw [isUrl_waiting h]
          show Ink.text (Ink.rewrite strippingInk (Ink.link (cells.flatMap Cell.ink))) = _
          rw [rewrite_link_waiting h, Ink.text_link, text_stripped_cells, List.append_assoc]
          rfl
      | true =>
          have hlink := rewrite_link_complete h strippingInk
          have htext := Ink.text_link (cells.flatMap Cell.ink)
          rw [Cell.text_flatMap_ink h, List.append_assoc] at htext
          rw [Tag.linkKind?] at hlink
          rw [isUrl_complete h]
          generalize urlText (cells.map Cell.text?) = url at hlink htext ⊢
          cases henc : Tag.encloses url with
          | false =>
              rw [henc] at hlink
              show Ink.text (Ink.rewrite strippingInk (Ink.link _)) = Tag.linkMark ++ _
              rw [hlink]
              exact htext
          | true =>
              rw [henc] at hlink
              cases url with
              | nil =>
                  show Ink.text (Ink.rewrite strippingInk (Ink.link _)) = []
                  rw [hlink]
                  rfl
              | cons c t =>
                  show Ink.text (Ink.rewrite strippingInk (Ink.ofText .data _)) = _
                  rw [Ink.rewrite_of_kinds, Ink.text_ofText]
                  · rfl
                  · rw [Ink.kinds_eq_nil_of_left (Ink.not_mem_ofText_data _ _)]
                    exact fun _ hk => absurd hk List.not_mem_nil
  | mark w h =>
      show Ink.text (Ink.rewrite strippingInk (Ink.ofText .template w.text)) = []
      rw [Ink.rewrite_of_inscribes _ (inscribes_mark w)]
      rfl

/-! ### Malformed links -/

/-- Only a link with an empty URL is a malformed link. -/
theorem faulty_kinds (i : Item) :
    (∃ k ∈ Ink.kinds i.ink, faulty [.link] k = true) ↔ i.isBlank = true := by
  have hnot : ¬ false = true := Bool.noConfusion
  cases i with
  | cell x =>
      refine ⟨?_, fun h => absurd h hnot⟩
      intro hfaults
      obtain ⟨k, hk, hfaulty⟩ := hfaults
      obtain ⟨key, rfl⟩ := x.kinds_ink k hk
      cases hfaulty
  | link cells =>
      show (∃ k ∈ Ink.kinds (Ink.link (cells.flatMap Cell.ink)), _) ↔
        (Cell.complete cells && (urlText (cells.map Cell.text?)).isEmpty) = true
      cases h : Cell.complete cells with
      | false =>
          refine ⟨?_, fun h => absurd h hnot⟩
          intro hfaults
          obtain ⟨k, hk, hfaulty⟩ := hfaults
          obtain ⟨key, rfl⟩ := kinds_link_waiting h k hk
          cases hfaulty
      | true =>
          rw [kinds_link_complete h, Tag.linkKind?]
          generalize urlText (cells.map Cell.text?) = url
          cases url with
          | nil => simp [show Tag.encloses [] = true by decide, faulty]
          | cons c t =>
              cases Tag.encloses (c :: t) <;> simp [faulty]
  | mark w h =>
      refine ⟨?_, fun h => absurd h hnot⟩
      intro hfaults
      obtain ⟨k, hk, hfaulty⟩ := hfaults
      rw [show (mark w h).ink = Ink.ofText .template w.text from rfl,
        Ink.kinds_of_inscribes (inscribes_mark w)] at hk
      rw [List.mem_singleton.1 hk, Tag.not_faulty_of_isMark h] at hfaulty
      cases hfaulty

/-! ### Lists of items -/

theorem kinds_items (items : List Item) :
    Ink.kinds (items.flatMap ink) = items.flatMap fun i => Ink.kinds i.ink := by
  have hkinds := Ink.kinds_flatMap (l := items) (fun i _ => i.sealed_ink) []
  rwa [List.append_nil, show Ink.kinds [] = [] from rfl, List.append_nil] at hkinds

theorem rewrite_items (f : Kind → Option Ink) {g : Item → Ink} (hg : ∀ i, Ink.Sealed (g i))
    (items : List Item) :
    Ink.rewrite f (items.flatMap g) = items.flatMap fun i => Ink.rewrite f (g i) := by
  have := Ink.rewrite_flatMap (l := items) f (fun i _ => hg i) []
  rwa [List.append_nil, Ink.rewrite_of_kinds (w := []) (fun _ hk => nomatch hk),
    List.append_nil] at this

/-- The values of a row or of the context are filled in item by item. -/
theorem rewrite_filling_items (value : Text → Option Text) (items : List Item) :
    Ink.rewrite (fillingInk value) (items.flatMap ink) =
      (items.map (fill value)).flatMap ink := by
  rw [rewrite_items _ sealed_ink, List.flatMap_map]
  exact List.flatMap_congr fun i _ => i.rewrite_filling value

theorem rewrite_linking_items (pretty : Bool) (items : List Item) :
    Ink.rewrite (linkingInk pretty) (items.flatMap ink) = items.flatMap (written pretty) := by
  rw [rewrite_items _ sealed_ink]
  exact List.flatMap_congr fun i _ => i.rewrite_linking pretty

theorem text_stripped_items (pretty : Bool) (items : List Item) :
    Ink.text (Ink.rewrite strippingInk (items.flatMap (written pretty))) =
      items.flatMap (eval pretty) := by
  rw [rewrite_items _ (sealed_written pretty)]
  induction items with
  | nil => rfl
  | cons i items ih =>
      rw [List.flatMap_cons, List.flatMap_cons, Ink.text_append, ih, text_stripped]

theorem faultless_items (items : List Item) :
    Faultless [.link] (Ink.tags (items.flatMap ink)) ↔ items.any isBlank = false := by
  rw [faultless_iff_kinds, show (Ink.tags (items.flatMap ink)).map Tag.kind =
    Ink.kinds (items.flatMap ink) from rfl, kinds_items, ← Bool.not_eq_true, List.any_eq_true]
  constructor
  · intro h hfaults
    obtain ⟨i, hi, hblank⟩ := hfaults
    obtain ⟨k, hk, hfaulty⟩ := i.faulty_kinds.2 hblank
    exact h k (List.mem_flatMap.2 ⟨i, hi, hk⟩) hfaulty
  · intro h k hk hfaulty
    obtain ⟨i, hi, hk⟩ := List.mem_flatMap.1 hk
    exact h ⟨i, hi, i.faulty_kinds.1 ⟨k, hk, hfaulty⟩⟩

end Item

end TagTemplate
