import TagTemplate.Proofs.Block.Steps
import TagTemplate.Proofs.Marked.Blank

/-!
# Texts whose blocks are nested

Conditionals and loops are read in different steps, each without regard to the
other. A text is nested if the two can be read together: it is put together of
texts without marks and of blocks around nested bodies, and what stands before
a block or in it is sealed, so that no tag lies over a seam. Resolving its
conditionals leaves a nested text, whatever the context, and expanding its loops
finds every loop complete. With values that are not empty neither step makes a
link without a URL.
-/

namespace TagTemplate

open Tag (Kind Spells)

variable {policy : Policy} {context : Context} {a b t : Text}

/-- The blocks of both families lie one behind the other or in one another. -/
inductive Text.Nested : Text → Prop where
  | flat {t : Text} (hc : Block.marks .conditional (Tag.lex t) = [])
      (hl : Block.marks .loop (Tag.lex t) = []) : Text.Nested t
  | append {a b : Text} (hs : Text.Sealed a) (ha : Text.Nested a) (hb : Text.Nested b) :
      Text.Nested (a ++ b)
  | choice {key opener body closer : Text} (ho : Spells (.ifOpen key) opener)
      (hc : Spells .ifClose closer) (hs : Text.Sealed body) (hb : Text.Nested body) :
      Text.Nested (opener ++ (body ++ closer))
  | choiceElse {key opener body divider alternative closer : Text}
      (ho : Spells (.ifOpen key) opener) (hd : Spells .ifElse divider)
      (hc : Spells .ifClose closer) (hs : Text.Sealed body) (hs' : Text.Sealed alternative)
      (hb : Text.Nested body) (ha : Text.Nested alternative) :
      Text.Nested (opener ++ (body ++ (divider ++ (alternative ++ closer))))
  | loop {key opener body closer : Text} (ho : Spells (.loopOpen key) opener)
      (hc : Spells .loopClose closer) (hs : Text.Sealed body) (hb : Text.Nested body) :
      Text.Nested (opener ++ (body ++ closer))

theorem Text.sealed_nil : Text.Sealed [] := Ink.sealed_nil

theorem Text.Sealed.of_append (h : Text.Sealed (a ++ b)) : Text.Sealed b := by
  rw [Text.Sealed, Ink.ofText_append] at h
  exact Ink.Sealed.of_append h

/-- The text holds a link without a URL. -/
def Text.Blank (t : Text) : Prop := Ink.Blank (Ink.ofText .template t)

theorem Text.Blank.of_part (h : Text.Blank a) (hab : a <:+: b) : Text.Blank b :=
  List.IsInfix.trans h (hab.map _)

theorem Text.blank_append_cases (hs : Text.Sealed a) (h : Text.Blank (a ++ b)) :
    Text.Blank a ∨ Text.Blank b := by
  rw [Text.Blank, Ink.ofText_append] at h
  exact Ink.blank_append_cases h (Ink.Sealed.not_hangs hs)

theorem Block.marks_of_spells_none {family : Family} {k : Kind} {w : Text} (h : Spells k w)
    (hr : Block.role? family k = none) : Block.marks family (Tag.lex w) = [] := by
  rw [Tag.lex_of_spells h, Block.marks, List.filterMap_cons_none (by rw [hr]; rfl),
    List.filterMap_nil]

/-! ## Conditionals -/

/-- What the conditionals of a nested text are resolved to. -/
structure Text.Resolved (policy : Policy) (context : Context) (t r : Text) : Prop where
  settles : Conditional.Settles policy context t r
  nested : Text.Nested r
  isSealed : Text.Sealed t → Text.Sealed r
  blank : Text.Blank r → Text.Blank t

theorem Text.Resolved.append {a b ra rb : Text} (hs : Text.Sealed a)
    (ha : Text.Resolved policy context a ra) (hb : Text.Resolved policy context b rb) :
    Text.Resolved policy context (a ++ b) (ra ++ rb) where
  settles := .append hs ha.settles hb.settles
  nested := .append (ha.isSealed hs) ha.nested hb.nested
  isSealed := fun h => (ha.isSealed hs).append (hb.isSealed h.of_append)
  blank := by
    intro h
    rcases Text.blank_append_cases (ha.isSealed hs) h with h | h
    · exact (ha.blank h).of_part (List.infix_append' [] a b)
    · exact (hb.blank h).of_part (List.suffix_append a b).isInfix

/-- **The conditionals of a nested text** are resolved to a nested text. -/
theorem Text.Nested.exists_resolved (policy : Policy) (context : Context) (h : Text.Nested t) :
    ∃ r, Text.Resolved policy context t r := by
  induction h with
  | @flat t hc hl => exact ⟨t, .of_marks hc, .flat hc hl, id, id⟩
  | @append a b hs _ _ iha ihb =>
      obtain ⟨ra, ha⟩ := iha
      obtain ⟨rb, hb⟩ := ihb
      exact ⟨ra ++ rb, ha.append hs hb⟩
  | @choice key opener body closer ho hc hs _ ih =>
      obtain ⟨r, hr⟩ := ih
      have hsettles := Conditional.Settles.whole ho hc hs hr.settles
      by_cases htrue : context.isTruthy key = true
      · rw [if_pos htrue] at hsettles
        exact ⟨r, hsettles, hr.nested, fun _ => hr.isSealed hs,
          fun h => (hr.blank h).of_part ⟨opener, closer, by simp⟩⟩
      · rw [if_neg htrue] at hsettles
        exact ⟨[], hsettles, .flat rfl rfl, fun _ => Text.sealed_nil,
          fun h => h.of_part List.nil_infix⟩
  | @choiceElse key opener body divider alternative closer ho hd hc hs hs' _ _ ihb iha =>
      obtain ⟨r, hr⟩ := ihb
      obtain ⟨r', hr'⟩ := iha
      have hsettles := Conditional.Settles.wholeElse ho hd hc hs hs' hr.settles hr'.settles
      by_cases htrue : context.isTruthy key = true
      · rw [if_pos htrue] at hsettles
        exact ⟨r, hsettles, hr.nested, fun _ => hr.isSealed hs,
          fun h => (hr.blank h).of_part ⟨opener, divider ++ (alternative ++ closer), by simp⟩⟩
      · rw [if_neg htrue] at hsettles
        exact ⟨r', hsettles, hr'.nested, fun _ => hr'.isSealed hs',
          fun h => (hr'.blank h).of_part ⟨opener ++ (body ++ divider), closer, by simp⟩⟩
  | @loop key opener body closer ho hc hs _ ih =>
      obtain ⟨r, hr⟩ := ih
      have hsealed := hr.isSealed hs
      have hopener := Text.sealed_of_spells ho
      refine ⟨opener ++ (r ++ closer), ?_, .loop ho hc hsealed hr.nested, fun _ => ?_, fun h => ?_⟩
      · exact .append hopener (.of_marks (Block.marks_of_spells_none ho rfl))
          (.append hs hr.settles (.of_marks (Block.marks_of_spells_none hc rfl)))
      · exact hopener.append (hsealed.append (Text.sealed_of_spells hc))
      · rcases Text.blank_append_cases hopener h with h | h
        · exact h.of_part (List.infix_append' [] opener _)
        · rcases Text.blank_append_cases hsealed h with h | h
          · exact (hr.blank h).of_part ⟨opener, closer, by simp⟩
          · exact h.of_part ⟨opener ++ body, [], by simp⟩

/-! ## Loops -/

/-- No scalar that a row of the context has renders empty. -/
def Context.RowsFilled (context : Context) : Prop :=
  ∀ key, ∀ row ∈ context.rows key, Ink.Filled (Row.value row)

namespace Loop

theorem foreign_newline : Foreign Ink.blankLink (Ink.ofText .template ['\n']) := by
  intro c hc
  rw [List.mem_singleton.1 hc]
  decide

section

variable {body : Text} (h : ¬ Ink.Hangs (Ink.ofText .template body))

include h

theorem copy_closed {row : Row} (hrow : Ink.Filled (Row.value row)) :
    ¬ Ink.Hangs ((copy body row).flatMap Piece.marks) ∧
      (Ink.Blank ((copy body row).flatMap Piece.marks) → Text.Blank body) := by
  rw [copy_eq_fill, marks_fill]
  exact ⟨fun hhangs => h (hrow.hangs hhangs), hrow.blank⟩

/-- The copies of a body hold a link without a URL only if the body does. -/
theorem copies_closed {rows : List Row} (hrows : ∀ row ∈ rows, Ink.Filled (Row.value row)) :
    ¬ Ink.Hangs ((copies body rows).flatMap Piece.marks) ∧
      (Ink.Blank ((copies body rows).flatMap Piece.marks) → Text.Blank body) := by
  have hempty : Foreign Ink.blankLink [] := fun _ hc => absurd hc List.not_mem_nil
  induction rows with
  | nil => exact ⟨hempty.not_frays, fun hb => absurd hb (hempty.not_within Ink.blankLink_ne_nil)⟩
  | cons row rows ih =>
      obtain ⟨hcopy, hcopyBlank⟩ := copy_closed h (hrows row (by simp))
      obtain ⟨hrest, hrestBlank⟩ := ih fun row' hrow' => hrows row' (by simp [hrow'])
      cases rows with
      | nil => exact ⟨hcopy, hcopyBlank⟩
      | cons row' rows =>
          show ¬ Ink.Hangs ((copy body row ++
              .template ['\n'] :: copies body (row' :: rows)).flatMap Piece.marks) ∧
            (Ink.Blank ((copy body row ++
              .template ['\n'] :: copies body (row' :: rows)).flatMap Piece.marks) → _)
          rw [List.flatMap_append, List.flatMap_cons]
          constructor
          · intro hhangs
            rcases frays_append_cases hhangs with hhangs | hhangs
            · exact hcopy hhangs
            · exact hrest ((frays_append_cases hhangs).resolve_left foreign_newline.not_frays)
          · intro hblank
            rcases Ink.blank_append_cases hblank hcopy with hblank | hblank
            · exact hcopyBlank hblank
            · rcases Ink.blank_append_cases hblank foreign_newline.not_frays with hblank | hblank
              · exact absurd hblank (foreign_newline.not_within Ink.blankLink_ne_nil)
              · exact hrestBlank hblank

end

end Loop

/-- What the loops of a nested text are expanded to. -/
structure Text.Expanded (context : Context) (t : Text) (w : Ink) : Prop where
  unrolls : Loop.Unrolls context t w
  hangs : context.RowsFilled → Ink.Hangs w → Ink.Hangs (Ink.ofText .template t)
  blank : context.RowsFilled → Ink.Blank w → Text.Blank t

theorem Text.Expanded.of_marks (h : Block.marks .loop (Tag.lex t) = []) :
    Text.Expanded context t (Ink.ofText .template t) := ⟨.of_marks h, fun _ => id, fun _ => id⟩

theorem Text.Expanded.append {v w : Ink} (hs : Text.Sealed a) (ha : Text.Expanded context a v)
    (hb : Text.Expanded context b w) : Text.Expanded context (a ++ b) (v ++ w) := by
  have hv (hrows : context.RowsFilled) : ¬ Ink.Hangs v :=
    fun h => Ink.Sealed.not_hangs hs (ha.hangs hrows h)
  refine ⟨.append hs ha.unrolls hb.unrolls, fun hrows h => ?_, fun hrows h => ?_⟩
  · rw [Ink.ofText_append]
    exact (hb.hangs hrows ((frays_append_cases h).resolve_left (hv hrows))).of_suffix
      (List.suffix_append _ _)
  · rcases Ink.blank_append_cases h (hv hrows) with h | h
    · exact (ha.blank hrows h).of_part (List.infix_append' [] a b)
    · exact (hb.blank hrows h).of_part (List.suffix_append a b).isInfix

/-- A tag that is no mark of a loop, before something else. -/
theorem Text.Expanded.tag {k : Kind} {v : Text} {w : Ink} (h : Spells k v)
    (hr : Block.role? .loop k = none) (hb : Text.Expanded context b w) :
    Text.Expanded context (v ++ b) (Ink.ofText .template v ++ w) :=
  .append (Text.sealed_of_spells h) (.of_marks (Block.marks_of_spells_none h hr)) hb

/-- **The loops of a nested text** are all complete. -/
theorem Text.Nested.exists_expanded (context : Context) (h : Text.Nested t) :
    ∃ w, Text.Expanded context t w := by
  induction h with
  | flat hc hl => exact ⟨_, .of_marks hl⟩
  | append hs _ _ iha ihb =>
      obtain ⟨v, hv⟩ := iha
      obtain ⟨w, hw⟩ := ihb
      exact ⟨_, .append hs hv hw⟩
  | choice ho hc hs _ ih =>
      obtain ⟨w, hw⟩ := ih
      have hcloser : Text.Expanded context _ _ := .of_marks (Block.marks_of_spells_none hc rfl)
      exact ⟨_, .tag ho rfl (.append hs hw hcloser)⟩
  | choiceElse ho hd hc hs hs' _ _ ihb iha =>
      obtain ⟨w, hw⟩ := ihb
      obtain ⟨w', hw'⟩ := iha
      have hcloser : Text.Expanded context _ _ := .of_marks (Block.marks_of_spells_none hc rfl)
      exact ⟨_, .tag ho rfl (.append hs hw (.tag hd rfl (.append hs' hw' hcloser)))⟩
  | @loop key opener body closer ho hc hs _ ih =>
      obtain ⟨w, hw⟩ := ih
      have hbody := Ink.Sealed.not_hangs hs
      refine ⟨_, .whole ho hc hs hw.unrolls, fun hrows h => ?_, fun hrows h => ?_⟩
      · exact absurd h (Loop.copies_closed hbody (hrows key)).1
      · exact ((Loop.copies_closed hbody (hrows key)).2 h).of_part ⟨opener, closer, by simp⟩

end TagTemplate
