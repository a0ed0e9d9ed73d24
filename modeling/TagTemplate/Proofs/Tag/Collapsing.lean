import TagTemplate.Proofs.Tag.Spelling
import TagTemplate.Proofs.Text.LineBreak

/-!
# Tags in collapsed text

Collapsing line breaks makes no tag. The braces of a tag, the mark of its form
and its key hold no line breaks, so in a collapsed text they are those of the
text itself. Only the URL of a link can be shorter: `classify_collapseBreaks`.
-/

namespace TagTemplate.Tag

open Text (collapseBreaks isBreakChar Unbroken)

variable {t i rest name : Text} {c : Char} {k : Kind} {allowed : Char → Bool}

/-- The kind of a tag after line breaks are collapsed. -/
def Kind.collapse : Kind → Kind
  | link url => link (collapseBreaks url)
  | k => k

theorem not_isBreakChar_of_isNameChar (h : isNameChar c = true) : isBreakChar c = false := by
  have hfeed : c ≠ '\n' := by
    rintro rfl
    exact absurd h (by decide)
  have hreturn : c ≠ '\r' := by
    rintro rfl
    exact absurd h (by decide)
  simp [isBreakChar, hfeed, hreturn]

theorem not_isBreakChar_of_isKeyChar (h : isKeyChar c = true) : isBreakChar c = false :=
  not_isBreakChar_of_isNameChar (by rw [isNameChar, h, Bool.true_or])

theorem isEmpty_collapseBreaks : (collapseBreaks name).isEmpty = name.isEmpty := by
  rw [Bool.eq_iff_iff, List.isEmpty_iff, List.isEmpty_iff, Text.collapseBreaks_eq_nil_iff]

/-- A name is as allowed when its line breaks are collapsed as before. -/
theorem all_collapseBreaks (hallowed : ∀ c, allowed c = true → isBreakChar c = false) :
    (collapseBreaks name).all allowed = name.all allowed := by
  have hplain : ∀ {s : Text}, s.all allowed = true → Unbroken s :=
    fun h c hc => hallowed c (List.all_eq_true.1 h c hc)
  rw [Bool.eq_iff_iff]
  constructor
  · intro h
    rwa [← (Text.collapseBreaks_eq_iff (hplain h)).1 rfl] at h
  · intro h
    rwa [(Text.collapseBreaks_eq_iff (hplain h)).2 rfl]

theorem named_collapseBreaks {form : Form} {make : Text → Kind}
    (hallowed : ∀ c, allowed c = true → isBreakChar c = false)
    (hmake : ∀ s, (make s).collapse = make s) :
    named form allowed make (collapseBreaks name) = (named form allowed make name).collapse := by
  rw [named, named, isEmpty_collapseBreaks, all_collapseBreaks hallowed]
  split
  · rfl
  · split
    next h =>
      have hplain : Unbroken name :=
        fun c hc => hallowed c (List.all_eq_true.1 h c hc)
      rw [(Text.collapseBreaks_eq_iff hplain).2 rfl, hmake]
    · rfl

theorem isPrefixOf?_collapseBreaks {mark : Text} (hmark : Unbroken mark) :
    mark.isPrefixOf? (collapseBreaks rest) = (mark.isPrefixOf? rest).map collapseBreaks := by
  ext y
  simp only [Text.isPrefixOf?_eq_some_iff, Option.map_eq_some_iff,
    Text.collapseBreaks_eq_append_iff hmark]

theorem classifyDirective_collapseBreaks :
    classifyDirective (collapseBreaks rest) = (classifyDirective rest).map Kind.collapse := by
  have hkeyed : ∀ {form : Form} {make : Text → Kind}, (∀ s, (make s).collapse = make s) →
      ∀ key, named form isKeyChar make (collapseBreaks key) =
        (named form isKeyChar make key).collapse :=
    fun hmake _ => named_collapseBreaks (fun _ => not_isBreakChar_of_isKeyChar) hmake
  have hword : ∀ w ∈ ["else".toList, "endif".toList, "endforeach".toList],
      (collapseBreaks rest = w ↔ rest = w) := by
    intro w hw
    exact Text.collapseBreaks_eq_iff (by revert w; decide)
  simp only [classifyDirective, hword _ List.mem_cons_self, hword "endif".toList (by simp),
    hword "endforeach".toList (by simp)]
  split
  · rfl
  split
  · rfl
  split
  · rfl
  rw [isPrefixOf?_collapseBreaks (by decide), isPrefixOf?_collapseBreaks (by decide),
    isPrefixOf?_collapseBreaks (by decide)]
  cases "if:".toList.isPrefixOf? rest with
  | some key => exact congrArg some (hkeyed (fun _ => rfl) key)
  | none =>
  cases "foreach:".toList.isPrefixOf? rest with
  | some key => exact congrArg some (hkeyed (fun _ => rfl) key)
  | none =>
  cases "link:".toList.isPrefixOf? rest with
  | some url =>
      show some _ = some _
      rw [isEmpty_collapseBreaks]
      split <;> rfl
  | none => rfl

theorem unbroken_openMark : Unbroken openMark := by decide

theorem unbroken_closeMark : Unbroken closeMark := by decide

theorem contains_openMark_collapseBreaks :
    Text.contains openMark (collapseBreaks i) = Text.contains openMark i := by
  have hiff : ∀ {x y : Text}, collapseBreaks i = x ++ openMark ++ y ↔ _ :=
    Text.collapseBreaks_eq_infix_iff (by decide) unbroken_openMark
  rw [Bool.eq_iff_iff, Text.contains_iff, Text.contains_iff]
  constructor
  · rintro ⟨a, b, h⟩
    obtain ⟨p, q, hi, -, -⟩ := hiff.1 h
    exact ⟨p, q, hi⟩
  · rintro ⟨p, q, hi⟩
    exact ⟨_, _, hiff.2 ⟨p, q, hi, rfl, rfl⟩⟩

theorem classify_partial : classify ('>' :: rest) =
    if Text.contains openMark ('>' :: rest) then none
    else some (named .inclusion isNameChar .inclusion rest) := rfl

theorem classify_directive : classify ('#' :: rest) =
    if Text.contains openMark ('#' :: rest) then none else classifyDirective rest := rfl

/-- An interior that begins with neither mark of a form has to be a key. -/
theorem classify_unmarked (hpartial : c ≠ '>') (hdirective : c ≠ '#') :
    classify (c :: rest) =
      if Text.contains openMark (c :: rest) then none
      else if (c :: rest).all isKeyChar then some (.value (c :: rest)) else none := by
  simp [classify, hpartial, hdirective]

/-- No interior begins with a line break. -/
theorem classify_break (hc : isBreakChar c = true) : classify (c :: rest) = none := by
  have hkey : (c :: rest).all isKeyChar = false := by
    rw [List.all_cons, Bool.and_eq_false_imp]
    intro h
    rw [not_isBreakChar_of_isKeyChar h] at hc
    cases hc
  have hpartial : c ≠ '>' := by
    rintro rfl
    cases hc
  have hdirective : c ≠ '#' := by
    rintro rfl
    cases hc
  rw [classify_unmarked hpartial hdirective, hkey]
  split <;> rfl

/-- A text that begins with a line break still does when its line breaks are collapsed. -/
theorem exists_collapseBreaks_break (hc : isBreakChar c = true) :
    ∃ d s, collapseBreaks (c :: t) = d :: s ∧ isBreakChar d = true := by
  cases h : collapseBreaks (c :: t) with
  | nil => cases Text.collapseBreaks_eq_nil_iff.1 h
  | cons d s =>
      refine ⟨d, s, rfl, ?_⟩
      cases hd : isBreakChar d with
      | true => rfl
      | false =>
          have hplain : Unbroken [d] := by simpa [Unbroken] using hd
          obtain ⟨q, hq, -⟩ := (Text.collapseBreaks_eq_append_iff hplain).1 h
          obtain ⟨rfl, -⟩ := List.cons.inj hq
          rw [hd] at hc
          cases hc

/-- An interior has the same form when its line breaks are collapsed. -/
theorem classify_collapseBreaks :
    classify (collapseBreaks i) = (classify i).map Kind.collapse := by
  cases i with
  | nil => rfl
  | cons c i =>
  cases hc : isBreakChar c with
  | true =>
      obtain ⟨d, s, hd, hbreak⟩ := exists_collapseBreaks_break (t := i) hc
      rw [hd, classify_break hbreak, classify_break hc]
      rfl
  | false =>
    have hcons : collapseBreaks (c :: i) = c :: collapseBreaks i :=
      Text.collapseBreaks_cons (p := []) hc
    have hcontains : Text.contains openMark (c :: collapseBreaks i) =
        Text.contains openMark (c :: i) := hcons ▸ contains_openMark_collapseBreaks
    rw [hcons]
    by_cases hpartial : c = '>'
    · subst hpartial
      have hmake : ∀ s, (Kind.inclusion s).collapse = .inclusion s := fun _ => rfl
      rw [classify_partial, classify_partial, hcontains]
      split
      · rfl
      · exact congrArg some (named_collapseBreaks (fun _ => not_isBreakChar_of_isNameChar) hmake)
    by_cases hdirective : c = '#'
    · subst hdirective
      rw [classify_directive, classify_directive, hcontains]
      split
      · rfl
      · exact classifyDirective_collapseBreaks
    · -- a key is unchanged
      have hall : (c :: collapseBreaks i).all isKeyChar = (c :: i).all isKeyChar :=
        hcons ▸ all_collapseBreaks fun _ => not_isBreakChar_of_isKeyChar
      rw [classify_unmarked hpartial hdirective, classify_unmarked hpartial hdirective, hcontains,
        hall]
      split
      · rfl
      · split
        next hkey =>
          have hplain : Unbroken (c :: i) :=
            fun d hd => not_isBreakChar_of_isKeyChar (List.all_eq_true.1 hkey d hd)
          rw [← hcons, (Text.collapseBreaks_eq_iff hplain).2 rfl]
          rfl
        · rfl

theorem collapseBreaks_append_closeMark :
    collapseBreaks (i ++ closeMark) = collapseBreaks i ++ closeMark := by
  have hend := Text.collapseBreaks_append_append (p := i) (q := []) (by decide) unbroken_closeMark
  rw [List.append_nil] at hend
  exact hend.trans (List.append_nil _)

/-- Closing braces that do not begin early in a collapsed interior do not in the interior. -/
theorem closes_of_collapseBreaks (h : Closes (collapseBreaks i)) : Closes i := by
  intro x y hxy
  have hcollapsed : collapseBreaks i ++ closeMark =
      collapseBreaks x ++ closeMark ++ collapseBreaks y := by
    rw [← collapseBreaks_append_closeMark, hxy]
    exact Text.collapseBreaks_append_append (by decide) unbroken_closeMark
  -- what stands behind the braces is empty in the collapsed text, so in the text
  have hle := h _ _ hcollapsed
  have hlen := congrArg List.length hcollapsed
  have hlen' := congrArg List.length hxy
  simp only [List.length_append] at hlen hlen'
  have hy : y = [] :=
    Text.collapseBreaks_eq_nil_iff.1 (List.length_eq_zero_iff.1 (by omega))
  rw [hy, List.length_nil] at hlen'
  omega

/-- **Collapsing makes no tag**: a tag of a collapsed text stands for a tag of the text, in the
same place. -/
theorem Spells.exists_of_collapseBreaks {x w y : Text} (hw : Spells k w)
    (h : collapseBreaks t = x ++ w ++ y) :
    ∃ a v b k', t = a ++ v ++ b ∧ collapseBreaks a = x ∧ collapseBreaks v = w ∧
      collapseBreaks b = y ∧ Spells k' v ∧ k = k'.collapse := by
  obtain ⟨i, rfl, hk, hcloses⟩ := hw
  have hsplit : collapseBreaks t = x ++ openMark ++ (i ++ closeMark ++ y) := by
    rw [h]
    simp only [List.append_assoc]
  obtain ⟨a, r, rfl, ha, hr⟩ :=
    (Text.collapseBreaks_eq_infix_iff (by decide) unbroken_openMark).1 hsplit
  obtain ⟨i, b, rfl, rfl, hb⟩ :=
    (Text.collapseBreaks_eq_infix_iff (by decide) unbroken_closeMark).1 hr
  rw [classify_collapseBreaks, Option.map_eq_some_iff] at hk
  obtain ⟨k', hk', rfl⟩ := hk
  refine ⟨a, openMark ++ i ++ closeMark, b, k', by simp only [List.append_assoc], ha, ?_, hb,
    ⟨i, rfl, hk', closes_of_collapseBreaks hcloses⟩, rfl⟩
  rw [List.append_assoc, Text.collapseBreaks_append unbroken_openMark,
    collapseBreaks_append_closeMark, List.append_assoc]

end TagTemplate.Tag
