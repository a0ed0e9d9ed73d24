import TagTemplate.Proofs.Tag.Lexing
import TagTemplate.Proofs.Text.Excerpt

/-!
# The grammar of tags

`Reads` gives the forms of an interior as rules, apart from the way in which
`classify` looks for them: `classify_eq_some_iff` says that the two agree. A tag
occurs in a text where opening braces are followed by an interior that opens no
others, has a form, and ends at the first closing braces. `lex` gives the tags
that occur, each of them and in order, and on any part of the text between two
characters it gives those that lie in the part: `lex_grammar`.
-/

namespace TagTemplate.Tag

variable {form : Form} {make : Text → Kind} {i arg rest : Text} {k : Kind}

/-! ## Forms -/

/-- The letters and digits of ASCII, the underscore and the hyphen. -/
def KeyChar (c : Char) : Prop :=
  ('a' ≤ c ∧ c ≤ 'z') ∨ ('A' ≤ c ∧ c ≤ 'Z') ∨ ('0' ≤ c ∧ c ≤ '9') ∨ c = '_' ∨ c = '-'

/-- The characters of keys and the slash. -/
def NameChar (c : Char) : Prop := KeyChar c ∨ c = '/'

/-- What a form makes of the name that it takes. -/
inductive Names (form : Form) (allowed : Char → Prop) (make : Text → Kind) :
    Text → Kind → Prop where
  | name {arg : Text} (ne_nil : arg ≠ []) (all : ∀ c ∈ arg, allowed c) :
      Names form allowed make arg (make arg)
  | empty : Names form allowed make [] (.malformed form .emptyName)
  | badCharacter {arg : Text} {c : Char} (mem : c ∈ arg) (bad : ¬ allowed c) :
      Names form allowed make arg (.malformed form .badCharacter)

/-- The forms of an interior. -/
inductive Reads : Text → Kind → Prop where
  | value {key : Text} (ne_nil : key ≠ []) (all : ∀ c ∈ key, KeyChar c) : Reads key (.value key)
  | inclusion {name : Text} {k : Kind} (names : Names .inclusion NameChar .inclusion name k) :
      Reads ('>' :: name) k
  | condition {key : Text} {k : Kind} (names : Names .condition KeyChar .ifOpen key k) :
      Reads ("#if:".toList ++ key) k
  | loop {key : Text} {k : Kind} (names : Names .loop KeyChar .loopOpen key k) :
      Reads ("#foreach:".toList ++ key) k
  | ifElse : Reads "#else".toList .ifElse
  | ifClose : Reads "#endif".toList .ifClose
  | loopClose : Reads "#endforeach".toList .loopClose
  | link {url : Text} (ne_nil : url ≠ []) : Reads ("#link:".toList ++ url) (.link url)
  | blankLink : Reads "#link:".toList (.malformed .link .emptyUrl)

theorem isKeyChar_iff {c : Char} : isKeyChar c = true ↔ KeyChar c := by
  have halpha : c.isAlpha = (c.isUpper || c.isLower) := rfl
  have hupper : c.isUpper = decide ('A' ≤ c ∧ c ≤ 'Z') := rfl
  have hlower : c.isLower = (decide ('a' ≤ c) && decide (c ≤ 'z')) := rfl
  simp only [isKeyChar, Char.isAlphanum, halpha, hupper, hlower, Char.isDigit, Bool.or_eq_true,
    Bool.and_eq_true, decide_eq_true_eq, ge_iff_le, KeyChar, Char.le_def]
  tauto

theorem isNameChar_iff {c : Char} : isNameChar c = true ↔ NameChar c := by
  rw [isNameChar, Bool.or_eq_true, isKeyChar_iff, decide_eq_true_eq, NameChar]

theorem named_eq_iff {allowed : Char → Bool} {Allowed : Char → Prop}
    (h : ∀ {c}, allowed c = true ↔ Allowed c) :
    named form allowed make arg = k ↔ Names form Allowed make arg k := by
  constructor
  · rintro rfl
    rw [named]
    split
    next hnil =>
      rw [List.isEmpty_iff.1 hnil]
      exact .empty
    next hne =>
      split
      next hall =>
        exact .name (fun hnil => hne (List.isEmpty_iff.2 hnil))
          fun c hc => h.1 (List.all_eq_true.1 hall c hc)
      next hall =>
        obtain ⟨c, hc, hbad⟩ := List.all_eq_false.1 (Bool.eq_false_iff.2 hall)
        exact .badCharacter hc fun hallowed => hbad (h.2 hallowed)
  · intro hnames
    cases hnames with
    | name hne hall =>
        rw [named, if_neg (by simpa using hne),
          if_pos (List.all_eq_true.2 fun c hc => h.2 (hall c hc))]
    | empty => rfl
    | badCharacter hc hbad =>
        rw [named, if_neg (by simpa using List.ne_nil_of_mem hc), if_neg]
        intro hall
        exact hbad (h.1 (List.all_eq_true.1 hall _ hc))

/-- A directive has a form exactly by one of the rules. -/
theorem classifyDirective_eq_some_iff :
    classifyDirective rest = some k ↔ Reads ('#' :: rest) k := by
  constructor
  · intro h
    simp only [classifyDirective] at h
    split at h
    next hrest => cases h; rw [hrest]; exact .ifElse
    split at h
    next hrest => cases h; rw [hrest]; exact .ifClose
    split at h
    next hrest => cases h; rw [hrest]; exact .loopClose
    split at h
    next key hkey =>
      rw [Text.isPrefixOf?_eq_some_iff.1 hkey]
      exact .condition ((named_eq_iff isKeyChar_iff).1 (Option.some.inj h))
    split at h
    next key hkey =>
      rw [Text.isPrefixOf?_eq_some_iff.1 hkey]
      exact .loop ((named_eq_iff isKeyChar_iff).1 (Option.some.inj h))
    split at h
    next url hurl =>
      rw [Text.isPrefixOf?_eq_some_iff.1 hurl]
      cases url with
      | nil => cases h; exact .blankLink
      | cons c url => cases h; exact .link (List.cons_ne_nil c url)
    · cases h
  · intro h
    generalize hi : '#' :: rest = i at h
    cases h with
    | value hne hall =>
        subst hi
        exact absurd (isKeyChar_iff.2 (hall '#' List.mem_cons_self)) (by decide)
    | inclusion _ => cases hi
    | condition hnames =>
        cases hi
        exact congrArg some ((named_eq_iff isKeyChar_iff).2 hnames)
    | loop hnames =>
        cases hi
        exact congrArg some ((named_eq_iff isKeyChar_iff).2 hnames)
    | ifElse => cases hi; rfl
    | ifClose => cases hi; rfl
    | loopClose => cases hi; rfl
    | @link url hne =>
        cases hi
        cases url with
        | nil => exact absurd rfl hne
        | cons c url => rfl
    | blankLink => cases hi; rfl

/-- **The forms of interiors** are those of the rules, for interiors that open no braces. -/
theorem classify_eq_some_iff :
    classify i = some k ↔ ¬ openMark <:+: i ∧ Reads i k := by
  unfold classify
  by_cases hopen : openMark <:+: i
  · rw [if_pos (Text.contains_iff_infix.2 hopen)]
    simp [hopen]
  · rw [if_neg fun h => hopen (Text.contains_iff_infix.1 h)]
    simp only [hopen, not_false_eq_true, true_and]
    split
    next name =>
      rw [Option.some.injEq, named_eq_iff isNameChar_iff]
      constructor
      · exact .inclusion
      · intro h
        generalize hi : '>' :: name = i at h
        cases h with
        | value hne hall =>
            subst hi
            exact absurd (isKeyChar_iff.2 (hall '>' List.mem_cons_self)) (by decide)
        | inclusion hnames => cases hi; exact hnames
        | _ => cases hi
    next rest => exact classifyDirective_eq_some_iff
    next hpartial hdirective =>
      rw [Option.ite_none_right_eq_some, Bool.and_eq_true, List.all_eq_true]
      constructor
      · rintro ⟨⟨hne, hall⟩, hk⟩
        cases hk
        exact .value (by simpa using hne) fun c hc => isKeyChar_iff.1 (hall c hc)
      · intro h
        cases h with
        | value hne hall =>
            exact ⟨⟨by simpa using hne, fun c hc => isKeyChar_iff.2 (hall c hc)⟩, rfl⟩
        | @inclusion name _ _ => exact absurd rfl (hpartial name)
        | condition _ => exact absurd rfl (hdirective _)
        | loop _ => exact absurd rfl (hdirective _)
        | ifElse => exact absurd rfl (hdirective _)
        | ifClose => exact absurd rfl (hdirective _)
        | loopClose => exact absurd rfl (hdirective _)
        | link _ => exact absurd rfl (hdirective _)
        | blankLink => exact absurd rfl (hdirective _)

/-! ## Occurrences -/

/-- A tag occurs in a text: opening braces at its start, then an interior that opens no braces and
has the form of its kind, and at its end the first closing braces behind the opening ones. -/
def Occurs (t : Text) (tag : Tag) : Prop :=
  ∃ before interior after, t = before ++ openMark ++ interior ++ closeMark ++ after ∧
    tag.span = ⟨Text.size before, Text.size before + 2 + Text.size interior + 2⟩ ∧
    ¬ openMark <:+: interior ∧
    (∀ x y, interior ++ closeMark ++ after = x ++ closeMark ++ y →
      Text.size interior ≤ Text.size x) ∧
    Reads interior tag.kind

/-- Closing braces are the first of a text if they are the first of what ends with them. -/
theorem closes_iff_first {after : Text} :
    Closes i ↔ ∀ x y, i ++ closeMark ++ after = x ++ closeMark ++ y →
      Text.size i ≤ Text.size x := by
  rw [← cut?_closeMark_iff (b := after), Text.cut?_eq_some_iff, eq_self, true_and]
  have hprefix : ∀ x y, i ++ closeMark ++ after = x ++ closeMark ++ y →
      (i.length ≤ x.length ↔ Text.size i ≤ Text.size x) := by
    intro x y h
    rw [List.append_assoc, List.append_assoc] at h
    rcases List.append_eq_append_iff.1 h with ⟨u, rfl, -⟩ | ⟨u, rfl, -⟩
    · simp
    · have hlength := Text.length_le_size u
      cases u with
      | nil => simp
      | cons c u =>
          simp only [Text.size_append, List.length_append, List.length_cons] at hlength ⊢
          omega
  exact forall₂_congr fun x y => forall_congr' fun h => hprefix x y h

theorem mem_lex_iff_occurs {t : Text} {tag : Tag} : tag ∈ lex t ↔ Occurs t tag := by
  have htwo : Text.size openMark = 2 ∧ Text.size closeMark = 2 := by decide
  rw [mem_lex_iff]
  constructor
  · rintro ⟨a, w, b, rfl, ⟨i, rfl, hk, hc⟩, hspan⟩
    obtain ⟨hopen, hreads⟩ := classify_eq_some_iff.1 hk
    refine ⟨a, i, b, by simp only [List.append_assoc], ?_, hopen, closes_iff_first.1 hc, hreads⟩
    rw [hspan, Text.size_append, Text.size_append, htwo.1, htwo.2, Span.mk.injEq]
    omega
  · rintro ⟨a, i, b, rfl, hspan, hopen, hfirst, hreads⟩
    refine ⟨a, openMark ++ i ++ closeMark, b, by simp only [List.append_assoc],
      ⟨i, rfl, classify_eq_some_iff.2 ⟨hopen, hreads⟩, closes_iff_first.2 hfirst⟩, ?_⟩
    rw [hspan, Text.size_append, Text.size_append, htwo.1, htwo.2, Span.mk.injEq]
    omega

/-- **The tags of a text** are those that occur in it, in order and apart from each other, and the
tags of a part of it are those that lie in the part. -/
theorem lex_grammar (t : Text) :
    (∀ tag, tag ∈ lex t ↔ Occurs t tag) ∧
      (lex t).Pairwise Before ∧
      ∀ i j, Text.Boundary t i → Text.Boundary t j → i ≤ j →
        ∃ u, Text.slice? t ⟨i, j⟩ = some u ∧
          (lex u).map (shift · i) =
            (lex t).filter fun tag => i ≤ tag.span.start && tag.span.stop ≤ j := by
  refine ⟨fun tag => mem_lex_iff_occurs, pairwise_lex t, ?_⟩
  intro i j hi hj hij
  obtain ⟨_, u, _, -, -, -, hslice⟩ := Text.slice?_of_boundaries hi hj hij
  exact ⟨u, hslice, lex_slice hslice⟩

/-- A candidate that is rejected hides no tag in it, and a tag none behind it. -/
example : lex "\x7b\x7b#if:\x7b\x7b>a/b\x7d\x7d\x7d\x7b\x7b#link:\x7d\x7d".toList =
    [⟨.inclusion "a/b".toList, ⟨6, 14⟩⟩, ⟨.malformed .link .emptyUrl, ⟨15, 25⟩⟩] := by decide

end TagTemplate.Tag
