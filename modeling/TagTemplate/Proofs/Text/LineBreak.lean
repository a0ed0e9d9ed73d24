import TagTemplate.Text.Blank
import TagTemplate.Text.LineBreak

/-!
# Text between line breaks

Collapsing runs of line breaks changes nothing else of a text. So it goes on
apart on the two sides of any other character, and each such character of the
result stands for one of the text: `collapseBreaks_cons` and
`exists_of_collapseBreaks`.
-/

namespace TagTemplate.Text

/-- Characters that line breaks are made of. -/
def isBreakChar (c : Char) : Bool := c = '\n' || c = '\r'

/-- A text without characters that line breaks are made of. -/
def Unbroken (t : Text) : Prop := ∀ c ∈ t, isBreakChar c = false

instance : DecidablePred Unbroken := fun t =>
  decidable_of_iff (t.all fun c => !isBreakChar c) (by simp [Unbroken])

namespace LineUnit

variable {run us vs : List LineUnit} {u : LineUnit} {c : Char}

theorem text_ne_nil (u : LineUnit) : u.text ≠ [] := by cases u <;> simp [text]

/-- A line break consists of nothing else. -/
theorem isBreakChar_of_isBreak (hu : u.isBreak = true) (hc : c ∈ u.text) :
    isBreakChar c = true := by
  cases u with
  | other d => cases hu
  | lineFeed => rw [List.mem_singleton.1 hc]; rfl
  | returnFeed =>
      simp only [text, List.mem_cons, List.not_mem_nil, or_false] at hc
      rcases hc with rfl | rfl
      · rfl
      · rfl

theorem closeRun_eq_nil_iff : closeRun run = [] ↔ run = [] := by
  simp only [closeRun]
  split
  · exact Iff.rfl
  next hlen =>
    have hne : run ≠ [] := by
      rintro rfl
      exact hlen (by decide)
    split <;> simp [hne]

theorem mem_of_mem_closeRun (h : u ∈ closeRun run) : u ∈ run ∨ u.isBreak = true := by
  simp only [closeRun] at h
  split at h
  · exact .inl h
  · right
    split at h
    · rw [List.eq_of_mem_replicate (n := 2) h]
      rfl
    · rw [List.eq_of_mem_replicate (n := 2) h]
      rfl

theorem collapse_eq_nil_iff : collapse run us = [] ↔ run = [] ∧ us = [] := by
  fun_induction collapse run us with
  | case1 run => simp [closeRun_eq_nil_iff]
  | case2 run c us ih => simp
  | case3 run u us hu ih => simp [ih]

/-- Only line breaks are written anew. -/
theorem mem_of_mem_collapse (h : u ∈ collapse run us) :
    u ∈ run ∨ u ∈ us ∨ u.isBreak = true := by
  fun_induction collapse run us with
  | case1 run => exact (mem_of_mem_closeRun h).imp_right .inr
  | case2 run c us ih =>
      rcases List.mem_append.1 h with h | h
      · exact (mem_of_mem_closeRun h).imp_right .inr
      · rcases List.mem_cons.1 h with rfl | h
        · exact .inr (.inl List.mem_cons_self)
        · rcases ih h with h | h | h
          · cases h
          · exact .inr (.inl (List.mem_cons_of_mem _ h))
          · exact .inr (.inr h)
  | case3 run v us hv ih =>
      rcases ih h with h | h | h
      · rcases List.mem_append.1 h with h | h
        · exact .inl h
        · rw [List.mem_singleton.1 h]
          exact .inr (.inl List.mem_cons_self)
      · exact .inr (.inl (List.mem_cons_of_mem _ h))
      · exact .inr (.inr h)

/-- A run of line breaks ends at any other character. -/
theorem collapse_append_other :
    collapse run (us ++ other c :: vs) = collapse run us ++ other c :: collapse [] vs := by
  fun_induction collapse run us with
  | case1 run => rw [List.nil_append, collapse]
  | case2 run d us ih =>
      rw [List.cons_append, collapse, ih, List.append_assoc, List.cons_append]
  | case3 run u us hu ih =>
      rw [List.cons_append, ← ih]
      cases u with
      | other d => exact absurd rfl (hu d)
      | lineFeed => rfl
      | returnFeed => rfl

end LineUnit

variable {t x y u p q : Text} {c : Char}

/-- A character that is neither a line break nor begins one. -/
theorem lineUnits_cons (hfeed : c ≠ '\n') (hreturn : c = '\r' → ∀ s, t ≠ '\n' :: s) :
    lineUnits (c :: t) = .other c :: lineUnits t := by
  rw [lineUnits]
  · intro s hc ht
    exact hreturn hc s ht
  · exact hfeed

theorem lineUnits_append_other (hc : isBreakChar c = false) :
    lineUnits (p ++ c :: q) = lineUnits p ++ .other c :: lineUnits q := by
  simp only [isBreakChar, Bool.or_eq_false_iff, decide_eq_false_iff_not] at hc
  obtain ⟨hfeed, hreturn⟩ := hc
  fun_induction lineUnits p with
  | case1 => exact lineUnits_cons hfeed fun h => absurd h hreturn
  | case2 t ih =>
      rw [List.cons_append, List.cons_append, lineUnits, ih, List.cons_append]
  | case3 t ih => rw [List.cons_append, lineUnits, ih, List.cons_append]
  | case4 d t hpair hsingle ih =>
      rw [List.cons_append, List.cons_append, ← ih]
      refine lineUnits_cons hsingle fun hd s hs => ?_
      -- a line feed behind `d` would be `c` or stand in `t`
      cases t with
      | nil => exact hfeed (List.cons.inj hs).1
      | cons e t => exact hpair t hd (congrArg (· :: t) (List.cons.inj hs).1)

/-- Line breaks collapse apart on the two sides of any other character. -/
theorem collapseBreaks_cons (hc : isBreakChar c = false) :
    collapseBreaks (p ++ c :: q) = collapseBreaks p ++ c :: collapseBreaks q := by
  rw [collapseBreaks, lineUnits_append_other hc, LineUnit.collapse_append_other,
    List.flatMap_append, List.flatMap_cons]
  rfl

theorem collapseBreaks_eq_nil_iff : collapseBreaks t = [] ↔ t = [] := by
  constructor
  · intro h
    have hnil : LineUnit.collapse [] (lineUnits t) = [] := by
      refine List.eq_nil_iff_forall_not_mem.2 fun u hu => ?_
      exact u.text_ne_nil (List.flatMap_eq_nil_iff.1 h u hu)
    rw [← flatMap_lineUnits t, (LineUnit.collapse_eq_nil_iff.1 hnil).2]
    rfl
  · rintro rfl
    rfl

theorem mem_of_mem_collapseBreaks (h : c ∈ collapseBreaks t) (hc : isBreakChar c = false) :
    c ∈ t := by
  obtain ⟨u, hu, hcu⟩ := List.mem_flatMap.1 h
  rcases LineUnit.mem_of_mem_collapse hu with hu | hu | hu
  · cases hu
  · rw [← flatMap_lineUnits t]
    exact List.mem_flatMap.2 ⟨u, hu, hcu⟩
  · rw [LineUnit.isBreakChar_of_isBreak hu hcu] at hc
    cases hc

/-- Every other character of a collapsed text stands for one of the text. -/
theorem exists_of_collapseBreaks_cons (hc : isBreakChar c = false)
    (h : collapseBreaks t = x ++ c :: y) :
    ∃ p q, t = p ++ c :: q ∧ collapseBreaks p = x ∧ collapseBreaks q = y := by
  induction hn : t.length using Nat.strongRecOn generalizing t x y with
  | ind n ih =>
  by_cases hother : ∃ d ∈ t, isBreakChar d = false
  · -- the text splits at any such character, and the one in question is it or lies on a side
    obtain ⟨d, hd, hdc⟩ := hother
    obtain ⟨p, q, rfl⟩ := List.append_of_mem hd
    rw [List.length_append, List.length_cons] at hn
    rw [collapseBreaks_cons hdc] at h
    rcases List.append_eq_append_iff.1 h with ⟨z, rfl, hz⟩ | ⟨z, hp, hz⟩
    · cases z with
      | nil =>
          obtain ⟨rfl, rfl⟩ := List.cons.inj hz
          exact ⟨p, q, rfl, (List.append_nil _).symm, rfl⟩
      | cons e z =>
          obtain ⟨rfl, hq⟩ := List.cons.inj hz
          obtain ⟨p', q', rfl, rfl, rfl⟩ := ih q.length (by omega) hq rfl
          exact ⟨p ++ d :: p', q', by simp, collapseBreaks_cons hdc, rfl⟩
    · cases z with
      | nil =>
          obtain ⟨rfl, rfl⟩ := List.cons.inj hz
          exact ⟨p, q, rfl, hp.trans (List.append_nil _), rfl⟩
      | cons e z =>
          obtain ⟨rfl, rfl⟩ := List.cons.inj hz
          obtain ⟨p', q', rfl, rfl, rfl⟩ := ih p.length (by omega) hp rfl
          exact ⟨p', q' ++ d :: q, by simp, rfl, collapseBreaks_cons hdc⟩
  · -- line breaks alone collapse to line breaks
    have hmem : c ∈ collapseBreaks t := by
      rw [h]
      exact List.mem_append_right _ List.mem_cons_self
    exact absurd ⟨c, mem_of_mem_collapseBreaks hmem hc, hc⟩ hother

theorem collapseBreaks_append (hu : Unbroken u) :
    collapseBreaks (u ++ q) = u ++ collapseBreaks q := by
  induction u with
  | nil => rfl
  | cons c u ih =>
      have hrest := ih fun d hd => hu d (List.mem_cons_of_mem c hd)
      have hsplit := collapseBreaks_cons (p := []) (q := u ++ q) (hu c List.mem_cons_self)
      rw [hrest] at hsplit
      exact hsplit

/-- A beginning of a collapsed text that has no line breaks is a beginning of the text. -/
theorem collapseBreaks_eq_append_iff (hu : Unbroken u) :
    collapseBreaks t = u ++ y ↔ ∃ q, t = u ++ q ∧ collapseBreaks q = y := by
  constructor
  · intro h
    induction u generalizing t with
    | nil => exact ⟨t, rfl, h⟩
    | cons c u ih =>
        obtain ⟨gap, r, rfl, hgap, hr⟩ :=
          exists_of_collapseBreaks_cons (x := []) (hu c List.mem_cons_self) h
        obtain ⟨q, rfl, hq⟩ := ih (fun d hd => hu d (List.mem_cons_of_mem c hd)) hr
        rw [collapseBreaks_eq_nil_iff.1 hgap]
        exact ⟨q, rfl, hq⟩
  · rintro ⟨q, rfl, rfl⟩
    exact collapseBreaks_append hu

/-- Line breaks collapse apart on the two sides of a part that has none. -/
theorem collapseBreaks_append_append (hne : u ≠ []) (hu : Unbroken u) :
    collapseBreaks (p ++ u ++ q) = collapseBreaks p ++ u ++ collapseBreaks q := by
  cases u with
  | nil => exact absurd rfl hne
  | cons c u =>
      have hrest : Unbroken u := fun d hd => hu d (List.mem_cons_of_mem c hd)
      rw [List.append_assoc, List.append_assoc, List.cons_append, List.cons_append,
        collapseBreaks_cons (hu c List.mem_cons_self), collapseBreaks_append hrest]

/-- A part of a collapsed text that has no line breaks is a part of the text. -/
theorem collapseBreaks_eq_infix_iff (hne : u ≠ []) (hu : Unbroken u) :
    collapseBreaks t = x ++ u ++ y ↔
      ∃ p q, t = p ++ u ++ q ∧ collapseBreaks p = x ∧ collapseBreaks q = y := by
  constructor
  · intro h
    cases u with
    | nil => exact absurd rfl hne
    | cons c u =>
        rw [List.append_assoc, List.cons_append] at h
        obtain ⟨p, r, rfl, hp, hr⟩ := exists_of_collapseBreaks_cons (hu c List.mem_cons_self) h
        obtain ⟨q, rfl, hq⟩ :=
          (collapseBreaks_eq_append_iff fun d hd => hu d (List.mem_cons_of_mem c hd)).1 hr
        exact ⟨p, q, by rw [List.append_assoc]; rfl, hp, hq⟩
  · rintro ⟨p, q, rfl, rfl, rfl⟩
    exact collapseBreaks_append_append hne hu

/-- Without line breaks nothing collapses. -/
theorem collapseBreaks_eq_iff (hu : Unbroken u) :
    collapseBreaks t = u ↔ t = u := by
  have happend := collapseBreaks_eq_append_iff (t := t) (y := []) hu
  simpa only [List.append_nil, collapseBreaks_eq_nil_iff, exists_eq_right] using happend

/-- What is left when the blanks at the ends are cut off is a part of the text. -/
theorem trim_isInfix (t : Text) : trim t <:+: t := by
  have hstart : trimStart t <:+ t := List.dropWhile_suffix isBlank
  have hend : trimEnd (trimStart t) <+: trimStart t :=
    List.reverse_suffix.1 (by
      rw [trimEnd, List.reverse_reverse]
      exact List.dropWhile_suffix isBlank)
  exact hend.isInfix.trans hstart.isInfix

end TagTemplate.Text
