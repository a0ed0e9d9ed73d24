import TagTemplate.Tag.Lexer
import TagTemplate.Proofs.Text.Search

/-!
# The spelling of tags

Whether some text is a tag depends on that text alone: it is an interior
between braces, the interior has a form, and no closing braces begin before its
end. `Spells` says this of a text, and `opening?` finds exactly the texts so
spelled at the start of another.

Two facts keep tags apart. Opening braces occur in a tag only at its start, and
closing braces only at its end. So no tag reaches over the start of another or
over its end, whatever the text around them is.
-/

namespace TagTemplate.Tag

/-- Closing braces behind an interior do not begin before its end. -/
def Closes (interior : Text) : Prop :=
  ∀ x y, interior ++ closeMark = x ++ closeMark ++ y → interior.length ≤ x.length

/-- A text that is a tag of a kind, and nothing more. -/
def Spells (kind : Kind) (w : Text) : Prop :=
  ∃ interior, w = openMark ++ interior ++ closeMark ∧ classify interior = some kind ∧
    Closes interior

/-! ## Interiors -/

theorem classify_of_contains {x y : Text} : classify (x ++ openMark ++ y) = none := by
  unfold classify
  rw [if_pos (Text.contains_iff.2 ⟨x, y, rfl⟩)]

theorem classify_brace (t : Text) : classify ('{' :: t) = none := by
  simp [classify, isKeyChar]

theorem cut?_closeMark_iff {i b : Text} :
    Text.cut? closeMark (i ++ closeMark ++ b) = some (i, b) ↔ Closes i := by
  rw [Text.cut?_eq_some_iff]
  constructor
  · intro hboth x y hxy
    obtain ⟨-, hfirst⟩ := hboth
    exact hfirst x (y ++ b) (by rw [hxy, List.append_assoc])
  · intro h
    have hcut := Text.cut?_eq_some_iff.2 ⟨(List.append_nil (i ++ closeMark)).symm, h⟩
    exact Text.cut?_eq_some_iff.1 (Text.cut?_append_right hcut b)

/-- The tag at the start of a text is the beginning of the text that spells one. -/
theorem opening?_eq_some_iff {t i : Text} {k : Kind} :
    opening? t = some (k, i) ↔
      ∃ b, t = openMark ++ i ++ closeMark ++ b ∧ classify i = some k ∧ Closes i := by
  simp only [opening?, Option.bind_eq_bind, Option.bind_eq_some_iff, Option.pure_def,
    Option.some.injEq, Prod.mk.injEq, Prod.exists, Text.isPrefixOf?_eq_some_iff]
  constructor
  · intro hopened
    obtain ⟨rest, rfl, j, b, hcut, k', hk, rfl, rfl⟩ := hopened
    have hrest := Text.eq_append_of_cut? hcut
    subst hrest
    exact ⟨b, by simp, hk, cut?_closeMark_iff.1 hcut⟩
  · intro hopened
    obtain ⟨b, rfl, hk, hc⟩ := hopened
    exact ⟨i ++ closeMark ++ b, by simp, i, b, cut?_closeMark_iff.2 hc, k, hk, rfl, rfl⟩

theorem closes_of_not_mem {i : Text} (h : '}' ∉ i) : Closes i := by
  have hcut : Text.cut? closeMark (i ++ closeMark ++ []) = some (i, []) := by
    have hself : Text.cut? closeMark closeMark = some ([], []) := by decide
    rw [List.append_nil, closeMark, Text.cut?_append_of_not_mem h, ← closeMark, hself]
    simp
  exact cut?_closeMark_iff.1 hcut

/-- Whether the braces around a link hold the URL as a whole: it opens none, and the first closing
braces are those behind it. -/
def encloses (url : Text) : Bool :=
  !Text.contains openMark url && Text.cut? closeMark (url ++ closeMark) = some (url, [])

/-- The kind of the tag that a link with this URL is, if it is a tag. -/
def linkKind? (url : Text) : Option Kind :=
  if encloses url then some (if url.isEmpty then .malformed .link .emptyUrl else .link url)
  else none

theorem isLink_of_linkKind? {url : Text} {k : Kind} (h : linkKind? url = some k) :
    k.isLink = true := by
  rw [linkKind?] at h
  split at h
  · cases h
    split <;> rfl
  · cases h

theorem classify_link (url : Text) :
    classify ("#link:".toList ++ url) =
      if Text.contains openMark url then none
      else some (if url.isEmpty then .malformed .link .emptyUrl else .link url) := by
  unfold classify
  rw [openMark, Text.contains_append_of_not_mem (by decide)]
  rfl

/-- A link is a tag exactly if its URL opens no braces and closes none. -/
theorem spells_link_iff {k : Kind} {url : Text} :
    Spells k (linkMark ++ url ++ closeMark) ↔ linkKind? url = some k := by
  have hcloses : Closes ("#link:".toList ++ url) ↔
      Text.cut? closeMark (url ++ closeMark) = some (url, []) := by
    rw [← cut?_closeMark_iff (b := []), List.append_nil, List.append_assoc, closeMark,
      Text.cut?_append_of_not_mem (by decide)]
    cases Text.cut? ['}', '}'] (url ++ ['}', '}']) with
    | none => simp
    | some cut => simp [Prod.ext_iff]
  have hlink : ∀ i, linkMark ++ url ++ closeMark = openMark ++ i ++ closeMark ↔
      "#link:".toList ++ url = i := by
    intro i
    rw [linkMark, List.append_assoc, List.append_assoc, List.append_assoc,
      List.append_cancel_left_eq, ← List.append_assoc, List.append_cancel_right_eq]
  have hencloses : encloses url = true ↔ ¬ Text.contains openMark url = true ∧
      Text.cut? closeMark (url ++ closeMark) = some (url, []) := by
    simp [encloses]
  simp only [Spells, hlink, exists_eq_left', hcloses, classify_link, linkKind?, hencloses]
  by_cases hopen : Text.contains openMark url = true
  · simp [hopen]
  · by_cases hcut : Text.cut? closeMark (url ++ closeMark) = some (url, [])
    · simp [hopen, hcut]
    · simp [hcut]

/-! ## Tags keep apart -/

variable {k : Kind} {w : Text}

theorem Spells.ne_nil (h : Spells k w) : w ≠ [] := by
  obtain ⟨i, rfl, -, -⟩ := h
  simp [openMark]

/-- Opening braces that begin in a tag begin where it does. -/
theorem Spells.open_apart (h : Spells k w) {b x z : Text} (heq : w ++ b = x ++ openMark ++ z) :
    x = [] ∨ w.length ≤ x.length := by
  obtain ⟨i, rfl, hk, -⟩ := h
  rcases x with _ | ⟨c, _ | ⟨d, x⟩⟩
  · exact .inl rfl
  · -- the second brace would be the first character of the interior
    simp only [openMark, closeMark, List.cons_append, List.nil_append, List.cons.injEq,
      true_and] at heq
    rcases i with _ | ⟨e, i⟩
    · simp at heq
    · obtain ⟨rfl, -⟩ := List.cons.inj heq.2
      rw [classify_brace] at hk
      cases hk
  · right
    simp only [openMark, closeMark, List.cons_append, List.nil_append, List.cons.injEq,
      List.append_assoc] at heq
    rcases List.append_eq_append_iff.1 heq.2.2 with ⟨y, rfl, hy⟩ | ⟨y, rfl, hy⟩
    · -- past the interior, only the closing braces are left
      rcases y with _ | ⟨e, _ | ⟨f, y⟩⟩
      · simp at hy
      · simp at hy
      · simp only [openMark, closeMark, List.length_append, List.length_cons, List.length_nil]
        omega
    · rcases y with _ | ⟨e, _ | ⟨f, y⟩⟩
      · simp at hy
      · simp at hy
      · simp only [List.cons_append, List.cons.injEq] at hy
        obtain ⟨rfl, rfl, -⟩ := hy
        have hnone := @classify_of_contains x y
        simp only [openMark, List.append_assoc, List.cons_append, List.nil_append] at hnone
        rw [hnone] at hk
        cases hk

/-- Closing braces that end in a tag, and not where it ends, end before it. -/
theorem Spells.close_apart (h : Spells k w) {a x y : Text} (heq : a ++ w = x ++ closeMark ++ y)
    (hy : y ≠ []) : x.length + 2 ≤ a.length := by
  obtain ⟨i, rfl, -, hc⟩ := h
  rcases List.append_eq_append_iff.1 heq with ⟨u, hu, hw⟩ | ⟨u, rfl, hw⟩
  · rcases u with _ | ⟨c, _ | ⟨d, u⟩⟩
    · have := congrArg List.length hu
      simp only [closeMark, List.length_append, List.length_cons, List.length_nil] at this
      omega
    · -- a closing brace in the place of the first opening one
      simp only [openMark, List.cons_append, List.cons.injEq] at hw
      have := congrArg List.getLast? hu
      simp [closeMark, ← hw.1] at this
    · simp only [openMark, List.cons_append, List.nil_append, List.cons.injEq] at hw
      obtain ⟨rfl, rfl, hw⟩ := hw
      -- braces that end behind the opening ones lie in the interior or at its end
      have hclose : ∃ v, u = v ++ closeMark := by
        have hsplit : x ++ closeMark = (a ++ openMark) ++ u := by simp [openMark, hu]
        rcases List.append_eq_append_iff.1 hsplit with ⟨v, hv, hcl⟩ | ⟨v, rfl, hcl⟩
        · rcases v with _ | ⟨e, _ | ⟨f, v⟩⟩
          · exact ⟨[], by simpa using hcl.symm⟩
          · have := congrArg List.getLast? hv
            simp only [closeMark, List.cons_append, List.cons.injEq] at hcl
            simp [openMark, ← hcl.1] at this
          · have := congrArg List.getLast? hv
            simp only [closeMark, List.cons_append, List.cons.injEq] at hcl
            obtain ⟨rfl, rfl, h⟩ := hcl
            obtain ⟨rfl, rfl⟩ := List.append_eq_nil_iff.1 h.symm
            simp [openMark] at this
        · exact ⟨v, hcl⟩
      obtain ⟨v, rfl⟩ := hclose
      have hlen := hc v y hw
      have := congrArg List.length hw
      simp only [List.length_append] at this
      have := List.length_pos_iff.2 hy
      omega
  · simp only [closeMark, List.length_append, List.length_cons, List.length_nil]
    omega

end TagTemplate.Tag
