import TagTemplate.Proofs.Text.Excerpt
import Mathlib.Data.List.Basic

/-!
# Words over seams

A word that occurs in two lists together occurs in one of them, or it lies over
the seam: then the first list ends with a beginning of it. Such an end is
`Frays`. A list that is spliced with replacements foreign to a word has the word
only where the list itself has it, since no occurrence reaches into a
replacement.
-/

namespace TagTemplate

variable {α : Type} {weight : α → Nat} {z l a b : List α}

/-! ## Where an excerpt lies -/

theorem excerpt_isPrefix {offset : Nat} {s : Span} (h : s.start ≤ offset) :
    excerpt weight offset s l <+: l := by
  induction l generalizing offset with
  | nil => exact List.prefix_rfl
  | cons c l ih =>
      rw [excerpt]
      split
      · exact List.prefix_cons_inj c |>.2 (ih (by omega))
      next hout =>
        rw [excerpt_eq_nil_of_ge (by omega)]
        exact List.nil_prefix

theorem excerpt_isInfix {offset : Nat} {s : Span} : excerpt weight offset s l <:+: l := by
  induction l generalizing offset with
  | nil => exact List.infix_rfl
  | cons c l ih =>
      rw [excerpt]
      split
      next hin => exact (List.prefix_cons_inj c |>.2 (excerpt_isPrefix (by omega))).isInfix
      · exact List.infix_cons ih

theorem excerpt_isSuffix (hpos : ∀ a, 0 < weight a) {offset : Nat} {s : Span}
    (h : offset + extent weight l ≤ s.stop) : excerpt weight offset s l <:+ l := by
  induction l generalizing offset with
  | nil => exact List.suffix_rfl
  | cons c l ih =>
      have hc := hpos c
      rw [extent_cons] at h
      by_cases hstart : s.start ≤ offset
      · rewrite [excerpt_eq_self hpos hstart (by rw [extent_cons]; omega)]
        exact List.suffix_rfl
      · rw [excerpt, if_neg (by omega)]
        exact (ih (by omega)).trans (List.suffix_cons c l)

/-! ## Words over a seam -/

/-- The list ends with a beginning of the word, which goes on behind it. -/
def Frays (z a : List α) : Prop := ∃ u v, z = u ++ v ∧ u ≠ [] ∧ v ≠ [] ∧ u <:+ a

/-- Nothing of the word is in the list. -/
def Foreign (z a : List α) : Prop := ∀ c ∈ a, c ∉ z

theorem Frays.of_suffix (h : Frays z b) (hb : b <:+ a) : Frays z a := by
  obtain ⟨u, v, hz, hu, hv, hsuffix⟩ := h
  exact ⟨u, v, hz, hu, hv, hsuffix.trans hb⟩

theorem infix_append_cases (h : z <:+: a ++ b) : z <:+: a ∨ z <:+: b ∨ Frays z a := by
  rcases List.infix_append_iff.1 h with h | h | ⟨u, v, hz, hu, hv⟩
  · exact .inl h
  · exact .inr (.inl h)
  · rcases eq_or_ne u [] with rfl | hune
    · rw [hz]
      exact .inr (.inl hv.isInfix)
    · rcases eq_or_ne v [] with rfl | hvne
      · rw [hz, List.append_nil]
        exact .inl hu.isInfix
      · exact .inr (.inr ⟨u, v, hz, hune, hvne, hu⟩)

theorem frays_append_cases (h : Frays z (a ++ b)) : Frays z a ∨ Frays z b := by
  obtain ⟨u, v, hz, hu, hv, x, hx⟩ := h
  rcases List.append_eq_append_iff.1 hx with ⟨c, rfl, rfl⟩ | ⟨c, rfl, rfl⟩
  · rcases eq_or_ne c [] with rfl | hc
    · exact .inr ⟨b, v, hz, hu, hv, List.suffix_rfl⟩
    · rw [List.append_assoc] at hz
      exact .inl ⟨c, b ++ v, hz, hc, List.append_ne_nil_of_right_ne_nil b hv, x, rfl⟩
  · exact .inr ⟨u, v, hz, hu, hv, c, rfl⟩

theorem Foreign.not_within (h : Foreign z a) (hz : z ≠ []) : ¬ z <:+: a := by
  intro hpart
  obtain ⟨c, hc⟩ := List.exists_mem_of_ne_nil z hz
  exact h c (hpart.subset hc) hc

theorem Foreign.not_frays (h : Foreign z a) : ¬ Frays z a := by
  intro hfrays
  obtain ⟨u, v, rfl, hu, -, hsuffix⟩ := hfrays
  obtain ⟨c, hc⟩ := List.exists_mem_of_ne_nil u hu
  exact h c (hsuffix.subset hc) (List.mem_append_left v hc)

/-- A word does not reach into what is foreign to it. -/
theorem Foreign.infix_cases {r : List α} (h : Foreign z r) (hr : r ≠ [])
    (hpart : z <:+: a ++ (r ++ b)) : z <:+: a ∨ z <:+: b := by
  rcases List.infix_append_iff.1 hpart with h' | h' | ⟨u, v, rfl, hu, hv⟩
  · exact .inl h'
  · rcases List.infix_append_iff.1 h' with h' | h' | ⟨u, v, rfl, hu, hv⟩
    · rcases eq_or_ne z [] with rfl | hz
      · exact .inl (List.nil_infix)
      · exact absurd h' (h.not_within hz)
    · exact .inr h'
    · rcases eq_or_ne u [] with rfl | hune
      · exact .inr hv.isInfix
      · obtain ⟨c, hc⟩ := List.exists_mem_of_ne_nil u hune
        exact absurd (List.mem_append_left v hc) (h c (hu.subset hc))
  · cases v with
    | nil =>
        rw [List.append_nil]
        exact .inl hu.isInfix
    | cons c v =>
        cases r with
        | nil => exact absurd rfl hr
        | cons d r =>
            obtain ⟨rfl, -⟩ := List.cons_prefix_cons.1 hv
            exact absurd (by simp) (h c (by simp))

/-- A word that goes on behind a list began behind what is foreign to it. -/
theorem Foreign.frays_cases {r : List α} (h : Foreign z r) (hr : r ≠ [])
    (hfrays : Frays z (a ++ (r ++ b))) : Frays z b := by
  obtain ⟨u, v, rfl, hu, hv, hsuffix⟩ := hfrays
  refine ⟨u, v, rfl, hu, hv, ?_⟩
  rcases List.eq_nil_or_concat' r with rfl | ⟨r, c, rfl⟩
  · exact absurd rfl hr
  · have hwhole : a ++ (r ++ [c] ++ b) = a ++ r ++ c :: b := by simp
    rw [hwhole] at hsuffix
    by_cases hle : u.length ≤ b.length
    · exact List.suffix_of_suffix_length_le hsuffix
        ((List.suffix_cons c b).trans (List.suffix_append _ _)) hle
    · -- otherwise the last element of the replacement is in the word
      have hmem : c :: b <:+ u := List.suffix_of_suffix_length_le (List.suffix_append _ _) hsuffix
        (by rw [List.length_cons]; omega)
      exact absurd (List.mem_append_left v (hmem.subset List.mem_cons_self)) (h c (by simp))

/-! ## Words in a spliced list -/

/-- What the ranges of a list are replaced by is foreign to the word, and something. -/
def ForeignEdits (z : List α) (edits : List (Span × List α)) : Prop :=
  ∀ e ∈ edits, Foreign z e.2 ∧ e.2 ≠ []

theorem infix_of_infix_splicedFrom {pos : Nat} {edits : List (Span × List α)}
    (h : ForeignEdits z edits) (hpart : z <:+: splicedFrom weight l pos edits) : z <:+: l := by
  induction edits generalizing pos with
  | nil => exact hpart.trans excerpt_isInfix
  | cons e edits ih =>
      obtain ⟨s, r⟩ := e
      obtain ⟨hforeign, hr⟩ := h (s, r) (by simp)
      rw [splicedFrom, List.append_assoc] at hpart
      rcases hforeign.infix_cases hr hpart with hpart | hpart
      · exact hpart.trans excerpt_isInfix
      · exact ih (fun e he => h e (by simp [he])) hpart

theorem frays_of_frays_splicedFrom (hpos : ∀ a, 0 < weight a) {pos : Nat}
    {edits : List (Span × List α)} (h : ForeignEdits z edits)
    (hfrays : Frays z (splicedFrom weight l pos edits)) : Frays z l := by
  induction edits generalizing pos with
  | nil => exact hfrays.of_suffix (excerpt_isSuffix hpos (by simp))
  | cons e edits ih =>
      obtain ⟨s, r⟩ := e
      obtain ⟨hforeign, hr⟩ := h (s, r) (by simp)
      rw [splicedFrom, List.append_assoc] at hfrays
      exact ih (fun e he => h e (by simp [he])) (hforeign.frays_cases hr hfrays)

end TagTemplate
