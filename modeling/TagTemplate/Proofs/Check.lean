import TagTemplate.Check
import Mathlib.Logic.Basic

/-!
# Reports of malformed tags

`reportMalformed` passes exactly if the policy is lenient or no tag has one of
the forms it looks for and a fault.
-/

namespace TagTemplate

variable {policy : Policy} {forms : List Form} {text : Text}

/-- No tag has a fault in one of some forms. -/
def Faultless (forms : List Form) (tags : List Tag) : Prop :=
  ∀ tag ∈ tags, ∀ form fault, tag.kind = .malformed form fault → form ∉ forms

/-- Whether a kind of tag is a fault in one of some forms. -/
def faulty (forms : List Form) : Tag.Kind → Bool
  | .malformed form _ => form ∈ forms
  | _ => false

theorem faultless_iff {tags : List Tag} :
    Faultless forms tags ↔ tags.all (fun tag => !faulty forms tag.kind) = true := by
  rw [List.all_eq_true]
  apply forall₂_congr
  intro tag _
  cases hk : tag.kind with
  | malformed form fault => simp [faulty]
  | _ => simp [faulty]

theorem faultless_iff_kinds {tags : List Tag} :
    Faultless forms tags ↔ ∀ k ∈ tags.map Tag.kind, ¬ faulty forms k = true := by
  rw [faultless_iff, List.all_eq_true, List.forall_mem_map]
  simp

instance (forms : List Form) (tags : List Tag) : Decidable (Faultless forms tags) :=
  decidable_of_iff' _ faultless_iff

theorem faultless_cons {tag : Tag} {tags : List Tag} :
    Faultless forms (tag :: tags) ↔
      (∀ form fault, tag.kind = .malformed form fault → form ∉ forms) ∧ Faultless forms tags :=
  List.forall_mem_cons

theorem reportMalformed_passThrough (forms : List Form) (text : Text) (tags : List Tag) :
    reportMalformed .passThrough forms text tags = .ok () := by
  induction tags with
  | nil => rfl
  | cons tag tags ih =>
      simp only [reportMalformed, report, ih]
      split
      · split <;> rfl
      · rfl

/-- **Under the strict policy** a report fails at the first tag with a fault. -/
theorem reportMalformed_strict_first (forms : List Form) (text : Text) (tags : List Tag) :
    (reportMalformed .strict forms text tags = .ok () ∧ Faultless forms tags) ∨
      ∃ before tag after, tags = before ++ tag :: after ∧ Faultless forms before ∧
        ∃ form ∈ forms, ∃ fault, tag.kind = .malformed form fault ∧
          reportMalformed .strict forms text tags =
            .error (.malformed (Text.positionAt text tag.span.start) (.badTag form fault)) := by
  induction tags with
  | nil => exact .inl ⟨rfl, fun _ h => absurd h List.not_mem_nil⟩
  | cons tag tags ih =>
      by_cases hbad : ∃ form fault, tag.kind = .malformed form fault ∧ form ∈ forms
      · obtain ⟨form, fault, hk, hform⟩ := hbad
        refine .inr ⟨[], tag, tags, rfl, nofun, form, hform, fault, hk, ?_⟩
        simp only [reportMalformed, hk, if_pos hform, report]
      · have hgood : ∀ form fault, tag.kind = .malformed form fault → form ∉ forms :=
          fun form fault hk hform => hbad ⟨form, fault, hk, hform⟩
        have hskip : reportMalformed .strict forms text (tag :: tags) =
            reportMalformed .strict forms text tags := by
          simp only [reportMalformed]
          split
          next form fault hk => rw [if_neg (hgood form fault hk)]
          · rfl
        rw [hskip]
        rcases ih with ⟨hok, hall⟩ | ⟨before, tag', after, rfl, hbefore, hrest⟩
        · exact .inl ⟨hok, faultless_cons.2 ⟨hgood, hall⟩⟩
        · exact .inr ⟨tag :: before, tag', after, rfl, faultless_cons.2 ⟨hgood, hbefore⟩, hrest⟩

theorem reportMalformed_strict (forms : List Form) (text : Text) (tags : List Tag) :
    (reportMalformed .strict forms text tags = .ok () ∧ Faultless forms tags) ∨
      (¬ Faultless forms tags ∧ ∃ tag ∈ tags, ∃ form ∈ forms, ∃ fault,
        tag.kind = .malformed form fault ∧ reportMalformed .strict forms text tags =
          .error (.malformed (Text.positionAt text tag.span.start) (.badTag form fault))) := by
  refine (reportMalformed_strict_first forms text tags).imp_right ?_
  rintro ⟨before, tag, after, htags, -, form, hform, fault, hkind, herror⟩
  have hmem : tag ∈ tags := by rw [htags]; exact List.mem_append_right before List.mem_cons_self
  exact ⟨fun h => h tag hmem form fault hkind hform, tag, hmem, form, hform, fault, hkind, herror⟩

theorem reportMalformed_eq_ok_iff {tags : List Tag} :
    reportMalformed policy forms text tags = .ok () ↔
      (policy = .strict → Faultless forms tags) := by
  cases policy with
  | passThrough => simp [reportMalformed_passThrough]
  | strict =>
      rcases reportMalformed_strict forms text tags with
        ⟨hok, hall⟩ | ⟨hnot, _, _, _, _, _, _, herr⟩
      · exact ⟨fun _ _ => hall, fun _ => hok⟩
      · rw [herr]
        exact ⟨fun h => (nomatch h), fun h => absurd (h rfl) hnot⟩

/-- A report fails under the strict policy, and with a tag that has a fault. -/
theorem reportMalformed_eq_error {tags : List Tag} {e : Error}
    (h : reportMalformed policy forms text tags = .error e) :
    policy = .strict ∧ ∃ tag ∈ tags, ∃ form ∈ forms, ∃ fault, tag.kind = .malformed form fault ∧
      e = .malformed (Text.positionAt text tag.span.start) (.badTag form fault) := by
  cases policy with
  | passThrough =>
      rw [reportMalformed_passThrough] at h
      cases h
  | strict =>
      rcases reportMalformed_strict forms text tags with
        ⟨hok, -⟩ | ⟨-, tag, htag, form, hform, fault, hkind, herror⟩
      · rw [hok] at h
        cases h
      · rw [herror] at h
        cases h
        exact ⟨rfl, tag, htag, form, hform, fault, hkind, rfl⟩

end TagTemplate
