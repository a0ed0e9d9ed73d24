import TagTemplate.Proofs.Block.Offences
import TagTemplate.Proofs.Check

/-!
# What a check reports

A check looks for malformed partials and links, then at the conditionals and
then at the loops, and among the marks of a family first for those that do not
fit and then for openers without a closer. It reports the first of the tags that
the first of these scans objects to. That need not be the first tag of the text
that any of them objects to.
-/

namespace TagTemplate

variable {t : Text} {s : Span} {d : Defect} {family : Family}

/-- The scans of a check: for malformed partials and links, and in each family for marks that do not
fit and for openers without a closer. -/
inductive Scan where
  | names
  | fit (family : Family)
  | ends (family : Family)
  deriving DecidableEq

namespace Scan

/-- The order of the scans. -/
def rank : Scan → Nat
  | names => 0
  | fit .conditional => 1
  | ends .conditional => 2
  | fit .loop => 3
  | ends .loop => 4

/-- The family that a scan is for, if it is for one. -/
def family? : Scan → Option Family
  | names => none
  | fit family | ends family => some family

theorem rank_lt_of_none {scan scan' : Scan} (h : scan.family? = none)
    (h' : scan'.family? ≠ none) : scan.rank < scan'.rank := by
  cases scan with
  | names =>
      rcases scan' with _ | ⟨_ | _⟩ | ⟨_ | _⟩
      · exact absurd rfl h'
      all_goals decide
  | _ => cases h

theorem rank_lt_of_conditional {scan scan' : Scan} (h : scan.family? = some .conditional)
    (h' : scan'.family? = some .loop) : scan.rank < scan'.rank := by
  cases scan <;> cases h <;> cases scan' <;> cases h' <;> decide

end Scan

/-- A scan objects to a tag for a defect: to a malformed partial or link, to a mark that fits
nowhere behind those before it, or to an opener that is free at the end. -/
inductive Objects (t : Text) : Scan → Span → Defect → Prop where
  | name {tag : Tag} {form : Form} {fault : Fault} (htag : tag ∈ Tag.lex t)
      (hkind : tag.kind = .malformed form fault) (hform : form ∈ [Form.inclusion, Form.link]) :
      Objects t .names tag.span (.badTag form fault)
  | unfit {family : Family} {before after : List Block.Mark} {m : Block.Mark} {d : Defect}
      (hms : Block.marks family (Tag.lex t) = before ++ m :: after)
      (hunfit : Block.Unfit family before m d) : Objects t (.fit family) m.span d
  | unclosed {family : Family} {o : Text × Span}
      (ho : o ∈ (Block.matching (Block.marks family (Tag.lex t))).free) :
      Objects t (.ends family) o.2 (.unterminated family)

/-- An objection of some scans to which all others are later: made by a later scan, or by the same
to a tag that starts no earlier. -/
structure Leads (t : Text) (scans : Scan → Prop) (scan : Scan) (s : Span) (d : Defect) : Prop where
  mem : scans scan
  objects : Objects t scan s d
  first : ∀ scan' s' d', scans scan' → Objects t scan' s' d' →
    scan.rank < scan'.rank ∨ scan = scan' ∧ s.start ≤ s'.start

/-- A result fails for the first objection of some scans, and succeeds if they have none. -/
def Reports {α : Type} (t : Text) (scans : Scan → Prop) (r : Except Error α) : Prop :=
  ((∃ a, r = .ok a) ∧ ∀ scan s d, scans scan → ¬ Objects t scan s d) ∨
    ∃ scan s d, Leads t scans scan s d ∧ r = .error (.malformed (Text.positionAt t s.start) d)

/-- Results one behind the other report for all their scans, if those of the first are the
earlier. -/
theorem Reports.bind {α β : Type} {scans scans' : Scan → Prop} {r : Except Error α}
    {f : α → Except Error β} (h : Reports t scans r) (h' : ∀ a, Reports t scans' (f a))
    (hranks : ∀ scan scan', scans scan → scans' scan' → scan.rank < scan'.rank) :
    Reports t (fun scan => scans scan ∨ scans' scan) (r.bind f) := by
  rcases h with ⟨⟨a, rfl⟩, hnone⟩ | ⟨scan, s, d, hleads, rfl⟩
  · rcases h' a with ⟨hok, hnone'⟩ | ⟨scan, s, d, hleads, herror⟩
    · exact .inl ⟨hok, fun scan s d hscan => hscan.elim (hnone scan s d) (hnone' scan s d)⟩
    · refine .inr ⟨scan, s, d, ⟨.inr hleads.mem, hleads.objects, ?_⟩, herror⟩
      rintro scan' s' d' (hscan' | hscan') hobjects
      · exact absurd hobjects (hnone scan' s' d' hscan')
      · exact hleads.first scan' s' d' hscan' hobjects
  · refine .inr ⟨scan, s, d, ⟨.inl hleads.mem, hleads.objects, ?_⟩, rfl⟩
    rintro scan' s' d' (hscan' | hscan') hobjects
    · exact hleads.first scan' s' d' hscan' hobjects
    · exact .inl (hranks scan scan' hleads.mem hscan')

/-- Malformed partials and links are reported. -/
theorem reportMalformed_reports (t : Text) : Reports t (·.family? = none)
    (reportMalformed .strict [.inclusion, .link] t (Tag.lex t)) := by
  rcases reportMalformed_strict_first [.inclusion, .link] t (Tag.lex t) with
    ⟨hok, hall⟩ | ⟨before, tag, after, htags, hbefore, form, hform, fault, hkind, herror⟩
  · refine .inl ⟨⟨(), hok⟩, ?_⟩
    rintro scan s d hscan (⟨htag, hkind, hform⟩ | - | -)
    · exact hall _ htag _ _ hkind hform
    · cases hscan
    · cases hscan
  · have hmem : tag ∈ Tag.lex t := by
      rw [htags]
      exact List.mem_append_right before List.mem_cons_self
    refine .inr ⟨.names, tag.span, _, ⟨rfl, .name hmem hkind hform, ?_⟩, herror⟩
    rintro scan s d hscan (⟨htag, hkind', hform'⟩ | - | -)
    · refine .inr ⟨rfl, ?_⟩
      have hpairwise := Tag.pairwise_lex t
      rw [htags] at htag hpairwise
      rcases List.mem_append.1 htag with hfront | hback
      · exact absurd hform' (hbefore _ hfront _ _ hkind')
      rcases List.mem_cons.1 hback with rfl | hback
      · exact Nat.le_refl _
      · have hafter := (List.pairwise_cons.1 (List.pairwise_append.1 hpairwise).2.1).1 _ hback
        exact (Tag.lt_of_mem_lex hmem).le.trans hafter.1
    · cases hscan
    · cases hscan

/-- Marks that do not fit are reported, and then openers without a closer. -/
theorem find_reports (family : Family) (t : Text) :
    Reports t (·.family? = some family) (Block.find family .strict t) := by
  have hranks : (Scan.fit family).rank < (Scan.ends family).rank := by cases family <;> decide
  rcases Block.find_strict_first family t with
    ⟨hfits, hfree, hok⟩ | ⟨hfits, o, ho, hfirst, herror⟩ |
      ⟨before, m, after, d, hms, hunfit, hfirst, herror⟩
  · refine .inl ⟨hok, ?_⟩
    rintro scan s d hscan (- | ⟨hms, hunfit⟩ | ho)
    · cases hscan
    · cases hscan
      exact hfits _ _ _ _ hms hunfit
    · cases hscan
      rw [hfree] at ho
      cases ho
  · refine .inr ⟨.ends family, o.2, _, ⟨rfl, .unclosed ho, ?_⟩, herror⟩
    rintro scan s d hscan (- | ⟨hms, hunfit⟩ | ho')
    · cases hscan
    · cases hscan
      exact absurd hunfit (hfits _ _ _ _ hms)
    · cases hscan
      exact .inr ⟨rfl, hfirst _ ho'⟩
  · refine .inr ⟨.fit family, m.span, d, ⟨rfl, .unfit hms hunfit, ?_⟩, herror⟩
    rintro scan s d' hscan (- | ⟨hms', hunfit'⟩ | -)
    · cases hscan
    · cases hscan
      exact .inr ⟨rfl, hfirst _ _ _ _ hms' hunfit'⟩
    · cases hscan
      exact .inl hranks

/-- **A check reports the first objection** of the first scan that has one, and passes if no scan
has any. -/
theorem check_reports_first (t : Text) :
    (check t = .ok () ∧ ∀ scan s d, ¬ Objects t scan s d) ∨
      ∃ scan s d, check t = .error (.malformed (Text.positionAt t s.start) d) ∧
        Objects t scan s d ∧ ∀ scan' s' d', Objects t scan' s' d' →
          scan.rank < scan'.rank ∨ scan = scan' ∧ s.start ≤ s'.start := by
  have hblocks : Reports t (fun scan => scan.family? = some .conditional ∨
      scan.family? = some .loop ∨ False) ((Block.find .conditional .strict t).bind fun _ =>
        (Block.find .loop .strict t).bind fun _ => .ok ()) := by
    refine (find_reports .conditional t).bind (fun _ => (find_reports .loop t).bind
      (fun _ => .inl ⟨⟨(), rfl⟩, fun _ _ _ => nofun⟩) fun _ _ _ => nofun) ?_
    rintro scan scan' hscan (hscan' | ⟨⟨⟩⟩)
    exact Scan.rank_lt_of_conditional hscan hscan'
  have hcheck : Reports t (fun scan => scan.family? = none ∨ scan.family? = some .conditional ∨
      scan.family? = some .loop ∨ False) (check t) := by
    refine (reportMalformed_reports t).bind (fun _ => hblocks) fun scan scan' hscan hscan' => ?_
    refine Scan.rank_lt_of_none hscan fun hnone => ?_
    rw [hnone] at hscan'
    simp at hscan'
  have hall : ∀ scan : Scan, scan.family? = none ∨ scan.family? = some .conditional ∨
      scan.family? = some .loop ∨ False := by
    rintro (_ | ⟨_ | _⟩ | ⟨_ | _⟩) <;> simp [Scan.family?]
  rcases hcheck with ⟨⟨⟨⟩, hok⟩, hnone⟩ | ⟨scan, s, d, hleads, herror⟩
  · exact .inl ⟨hok, fun scan s d => hnone scan s d (hall scan)⟩
  · exact .inr ⟨scan, s, d, herror, hleads.objects, fun scan' s' d' =>
      hleads.first scan' s' d' (hall scan')⟩

/-- **The first tag that is wrong is not reported** if an earlier scan objects to another: of two
stray closers it is that of a conditional, though it stands behind that of a loop. -/
theorem exists_check_behind :
    let t := "\x7b\x7b#endforeach\x7d\x7d\x7b\x7b#endif\x7d\x7d".toList
    check t = .error (.malformed ⟨1, 16⟩ (.strayCloser .conditional)) ∧
      Objects t (.fit .loop) ⟨0, 15⟩ (.strayCloser .loop) ∧
      ¬ ∃ scan s d d', Objects t scan s d ∧
        (∀ scan' s' d', Objects t scan' s' d' → s.start ≤ s'.start) ∧
        check t = .error (.malformed (Text.positionAt t s.start) d') := by
  intro t
  have hcheck : check t = .error (.malformed ⟨1, 16⟩ (.strayCloser .conditional)) := by
    decide +kernel
  have hmarks : Block.marks .loop (Tag.lex t) = [] ++ ⟨.closes, ⟨0, 15⟩⟩ :: [] := by
    decide +kernel
  have hobjects : Objects t (.fit .loop) ⟨0, 15⟩ (.strayCloser .loop) :=
    .unfit hmarks (.strayCloser rfl rfl)
  refine ⟨hcheck, hobjects, ?_⟩
  rintro ⟨scan, s, d, d', -, hfirst, hreport⟩
  have hstart : s.start = 0 := Nat.le_zero.1 (hfirst _ _ _ hobjects)
  rw [hcheck, hstart] at hreport
  cases hreport

end TagTemplate
