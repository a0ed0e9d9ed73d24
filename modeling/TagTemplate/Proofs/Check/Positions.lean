import TagTemplate.Proofs.Check.Scans
import TagTemplate.Proofs.Fallible
import TagTemplate.Proofs.Text.Position

/-!
# What a reported position names

A check, and a strict search for blocks, report a line and a column. These are
the position of a tag of the text, the one that a scan objects to for the defect
of the report. No other offset between characters has this position, so a reader
who looks it up comes to that tag.
-/

namespace TagTemplate

variable {t : Text} {s : Span} {d : Defect} {e : Error}

/-- What a scan objects to is a tag of the text. -/
theorem Objects.exists_tag {scan : Scan} (h : Objects t scan s d) :
    ∃ tag ∈ Tag.lex t, tag.span = s := by
  cases h with
  | name htag hkind hform => exact ⟨_, htag, rfl⟩
  | @unfit family before after m _ hms hunfit =>
      have hmem : m ∈ Block.marks family (Tag.lex t) := by
        rw [hms]
        exact List.mem_append_right before List.mem_cons_self
      obtain ⟨tag, htag, -, hspan⟩ := Block.exists_tag_of_mem_marks hmem
      exact ⟨tag, htag, hspan⟩
  | unclosed ho =>
      obtain ⟨m, hm, hopener⟩ := List.mem_map.1 ((Block.matching_from _).1 _ ho)
      obtain ⟨tag, htag, -, hspan⟩ := Block.exists_tag_of_mem_marks hm
      exact ⟨tag, htag, hspan.trans hopener⟩

/-- The error of scans is at a tag that one of them objects to. -/
theorem Reports.exists_tag {α : Type} {scans : Scan → Prop} {r : Except Error α}
    (h : Reports t scans r) (he : r = .error e) :
    ∃ tag ∈ Tag.lex t, ∃ scan d, Objects t scan tag.span d ∧
      e = .malformed (Text.positionAt t tag.span.start) d := by
  rcases h with ⟨⟨a, hok⟩, -⟩ | ⟨scan, s, d, hleads, herror⟩
  · rw [he] at hok
    cases hok
  · rw [he] at herror
    obtain ⟨tag, htag, rfl⟩ := hleads.objects.exists_tag
    exact ⟨tag, htag, scan, d, hleads.objects, Except.error.inj herror⟩

/-- A check fails as its report of partials and links does, or as one of its two searches. -/
theorem check_error_cases (h : check t = .error e) :
    reportMalformed .strict [.inclusion, .link] t (Tag.lex t) = .error e ∨
      ∃ family, Block.find family .strict t = .error e := by
  rcases Fallible.bind_eq_error_iff.1 h with hnames | ⟨-, -, h⟩
  · exact .inl hnames
  rcases Fallible.bind_eq_error_iff.1 h with hconditionals | ⟨-, -, h⟩
  · exact .inr ⟨_, hconditionals⟩
  rcases Fallible.bind_eq_error_iff.1 h with hloops | ⟨-, -, h⟩
  · exact .inr ⟨_, hloops⟩
  · cases h

/-- An error of a check or of a strict search is at a tag that a scan objects to. -/
theorem exists_tag_of_error
    (h : check t = .error e ∨ ∃ family, Block.find family .strict t = .error e) :
    ∃ tag ∈ Tag.lex t, ∃ scan d, Objects t scan tag.span d ∧
      e = .malformed (Text.positionAt t tag.span.start) d := by
  rcases h with hcheck | ⟨family, hfind⟩
  · rcases check_error_cases hcheck with hnames | ⟨family, hfind⟩
    · exact (reportMalformed_reports t).exists_tag hnames
    · exact (find_reports family t).exists_tag hfind
  · exact (find_reports family t).exists_tag hfind

/-- **The position of an error names its tag.** A position is the number of the line and that of the
character in it, both from one. Offsets between characters are in the order of their positions. So
the position of an error, of a check or of a strict search, is that of one such offset alone, and
there a tag starts to which a scan objects for the defect of the error. -/
theorem position_names_tag (t : Text) :
    (∀ a b, t = a ++ b → Text.positionAt t (Text.size a) =
      ⟨a.count '\n' + 1, (a.rtakeWhile (· ≠ '\n')).length + 1⟩) ∧
    (∀ i j, Text.Boundary t i → Text.Boundary t j →
      ((Text.positionAt t i).before (Text.positionAt t j) ↔ i < j)) ∧
    ∀ e, (check t = .error e ∨ ∃ family, Block.find family .strict t = .error e) →
      ∃ position d, e = .malformed position d ∧
        ∃ tag ∈ Tag.lex t, (∃ scan, Objects t scan tag.span d) ∧
          ∀ i, Text.Boundary t i ∧ Text.positionAt t i = position ↔ i = tag.span.start := by
  refine ⟨?_, fun i j => Text.positionAt_before_iff, ?_⟩
  · intro a b hab
    rw [hab]
    exact Text.positionAt_size a b
  · intro e he
    obtain ⟨tag, htag, scan, d, hobjects, rfl⟩ := exists_tag_of_error he
    have hstart : Text.Boundary t tag.span.start := (Tag.boundary_of_mem_lex htag).1
    refine ⟨_, d, rfl, tag, htag, ⟨scan, hobjects⟩, fun i => ?_⟩
    constructor
    · intro hi
      exact (Text.positionAt_eq_iff hi.1 hstart).1 hi.2
    · intro hi
      rw [hi]
      exact ⟨hstart, rfl⟩

/-- An opener at the start of the second line, and behind it a closer of the other family with an
accent between them. -/
def accented : Text :=
  "né\n\x7b\x7b#if:a\x7d\x7dé\x7b\x7b#endforeach\x7d\x7d".toList

/-- The check names the opener, and the search for loops the closer, which starts at byte 15 and in
column 11. -/
theorem position_names_tag_of_accented :
    check accented = .error (.malformed ⟨2, 1⟩ (.unterminated .conditional)) ∧
      Block.find .loop .strict accented = .error (.malformed ⟨2, 11⟩ (.strayCloser .loop)) ∧
      (Text.positionAt accented 4).before (Text.positionAt accented 15) ∧
      (∀ i, Text.Boundary accented i ∧ Text.positionAt accented i = ⟨2, 1⟩ ↔ i = 4) ∧
      ∀ i, Text.Boundary accented i ∧ Text.positionAt accented i = ⟨2, 11⟩ ↔ i = 15 := by
  have hcheck : check accented = .error (.malformed ⟨2, 1⟩ (.unterminated .conditional)) := by
    decide +kernel
  have hfind : Block.find .loop .strict accented =
      .error (.malformed ⟨2, 11⟩ (.strayCloser .loop)) := by
    decide +kernel
  have hopener : Text.Boundary accented 4 := ⟨"né\n".toList, _, rfl, by decide⟩
  have hcloser : Text.Boundary accented 15 :=
    ⟨"né\n\x7b\x7b#if:a\x7d\x7dé".toList, _, rfl, by decide⟩
  obtain ⟨-, horder, hnames⟩ := position_names_tag accented
  refine ⟨hcheck, hfind, (horder 4 15 hopener hcloser).2 (by decide), ?_, ?_⟩
  · obtain ⟨position, d, he, tag, -, -, hiff⟩ := hnames _ (.inl hcheck)
    cases he
    rwa [← (hiff 4).1 ⟨hopener, by decide +kernel⟩] at hiff
  · obtain ⟨position, d, he, tag, -, -, hiff⟩ := hnames _ (.inr ⟨_, hfind⟩)
    cases he
    rwa [← (hiff 15).1 ⟨hcloser, by decide +kernel⟩] at hiff

end TagTemplate
