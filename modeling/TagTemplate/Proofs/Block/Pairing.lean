import TagTemplate.Block.Bounds
import TagTemplate.Proofs.Block.Clean
import TagTemplate.Proofs.Block.Grammar

/-!
# What a scan has read

A scan takes exactly the balanced words. `Trail` is its invariant: between two
marks of an open block, and in front of the outermost one, lies a balanced word.
So the parts of the blocks that are found are balanced as well, and a strict
search that succeeds for a text succeeds for each part of its blocks:
`exists_slice_of_runs`.
-/

namespace TagTemplate.Block

variable {family : Family} {policy : Policy} {t : Text} {s s' : Progress} {m : Mark}
  {ms ms' : List Mark} {bs : List Block} {ps : List Pending}

/-! ## What a scan has read -/

/-- The marks that a scan has read, given the blocks that it has left open. -/
inductive Trail : List Mark → List Pending → Prop where
  | base {ms : List Mark} (h : Balanced (roles ms)) : Trail ms []
  | body {ms body : List Mark} {ps : List Pending} {key : Text} {opener : Span} (h : Trail ms ps)
      (hb : Balanced (roles body)) :
      Trail (ms ++ ⟨.opens key, opener⟩ :: body) (⟨key, opener, none⟩ :: ps)
  | alternative {ms body alternative : List Mark} {ps : List Pending} {key : Text}
      {opener divider : Span} (h : Trail ms ps) (hb : Balanced (roles body))
      (ha : Balanced (roles alternative)) :
      Trail (ms ++ ⟨.opens key, opener⟩ :: (body ++ ⟨.divides, divider⟩ :: alternative))
        (⟨key, opener, some divider⟩ :: ps)

/-- The range lies between two of the marks, with a balanced word in it. -/
def Delimited (ms : List Mark) (part : Span) : Prop :=
  ∃ before left inner right after, ms = before ++ left :: (inner ++ right :: after) ∧
    Balanced (roles inner) ∧ part = ⟨left.span.stop, right.span.start⟩

/-- A part of a block. -/
def HasPart (b : Block) (part : Span) : Prop := part = b.body ∨ part ∈ b.alternative

/-- The marks that a scan has read. -/
structure Read (ms : List Mark) (s : Progress) : Prop where
  trail : Trail ms s.pending
  parts : ∀ b ∈ s.done, ∀ part, HasPart b part → Delimited ms part

theorem read_start : Read [] .start where
  trail := .base .nil
  parts := fun _ hb => nomatch hb

/-- Blocks that are read as a whole belong to the innermost part that is open. -/
theorem Trail.append (h : Trail ms ps) (h' : Balanced (roles ms')) : Trail (ms ++ ms') ps := by
  cases h with
  | base h =>
      refine .base ?_
      rw [roles_append]
      exact h.append h'
  | body h hb =>
      rw [List.append_assoc, List.cons_append]
      refine .body h ?_
      rw [roles_append]
      exact hb.append h'
  | alternative h hb ha =>
      rw [List.append_assoc, List.cons_append, List.append_assoc, List.cons_append]
      refine .alternative h hb ?_
      rw [roles_append]
      exact ha.append h'

/-- The marks from the opener of the innermost open block on. -/
theorem Trail.split {top : Pending} (h : Trail ms (top :: ps)) :
    ∃ before after, ms = before ++ after ∧ Trail before ps ∧
      ∀ closer, Balanced (roles (after ++ [⟨.closes, closer⟩])) ∧
        ∀ part, HasPart (top.close closer) part → Delimited (ms ++ [⟨.closes, closer⟩]) part := by
  cases h with
  | @body before body _ key opener h hb =>
      refine ⟨before, _, rfl, h, fun closer => ⟨?_, ?_⟩⟩
      · rw [roles_append]
        exact .block key hb .nil
      · intro part hpart
        rcases hpart with rfl | hpart
        · exact ⟨before, ⟨.opens key, opener⟩, body, ⟨.closes, closer⟩, [], by simp, hb, rfl⟩
        · cases hpart
  | @alternative before body alternative _ key opener divider h hb ha =>
      refine ⟨before, _, rfl, h, fun closer => ⟨?_, ?_⟩⟩
      · rw [List.cons_append, List.append_assoc, List.cons_append, roles_cons, roles_append,
          roles_cons, roles_append]
        exact .blockElse key hb ha .nil
      · intro part hpart
        rcases hpart with rfl | hpart
        · exact ⟨before, ⟨.opens key, opener⟩, body, ⟨.divides, divider⟩,
            alternative ++ [⟨.closes, closer⟩], by simp, hb, rfl⟩
        · cases hpart
          exact ⟨before ++ ⟨.opens key, opener⟩ :: body, ⟨.divides, divider⟩, alternative,
            ⟨.closes, closer⟩, [], by simp, ha, rfl⟩

theorem Delimited.append {part : Span} (h : Delimited ms part) (ms' : List Mark) :
    Delimited (ms ++ ms') part := by
  obtain ⟨before, left, inner, right, after, rfl, hinner, hpart⟩ := h
  exact ⟨before, left, inner, right, after ++ ms', by simp, hinner, hpart⟩

/-- One mark further. -/
theorem Read.step (h : Read ms s) (ha : Accepts s m s') : Read (ms ++ [m]) s' := by
  obtain ⟨htrail, hparts⟩ := h
  have hkept : ∀ b ∈ s.done, ∀ part, HasPart b part → Delimited (ms ++ [m]) part :=
    fun b hb part hpart => (hparts b hb part hpart).append [m]
  cases ha with
  | opens key span pending done => exact ⟨.body htrail .nil, hkept⟩
  | divides key opener span pending done =>
      refine ⟨?_, hkept⟩
      cases htrail with
      | body h hb =>
          rw [List.append_assoc, List.cons_append]
          exact .alternative h hb .nil
  | closesOuter top span done =>
      obtain ⟨before, after, rfl, hbefore, hclosed⟩ := htrail.split
      obtain ⟨hafter, hblock⟩ := hclosed span
      refine ⟨?_, fun b hb => ?_⟩
      · rw [List.append_assoc]
        exact hbefore.append hafter
      · rcases List.mem_append.1 hb with hb | hb
        · exact hkept b hb
        · rw [List.mem_singleton.1 hb]
          exact hblock
  | closesInner top next span pending done =>
      obtain ⟨before, after, rfl, hbefore, hclosed⟩ := htrail.split
      refine ⟨?_, hkept⟩
      rw [List.append_assoc]
      exact hbefore.append (hclosed span).1

/-- A whole scan. -/
theorem Read.run (h : Read ms s) (hr : Runs s ms' s') : Read (ms ++ ms') s' := by
  induction hr generalizing ms with
  | nil s => rwa [List.append_nil]
  | @cons _ _ _ m ms' accepts _ ih =>
      have hrest := ih (h.step accepts)
      rwa [List.append_assoc] at hrest

theorem Runs.read (h : Runs .start ms s) : Read ms s := read_start.run h

/-- A scan that leaves nothing open has read a balanced word. -/
theorem Runs.balanced (h : Runs .start ms ⟨[], bs⟩) : Balanced (roles ms) := by
  cases h.read.trail with
  | base h => exact h

/-! ## Strict scans -/

/-- Under the strict policy a scan goes on only at a mark that fits. -/
theorem Accepts.of_step (h : s.step family .strict t m = .ok s') : Accepts s m s' := by
  obtain ⟨pending, done⟩ := s
  obtain ⟨role, span⟩ := m
  cases role with
  | opens key =>
      cases h
      exact .opens key span pending done
  | divides =>
      rcases pending with _ | ⟨⟨key, opener, _ | d⟩, rest⟩
      · cases h
      · cases h
        exact .divides key opener span rest done
      · cases h
  | closes =>
      rcases pending with _ | ⟨top, _ | ⟨next, rest⟩⟩
      · cases h
      · cases h
        exact .closesOuter top span done
      · cases h
        exact .closesInner top next span rest done
  | malformed fault => cases h

theorem Runs.of_run (h : s.run family .strict t ms = .ok s') : Runs s ms s' := by
  induction ms generalizing s with
  | nil =>
      cases h
      exact .nil _
  | cons m ms ih =>
      rw [Progress.run] at h
      cases hstep : s.step family .strict t m with
      | error e =>
          rw [hstep] at h
          cases h
      | ok s₁ =>
          rw [hstep] at h
          exact .cons (.of_step hstep) (ih h)

/-- A strict search makes one scan. It fails as the scan does, or for the outermost block that the
scan leaves open, and else gives the blocks that the scan has completed. -/
theorem find_strict_scan (family : Family) (t : Text) :
    (∃ e, Progress.start.run family .strict t (marks family (Tag.lex t)) = .error e ∧
      find family .strict t = .error e) ∨
    ∃ s, Runs .start (marks family (Tag.lex t)) s ∧
      ((∃ p, s.pending.getLast? = some p ∧ find family .strict t =
          .error (.malformed (Text.positionAt t p.opener.start) (.unterminated family))) ∨
        s.pending = [] ∧ find family .strict t = .ok s.done) := by
  simp only [find, findWithin]
  cases hrun : Progress.start.run family .strict t (marks family (Tag.lex t)) with
  | error e => exact .inl ⟨e, rfl, rfl⟩
  | ok s =>
      refine .inr ⟨s, .of_run hrun, ?_⟩
      cases hlast : s.pending.getLast? with
      | none => exact .inr ⟨List.getLast?_eq_none_iff.1 hlast, by simp only [hlast]; rfl⟩
      | some p => exact .inl ⟨p, rfl, by simp only [hlast]; rfl⟩

/-- A strict search that succeeds has met no mark that does not fit. -/
theorem runs_of_find (h : find family .strict t = .ok bs) :
    Runs .start (marks family (Tag.lex t)) ⟨[], bs⟩ := by
  rcases find_strict_scan family t with ⟨e, -, hfind⟩ | ⟨s, hruns, ⟨p, -, hfind⟩ | ⟨hnone, hfind⟩⟩
  · cases hfind.symm.trans h
  · cases hfind.symm.trans h
  · cases hfind.symm.trans h
    rwa [← hnone]

/-- **A strict search succeeds** exactly for texts whose marks are balanced. -/
theorem find_strict_iff :
    (∃ bs, find family .strict t = .ok bs) ↔ Balanced (roles (marks family (Tag.lex t))) := by
  constructor
  · intro hfind
    obtain ⟨bs, hbs⟩ := hfind
    exact (runs_of_find hbs).balanced
  · intro hbalanced
    obtain ⟨bs, hbs⟩ := hbalanced.runs
    exact ⟨bs, find_of_runs hbs .strict⟩

/-! ## The parts of the blocks of a text -/

/-- Whether a range holds a mark. -/
def Mark.within (part : Span) (m : Mark) : Bool :=
  part.start ≤ m.span.start && m.span.stop ≤ part.stop

/-- A mark ends before the other starts. -/
def Mark.Before (m m' : Mark) : Prop := m.span.stop ≤ m'.span.start

theorem marks_spec {m : Mark} (h : m ∈ marks family (Tag.lex t)) :
    m.span.start < m.span.stop ∧ Text.Boundary t m.span.start ∧ Text.Boundary t m.span.stop := by
  obtain ⟨tag, htag, -, hspan⟩ := exists_tag_of_mem_marks h
  rw [← hspan]
  exact ⟨Tag.lt_of_mem_lex htag, Tag.boundary_of_mem_lex htag⟩

/-- Marks as those of a text: one behind the other, and none of them empty. -/
structure Ordered (ms : List Mark) : Prop where
  before : ms.Pairwise Mark.Before
  proper : ∀ m ∈ ms, m.span.start < m.span.stop

theorem ordered_marks (family : Family) (t : Text) : Ordered (marks family (Tag.lex t)) where
  before := by
    refine List.Pairwise.filterMap _ ?_ (Tag.pairwise_lex t)
    intro tag tag' hbefore m hm m' hm'
    obtain ⟨role, -, rfl⟩ := Option.map_eq_some_iff.1 hm
    obtain ⟨role', -, rfl⟩ := Option.map_eq_some_iff.1 hm'
    exact hbefore.1
  proper := fun _ hm => (marks_spec hm).1

theorem Ordered.append_left {ms' : List Mark} (h : Ordered (ms ++ ms')) : Ordered ms where
  before := (List.pairwise_append.1 h.before).1
  proper := fun m hm => h.proper m (List.mem_append_left _ hm)

/-- No mark stands in the place of another. -/
theorem Ordered.span_ne {before after : List Mark} {m : Mark} (h : Ordered (before ++ m :: after)) :
    (∀ m' ∈ before, m'.span ≠ m.span) ∧ ∀ m' ∈ after, m'.span ≠ m.span := by
  obtain ⟨hbefore, hproper⟩ := h
  obtain ⟨-, hafter, hm⟩ := List.pairwise_append.1 hbefore
  have hself := hproper m (by simp)
  constructor
  · intro m' hm' heq
    have hle : m'.span.stop ≤ m.span.start := hm m' hm' m List.mem_cons_self
    rw [heq] at hle
    omega
  · intro m' hm' heq
    have hle : m.span.stop ≤ m'.span.start := (List.pairwise_cons.1 hafter).1 m' hm'
    rw [heq] at hle
    omega

/-- The marks in the range between two marks are those between them in the list. -/
theorem filter_within {before inner after : List Mark} {left right : Mark}
    (hms : ms = before ++ left :: (inner ++ right :: after)) (hordered : Ordered ms) :
    ms.filter (Mark.within ⟨left.span.stop, right.span.start⟩) = inner := by
  subst hms
  obtain ⟨hbefore, hlt⟩ := hordered
  obtain ⟨-, hrest, hl⟩ := List.pairwise_append.1 hbefore
  obtain ⟨hleft, hrest⟩ := List.pairwise_cons.1 hrest
  obtain ⟨-, hrest, hi⟩ := List.pairwise_append.1 hrest
  obtain ⟨hright, -⟩ := List.pairwise_cons.1 hrest
  have hleftlt := hlt left (by simp)
  have hrightlt := hlt right (by simp)
  have hout : ∀ m ∈ before, m.within ⟨left.span.stop, right.span.start⟩ = false := by
    intro m hm
    have hstop : m.span.stop ≤ left.span.start := hl m hm left (by simp)
    have := hlt m (by simp [hm])
    simp only [Mark.within, Bool.and_eq_false_iff, decide_eq_false_iff_not]
    omega
  have hin : ∀ m ∈ inner, m.within ⟨left.span.stop, right.span.start⟩ = true := by
    intro m hm
    have hstart : left.span.stop ≤ m.span.start := hleft m (by simp [hm])
    have hstop : m.span.stop ≤ right.span.start := hi m hm right (by simp)
    simp [Mark.within, hstart, hstop]
  have hout' : ∀ m ∈ after, m.within ⟨left.span.stop, right.span.start⟩ = false := by
    intro m hm
    have hstart : right.span.stop ≤ m.span.start := hright m hm
    have := hlt m (by simp [hm])
    simp only [Mark.within, Bool.and_eq_false_iff, decide_eq_false_iff_not]
    omega
  have hleftout : left.within ⟨left.span.stop, right.span.start⟩ = false := by
    simp only [Mark.within, Bool.and_eq_false_iff, decide_eq_false_iff_not]
    omega
  have hrightout : right.within ⟨left.span.stop, right.span.start⟩ = false := by
    simp only [Mark.within, Bool.and_eq_false_iff, decide_eq_false_iff_not]
    omega
  rw [List.filter_append, List.filter_cons_of_neg (by simp [hleftout]), List.filter_append,
    List.filter_cons_of_neg (by simp [hrightout]), List.filter_eq_nil_iff.2 (by simpa using hout),
    List.filter_eq_self.2 hin, List.filter_eq_nil_iff.2 (by simpa using hout'), List.nil_append,
    List.append_nil]

/-- The marks of a slice are those of the text that lie in it. -/
theorem marks_slice {part : Span} {u : Text} (h : Text.slice? t part = some u) :
    (marks family (Tag.lex u)).map (Mark.shift part.start) =
      (marks family (Tag.lex t)).filter (Mark.within part) := by
  have hfilter : (marks family (Tag.lex t)).filter (Mark.within part) =
      marks family ((Tag.lex t).filter fun tag =>
        part.start ≤ tag.span.start && tag.span.stop ≤ part.stop) := by
    rw [marks, marks, List.filter_filterMap, List.filterMap_filter]
    apply List.filterMap_congr
    intro tag _
    cases role? family tag.kind <;> simp [Mark.within, Option.filter]
  rw [hfilter, ← Tag.lex_slice h, marks, marks, List.map_filterMap, List.filterMap_map]
  apply List.filterMap_congr
  intro tag _
  show ((role? family tag.kind).map _).map _ = (role? family tag.kind).map _
  rw [Option.map_map]
  rfl

/-- What lies between two marks is a part of the text. -/
theorem exists_slice_between {left right : Mark} (hl : left ∈ marks family (Tag.lex t))
    (hr : right ∈ marks family (Tag.lex t)) (hle : left.span.stop ≤ right.span.start) :
    ∃ u, Text.slice? t ⟨left.span.stop, right.span.start⟩ = some u := by
  obtain ⟨-, u, -, -, -, -, hu⟩ :=
    Text.slice?_of_boundaries (marks_spec hl).2.2 (marks_spec hr).2.1 hle
  exact ⟨u, hu⟩

/-- **The parts of the blocks** of a balanced text are parts of the text, and balanced. -/
theorem exists_slice_of_runs (h : Runs .start (marks family (Tag.lex t)) ⟨[], bs⟩) {b : Block}
    (hb : b ∈ bs) {part : Span} (hpart : HasPart b part) :
    ∃ u, Text.slice? t part = some u ∧ Balanced (roles (marks family (Tag.lex u))) := by
  obtain ⟨before, left, inner, right, after, hms, hinner, rfl⟩ := h.read.parts b hb part hpart
  have hwithin := filter_within hms (ordered_marks family t)
  have hleft : left ∈ marks family (Tag.lex t) := by
    rw [hms]
    simp
  have hright : right ∈ marks family (Tag.lex t) := by
    rw [hms]
    simp
  have hle : left.span.stop ≤ right.span.start := by
    have hpair := (ordered_marks family t).before
    rw [hms] at hpair
    exact (List.pairwise_cons.1 (List.pairwise_append.1 hpair).2.1).1 right (by simp)
  obtain ⟨u, hu⟩ := exists_slice_between hleft hright hle
  refine ⟨u, hu, ?_⟩
  rw [← hwithin, ← marks_slice hu, roles_shift] at hinner
  exact hinner

end TagTemplate.Block
