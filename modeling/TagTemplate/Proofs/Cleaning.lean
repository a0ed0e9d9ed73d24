import TagTemplate.Proofs.Verbatim

/-!
# Runs of line breaks

The last step of a render takes out tags and then writes runs of line breaks
anew. The line breaks and other characters of what it writes are those that it
meant to write: a carriage return that stands alone never comes before a line
feed. So the runs of the result are the runs of the text, each written anew on
its own, and what stands between them is untouched: `clean_normalises`. A second
time nothing changes.
-/

namespace TagTemplate.Text

open LineUnit (isBreak closeRun collapse lineFeed returnFeed other)

variable {run us vs : List LineUnit} {u : LineUnit} {c : Char}

/-- The runs of line breaks of some units, one between each two other characters and one at each
end. -/
def runs (us : List LineUnit) : List (List LineUnit) := us.splitOnP fun u => !u.isBreak

/-- What there is besides line breaks. -/
def others (us : List LineUnit) : List LineUnit := us.filter fun u => !u.isBreak

/-- A run as it is written anew: a single line break stays, more of them become one blank line, with
carriage returns if there was any. -/
structure Rewritten (run run' : List LineUnit) : Prop where
  kept : run.length < 2 → run'.flatMap LineUnit.text = run.flatMap LineUnit.text
  feeds : 2 ≤ run.length → '\r' ∉ run.flatMap LineUnit.text →
    run'.flatMap LineUnit.text = "\n\n".toList
  returns : 2 ≤ run.length → '\r' ∈ run.flatMap LineUnit.text →
    run'.flatMap LineUnit.text = "\r\n\r\n".toList

theorem isBreak_of_mem_nil : ∀ u ∈ ([] : List LineUnit), isBreak u = true :=
  fun _ hu => absurd hu List.not_mem_nil

/-! ## Closing a run -/

theorem isBreak_closeRun (hrun : ∀ u ∈ run, isBreak u = true) :
    ∀ u ∈ closeRun run, isBreak u = true :=
  fun u hu => (LineUnit.mem_of_mem_closeRun hu).elim (hrun u) id

theorem mem_return_iff (hrun : ∀ u ∈ run, isBreak u = true) :
    '\r' ∈ run.flatMap LineUnit.text ↔ returnFeed ∈ run := by
  rw [List.mem_flatMap]
  constructor
  · rintro ⟨u, hu, hreturn⟩
    cases u with
    | lineFeed => exact absurd hreturn (by decide)
    | returnFeed => exact hu
    | other c => exact absurd (hrun _ hu) (by simp [isBreak])
  · exact fun h => ⟨returnFeed, h, List.mem_cons_self⟩

theorem rewritten_closeRun (hrun : ∀ u ∈ run, isBreak u = true) : Rewritten run (closeRun run) := by
  have hreturn : run.contains returnFeed = true ↔ '\r' ∈ run.flatMap LineUnit.text := by
    rw [List.contains_iff_mem, mem_return_iff hrun]
  constructor
  · intro hlen
    rw [closeRun, if_pos hlen]
  · intro hlen hnone
    rw [closeRun, if_neg (by omega), if_neg fun h => hnone (hreturn.1 h)]
    rfl
  · intro hlen hsome
    rw [closeRun, if_neg (by omega), if_pos (hreturn.2 hsome)]
    rfl

theorem length_closeRun_le (run : List LineUnit) : (closeRun run).length ≤ 2 := by
  simp only [closeRun]
  split
  · omega
  · split <;> exact Nat.le_refl 2

/-- What is closed stays as it is. -/
theorem closeRun_closeRun (run : List LineUnit) : closeRun (closeRun run) = closeRun run := by
  by_cases hlen : run.length < 2
  · have hself : closeRun run = run := if_pos hlen
    rw [hself, hself]
  · have hblank : closeRun run = [returnFeed, returnFeed] ∨
        closeRun run = [lineFeed, lineFeed] := by
      rw [closeRun, if_neg hlen]
      exact ite_eq_or_eq _ _ _
    rcases hblank with h | h <;> rw [h] <;> rfl

/-! ## Runs and others -/

theorem runs_of_isBreak (hrun : ∀ u ∈ run, isBreak u = true) : runs run = [run] :=
  List.splitOnP_eq_singleton fun u hu => by rw [hrun u hu]; rfl

theorem runs_append_other (us vs : List LineUnit) (c : Char) :
    runs (us ++ other c :: vs) = runs us ++ runs vs := List.splitOnP_append_cons us vs rfl

theorem others_of_isBreak (hrun : ∀ u ∈ run, isBreak u = true) : others run = [] :=
  List.filter_eq_nil_iff.2 fun u hu => by simp [hrun u hu]

theorem isBreak_of_ne_other (hu : ∀ c, u = other c → False) : isBreak u = true := by
  cases u with
  | lineFeed => rfl
  | returnFeed => rfl
  | other c => exact (hu c rfl).elim

theorem isBreak_of_mem_snoc (hrun : ∀ u ∈ run, isBreak u = true) (hu : isBreak u = true) :
    ∀ v ∈ run ++ [u], isBreak v = true := by
  intro v hv
  rcases List.mem_append.1 hv with hv | hv
  · exact hrun v hv
  · rw [List.mem_singleton.1 hv]
    exact hu

theorem isBreak_of_mem_runs (hrun : ∀ u ∈ run, isBreak u = true) :
    ∀ r ∈ runs (run ++ us), ∀ u ∈ r, isBreak u = true := by
  fun_induction collapse run us with
  | case1 run =>
      rw [List.append_nil, runs_of_isBreak hrun]
      exact List.forall_mem_singleton.2 hrun
  | case2 run c us ih =>
      rw [runs_append_other, runs_of_isBreak hrun]
      exact List.forall_mem_cons.2 ⟨hrun, ih isBreak_of_mem_nil⟩
  | case3 run u us hu ih =>
      have hrest := ih (isBreak_of_mem_snoc hrun (isBreak_of_ne_other hu))
      rwa [List.append_assoc] at hrest

/-- Units are known by their runs and the others between them. -/
theorem eq_of_runs (hruns : runs us = runs vs) (hothers : others us = others vs) : us = vs := by
  rw [← List.splitOnP_spec (p := fun u => !u.isBreak) us, ← runs, hruns, ← others, hothers]
  exact List.splitOnP_spec vs

/-- Collapsing closes each run and leaves the others. -/
theorem runs_collapse (hrun : ∀ u ∈ run, isBreak u = true) (us : List LineUnit) :
    runs (collapse run us) = (runs (run ++ us)).map closeRun ∧
      others (collapse run us) = others us := by
  fun_induction collapse run us with
  | case1 run =>
      have hclosed := isBreak_closeRun hrun
      rw [List.append_nil, runs_of_isBreak hrun, runs_of_isBreak hclosed, others_of_isBreak hclosed]
      exact ⟨rfl, rfl⟩
  | case2 run c us ih =>
      have hclosed := isBreak_closeRun hrun
      obtain ⟨hruns, hothers⟩ := ih isBreak_of_mem_nil
      constructor
      · rw [runs_append_other, runs_append_other, runs_of_isBreak hrun, runs_of_isBreak hclosed,
          hruns, List.map_append]
        rfl
      · rw [others, List.filter_append, ← others, others_of_isBreak hclosed]
        exact congrArg (other c :: ·) hothers
  | case3 run u us hu ih =>
      have hbreak := isBreak_of_ne_other hu
      obtain ⟨hruns, hothers⟩ := ih (isBreak_of_mem_snoc hrun hbreak)
      refine ⟨by rw [hruns, List.append_assoc]; rfl, hothers.trans ?_⟩
      rw [others, others, List.filter_cons, hbreak]
      rfl

/-- Collapsing a second time changes nothing. -/
theorem collapse_collapse (us : List LineUnit) : collapse [] (collapse [] us) = collapse [] us := by
  obtain ⟨hruns, hothers⟩ := runs_collapse isBreak_of_mem_nil us
  obtain ⟨hruns', hothers'⟩ := runs_collapse isBreak_of_mem_nil (collapse [] us)
  refine eq_of_runs ?_ hothers'
  rw [hruns', List.nil_append, hruns, List.map_map]
  exact List.map_congr_left fun run _ => closeRun_closeRun run

/-! ## Units that a text has -/

/-- Units that a text can have: line feeds are line breaks, and so are carriage returns before
them. -/
def Proper : List LineUnit → Prop
  | [] => True
  | other c :: us => c ≠ '\n' ∧ (c = '\r' → us.head? ≠ some lineFeed) ∧ Proper us
  | _ :: us => Proper us

theorem eq_cons_of_head?_lineUnits {t : Text} (h : (lineUnits t).head? = some lineFeed) :
    ∃ s, t = '\n' :: s := by
  fun_cases lineUnits t with
  | case1 => cases h
  | case2 s => cases h
  | case3 s => exact ⟨s, rfl⟩
  | case4 c s hpair hsingle =>
      rw [lineUnits] at h
      · cases h
      · exact hpair
      · exact hsingle

theorem proper_lineUnits (t : Text) : Proper (lineUnits t) := by
  fun_induction lineUnits t with
  | case1 => trivial
  | case2 t ih => exact ih
  | case3 t ih => exact ih
  | case4 c t hpair hsingle ih =>
      refine ⟨hsingle, fun hc hhead => ?_, ih⟩
      obtain ⟨s, rfl⟩ := eq_cons_of_head?_lineUnits hhead
      exact hpair s hc rfl

/-- Proper units are the units of the text that they spell. -/
theorem lineUnits_flatMap (h : Proper us) : lineUnits (us.flatMap LineUnit.text) = us := by
  induction us with
  | nil => rfl
  | cons u us ih =>
      rw [List.flatMap_cons]
      cases u with
      | lineFeed => exact congrArg (lineFeed :: ·) (ih h)
      | returnFeed => exact congrArg (returnFeed :: ·) (ih h)
      | other c =>
          obtain ⟨hfeed, hreturn, hrest⟩ := h
          refine (lineUnits_cons hfeed fun hc s hs => ?_).trans (congrArg (other c :: ·) (ih hrest))
          have hhead : us.head? = some lineFeed := by
            rw [← ih hrest, show us.flatMap LineUnit.text = '\n' :: s from hs]
            rfl
          exact hreturn hc hhead

/-- A text taken apart into line breaks and other characters: the units spell the text, and what
can be read as a line break is one. -/
structure Units (t : Text) (us : List LineUnit) : Prop where
  spells : us.flatMap LineUnit.text = t
  proper : Proper us

/-- A text is taken apart in one way. -/
theorem units_iff {t : Text} : Units t us ↔ us = lineUnits t := by
  constructor
  · intro h
    rw [← h.spells, lineUnits_flatMap h.proper]
  · rintro rfl
    exact ⟨flatMap_lineUnits t, proper_lineUnits t⟩

theorem proper_append_iff (hrun : ∀ u ∈ run, isBreak u = true) :
    Proper (run ++ us) ↔ Proper us := by
  induction run with
  | nil => exact Iff.rfl
  | cons u run ih =>
      have hrest := ih fun v hv => hrun v (List.mem_cons_of_mem u hv)
      cases u with
      | lineFeed => exact hrest
      | returnFeed => exact hrest
      | other c => exact absurd (hrun _ List.mem_cons_self) Bool.false_ne_true

theorem head?_closeRun (hrun : ∀ u ∈ run, isBreak u = true)
    (h : (closeRun run).head? = some lineFeed) : run.head? = some lineFeed := by
  simp only [closeRun] at h
  split at h
  · exact h
  next hlen =>
    split at h
    · cases h
    next hnone =>
      cases run with
      | nil => exact absurd (Nat.zero_lt_two) hlen
      | cons u run =>
          cases u with
          | lineFeed => rfl
          | returnFeed => exact absurd (by simp) hnone
          | other c => exact absurd (hrun _ List.mem_cons_self) Bool.false_ne_true

/-- Collapsed units begin with a line feed only if the units did. -/
theorem head?_collapse (hrun : ∀ u ∈ run, isBreak u = true)
    (h : (collapse run us).head? = some lineFeed) : (run ++ us).head? = some lineFeed := by
  fun_induction collapse run us with
  | case1 run =>
      rw [List.append_nil]
      exact head?_closeRun hrun h
  | case2 run c us ih =>
      cases hclosed : closeRun run with
      | nil =>
          rw [hclosed] at h
          cases h
      | cons u rest =>
          rw [hclosed] at h
          have hhead := head?_closeRun hrun (hclosed ▸ h)
          rw [List.head?_append, hhead]
          rfl
  | case3 run u us hu ih =>
      have hrest := ih (isBreak_of_mem_snoc hrun (isBreak_of_ne_other hu)) h
      rwa [List.append_assoc] at hrest

/-- Collapsing keeps carriage returns and line feeds apart that stood apart. -/
theorem proper_collapse (hrun : ∀ u ∈ run, isBreak u = true) (h : Proper us) :
    Proper (collapse run us) := by
  fun_induction collapse run us with
  | case1 run =>
      rw [← List.append_nil (closeRun run)]
      exact (proper_append_iff (isBreak_closeRun hrun)).2 trivial
  | case2 run c us ih =>
      obtain ⟨hfeed, hreturn, hrest⟩ := h
      refine (proper_append_iff (isBreak_closeRun hrun)).2
        ⟨hfeed, fun hc hhead => ?_, ih isBreak_of_mem_nil hrest⟩
      exact hreturn hc (head?_collapse isBreak_of_mem_nil hhead)
  | case3 run u us hu ih =>
      have hbreak := isBreak_of_ne_other hu
      refine ih (isBreak_of_mem_snoc hrun hbreak) ?_
      exact (proper_append_iff (List.forall_mem_singleton.2 hbreak)).1 h

/-- The units of a collapsed text are those that were written. -/
theorem lineUnits_collapseBreaks (t : Text) :
    lineUnits (collapseBreaks t) = collapse [] (lineUnits t) :=
  lineUnits_flatMap (proper_collapse isBreak_of_mem_nil (proper_lineUnits t))

/-- **Collapsing line breaks** a second time changes nothing. -/
theorem collapseBreaks_collapseBreaks (t : Text) :
    collapseBreaks (collapseBreaks t) = collapseBreaks t := by
  rw [collapseBreaks, lineUnits_collapseBreaks, collapse_collapse, ← collapseBreaks]

end TagTemplate.Text

namespace TagTemplate

open Text (runs others lineUnits Rewritten Units)

/-! ## The text without its tags -/

namespace Ink

theorem text_excerpt (offset : Nat) (s : Span) (w : Ink) :
    text (excerpt weight offset s w) = excerpt Char.utf8Size offset s (text w) := by
  induction w generalizing offset with
  | nil => rfl
  | cons c w ih =>
      have hrest : text (excerpt weight (offset + weight c) s w) =
          excerpt Char.utf8Size (offset + c.1.utf8Size) s (text w) := ih _
      show text (excerpt weight offset s (c :: w)) =
        excerpt Char.utf8Size offset s (c.1 :: text w)
      rw [excerpt, excerpt, ← hrest]
      split <;> rfl

theorem text_splicedFrom (w : Ink) (pos : Nat) (edits : List (Span × Ink)) :
    text (splicedFrom weight w pos edits) =
      splicedFrom Char.utf8Size (text w) pos (edits.map fun e => (e.1, text e.2)) := by
  induction edits generalizing pos with
  | nil => rw [splicedFrom, List.map_nil, splicedFrom, text_excerpt, extent_eq_size,
      Text.extent_eq_size]
  | cons e edits ih =>
      rw [splicedFrom, List.map_cons, splicedFrom, text_append, text_append, text_excerpt, ih]

end Ink

namespace Marked

/-- The tags lie in the text one behind the other, between characters. -/
theorem spansFit_tags (m : Marked) : Text.SpansFit m.text 0
    ((m.tags.map fun tag => (tag.span, ([] : Text))).map Prod.fst) := by
  rw [List.map_map]
  exact Ink.spansFit_of_sublist List.filter_sublist

/-- What is left without the tags is the text with each of them cut out. -/
theorem text_strip (m : Marked) :
    m.strip.text = Text.splice m.text (m.tags.map fun tag => (tag.span, [])) := by
  have hfit := spansFit_tags m
  have hsub : m.tags.Sublist (Tag.lex m.text) := List.filter_sublist
  have hbounds : ∀ tag ∈ m.tags, Text.Boundary m.text tag.span.start ∧
      Text.Boundary m.text tag.span.stop :=
    fun tag htag => Tag.boundary_of_mem_lex (hsub.subset htag)
  rw [text_eq, strip, marks_splice (List.forall_mem_map.2 hbounds), spliced, Ink.text_splicedFrom,
    Text.splice, Text.spliceFrom_eq_splicedFrom hfit, ← text_eq, List.map_map, List.map_map]
  rfl

/-- **Cleaning normalises line breaks** and nothing else. The tags are cut out of the text, and what
is left of it and the result are each taken apart into line breaks and other characters in the one
way there is. The characters that are no line breaks stay as they are, and each run of line breaks
is written anew on its own, so no run of the result is longer than a blank line, and cleaning the
result changes nothing. -/
theorem clean_normalises (m : Marked) :
    let s := Text.splice m.text (m.tags.map fun tag => (tag.span, []))
    Text.Replaced 0 (m.tags.map fun tag => (tag.span, [])) m.text s ∧
      (∀ us, Units s us ↔ us = lineUnits s) ∧ (∀ us, Units m.clean us ↔ us = lineUnits m.clean) ∧
      others (lineUnits m.clean) = others (lineUnits s) ∧
      List.Forall₂ Rewritten (runs (lineUnits s)) (runs (lineUnits m.clean)) ∧
      (∀ run ∈ runs (lineUnits m.clean), run.length ≤ 2) ∧
      (ofPieces [.data m.clean]).clean = m.clean := by
  intro s
  refine ⟨Text.replaced_splice (spansFit_tags m), fun us => Text.units_iff,
    fun us => Text.units_iff, ?_⟩
  have hclean : m.clean = Text.collapseBreaks s := congrArg Text.collapseBreaks m.text_strip
  have hunits : lineUnits m.clean = Text.LineUnit.collapse [] (lineUnits s) := by
    rw [hclean, Text.lineUnits_collapseBreaks]
  obtain ⟨hruns, hothers⟩ := Text.runs_collapse Text.isBreak_of_mem_nil (lineUnits s)
  rw [List.nil_append] at hruns
  rw [hunits, hruns]
  refine ⟨hothers, ?_, ?_, ?_⟩
  · rw [List.forall₂_map_right_iff, List.forall₂_same]
    exact fun run hrun =>
      Text.rewritten_closeRun (Text.isBreak_of_mem_runs Text.isBreak_of_mem_nil run hrun)
  · exact List.forall_mem_map.2 fun run _ => Text.length_closeRun_le run
  · have hbrace : ('{', Origin.template) ∉ (ofPieces [.data m.clean]).marks := by
      rw [marks_ofPieces, List.flatMap_singleton]
      exact Ink.not_mem_ofText_data _ _
    have htext : (ofPieces [.data m.clean]).text = m.clean := by
      rw [text_eq, marks_ofPieces, List.flatMap_singleton]
      exact Ink.text_ofText .data m.clean
    rw [clean, strip_eq_self (separate_ofPieces _) hbrace, htext, hclean,
      Text.collapseBreaks_collapseBreaks]

/-- A carriage return on its own stays before a run, and a run with one carriage return gets two. -/
example : (ofTemplate "\r\r\n\n\n\x7b\x7bx\x7d\x7da\n\x7b\x7by\x7d\x7d\r\n".toList).clean =
    "\r\r\n\r\na\r\n\r\n".toList := by decide +kernel

end Marked

end TagTemplate
