import TagTemplate.Proofs.Text.LineBreak
import Mathlib.Data.List.Basic

/-!
# Texts that come to rest

The last thing done to a text is to join its line breaks and to cut off the
blanks at its ends. A text with no more than one blank line in a row, written
in one way, keeps its line breaks, and a text that begins and ends with other
characters keeps its ends. Between parts without line feeds the line breaks of
a text are joined as they are alone.
-/

namespace TagTemplate.Text

open LineUnit

/-- Every run of line breaks is one line break or a blank line, with carriage returns throughout or
without any. -/
def Settled (t : Text) : Prop :=
  ∀ run, (∀ u ∈ run, isBreak u = true) → run <:+: lineUnits t →
    run.length ≤ 2 ∧ ∀ u ∈ run, ∀ v ∈ run, u = v

namespace LineUnit

variable {run us : List LineUnit}

/-- A short run of equal line breaks is written as it is. -/
theorem closeRun_eq_self (hlen : run.length ≤ 2) (hsame : ∀ u ∈ run, ∀ v ∈ run, u = v)
    (hrun : ∀ u ∈ run, isBreak u = true) : closeRun run = run := by
  rcases run with _ | ⟨u, _ | ⟨v, _ | ⟨w, run⟩⟩⟩
  · rfl
  · rfl
  · obtain rfl := hsame u (by simp) v (by simp)
    cases u with
    | lineFeed => rfl
    | returnFeed => rfl
    | other c => cases hrun (other c) (by simp)
  · simp only [List.length_cons] at hlen
    omega

theorem collapse_eq_self (hrun : ∀ u ∈ run, isBreak u = true)
    (h : ∀ r, (∀ u ∈ r, isBreak u = true) → r <:+: run ++ us →
      r.length ≤ 2 ∧ ∀ u ∈ r, ∀ v ∈ r, u = v) :
    collapse run us = run ++ us := by
  have hclose : closeRun run = run := by
    obtain ⟨hlen, hsame⟩ := h run hrun (List.prefix_append run us).isInfix
    exact closeRun_eq_self hlen hsame hrun
  fun_induction collapse run us with
  | case1 run => rw [hclose, List.append_nil]
  | case2 run c us ih =>
      have hrest : collapse [] us = [] ++ us := by
        refine ih (fun _ hu => absurd hu List.not_mem_nil) (fun r hr hpart => ?_) rfl
        exact h r hr (hpart.trans ⟨run ++ [other c], [], by simp⟩)
      rw [hclose, hrest, List.nil_append]
  | case3 run u us hu ih =>
      have hbreak : isBreak u = true := by
        cases u with
        | other c => exact absurd rfl (hu c)
        | lineFeed => rfl
        | returnFeed => rfl
      have hrun' : ∀ v ∈ run ++ [u], isBreak v = true := by
        intro v hv
        rcases List.mem_append.1 hv with hv | hv
        · exact hrun v hv
        · rw [List.mem_singleton.1 hv]
          exact hbreak
      have hwhole : run ++ [u] ++ us = run ++ u :: us := by simp
      rw [← hwhole] at h ⊢
      obtain ⟨hlen, hsame⟩ := h (run ++ [u]) hrun' (List.prefix_append _ us).isInfix
      exact ih hrun' h (closeRun_eq_self hlen hsame hrun')

end LineUnit

/-- The line breaks of a settled text are not written anew. -/
theorem Settled.collapseBreaks_eq {t : Text} (h : Settled t) : collapseBreaks t = t := by
  rw [collapseBreaks, LineUnit.collapse_eq_self (fun _ hu => absurd hu List.not_mem_nil) h,
    List.nil_append, flatMap_lineUnits]

/-! ## Parts without line feeds -/

variable {p q s t v : Text}

theorem lineUnits_append_left (hp : '\n' ∉ p) (hq : p.getLast? = some '\r' → q.head? ≠ some '\n') :
    lineUnits (p ++ q) = p.map .other ++ lineUnits q := by
  induction p with
  | nil => rfl
  | cons c p ih =>
      have hrest := ih (fun h => hp (List.mem_cons_of_mem c h)) fun hlast => hq (by
        cases p with
        | nil => cases hlast
        | cons d p => exact hlast)
      rw [List.cons_append, lineUnits_cons (fun hc => hp (by simp [hc])) ?_, hrest]
      · rfl
      · -- a carriage return is followed by a character of `p`, or it is the last one
        rintro rfl x hx
        cases p with
        | nil => exact hq rfl (by rw [show q = '\n' :: x from hx]; rfl)
        | cons d p => exact hp (by simp [(List.cons.inj hx).1])

theorem lineUnits_append_right (hs : '\n' ∉ s) :
    lineUnits (v ++ s) = lineUnits v ++ s.map .other := by
  have hself : lineUnits s = s.map .other := by
    simpa [lineUnits] using lineUnits_append_left (q := []) hs (by simp)
  fun_induction lineUnits v with
  | case1 => exact hself
  | case2 v ih => rw [List.cons_append, List.cons_append, lineUnits, ih, List.cons_append]
  | case3 v ih => rw [List.cons_append, lineUnits, ih, List.cons_append]
  | case4 c v hpair hsingle ih =>
      rw [List.cons_append, List.cons_append, ← ih]
      refine lineUnits_cons hsingle fun hc x hx => ?_
      cases v with
      | nil => exact hs (by rw [show s = '\n' :: x from hx]; simp)
      | cons d v => exact hpair v hc (congrArg (· :: v) (List.cons.inj hx).1)

theorem LineUnit.collapse_map_other (us : List LineUnit) (s : Text) :
    collapse [] (s.map other ++ us) = s.map other ++ collapse [] us := by
  induction s with
  | nil => rfl
  | cons c s ih => exact congrArg (other c :: ·) ih

/-- Line breaks are joined between two parts as they are alone, if these have no line feeds and no
line break is made where the parts meet. -/
theorem collapseBreaks_between (hp : '\n' ∉ p) (hlast : p.getLast? ≠ some '\r') (hs : '\n' ∉ s)
    (hne : s ≠ []) : collapseBreaks (p ++ v ++ s) = p ++ collapseBreaks v ++ s := by
  have hunits : lineUnits (p ++ v ++ s) = p.map .other ++ (lineUnits v ++ s.map .other) := by
    rw [List.append_assoc, lineUnits_append_left hp fun h => absurd h hlast,
      lineUnits_append_right hs]
  have hspell : ∀ u : Text, (u.map other).flatMap LineUnit.text = u := by
    intro u
    induction u with
    | nil => rfl
    | cons c u ih => exact congrArg (c :: ·) ih
  obtain ⟨c, s, rfl⟩ := List.exists_cons_of_ne_nil hne
  have hrest : collapse [] (s.map other) = s.map other := by
    simpa [collapse, closeRun] using LineUnit.collapse_map_other [] s
  rw [collapseBreaks, hunits, LineUnit.collapse_map_other, List.map_cons,
    LineUnit.collapse_append_other, hrest, ← List.map_cons, List.flatMap_append,
    List.flatMap_append, hspell, hspell, ← List.append_assoc]
  rfl

/-! ## Ends -/

/-- A text that begins and ends with characters that are not blank. -/
structure Dark (t : Text) : Prop where
  first : ∀ c, t.head? = some c → isBlank c = false
  last : ∀ c, t.getLast? = some c → isBlank c = false

theorem Dark.trim_eq (h : Dark t) : trim t = t := by
  have hstart : trimStart t = t := by
    cases t with
    | nil => rfl
    | cons c t => exact List.dropWhile_cons_of_neg (by simp [h.first c rfl])
  rcases List.eq_nil_or_concat' t with rfl | ⟨t, c, rfl⟩
  · rfl
  · have hc : isBlank c = false := h.last c (by simp)
    rw [trim, hstart, trimEnd, List.reverse_append]
    show (List.dropWhile isBlank (c :: t.reverse)).reverse = _
    rw [List.dropWhile_cons_of_neg (by simp [hc]), List.reverse_cons, List.reverse_reverse]

theorem isBreakChar_of_isBlank {c : Char} (h : isBlank c = false) : isBreakChar c = false := by
  by_contra hbreak
  rw [Bool.not_eq_false, isBreakChar, Bool.or_eq_true, decide_eq_true_eq, decide_eq_true_eq]
    at hbreak
  rcases hbreak with rfl | rfl
  · exact absurd h (by decide)
  · exact absurd h (by decide)

/-- Joining line breaks does not touch the ends. -/
theorem Dark.collapseBreaks (h : Dark t) : Dark (collapseBreaks t) := by
  constructor
  · intro c hc
    cases t with
    | nil => cases hc
    | cons d t =>
        have hd := h.first d rfl
        have hsplit := collapseBreaks_cons (p := []) (q := t) (isBreakChar_of_isBlank hd)
        rw [show Text.collapseBreaks (d :: t) = d :: Text.collapseBreaks t from hsplit] at hc
        cases hc
        exact hd
  · intro c hc
    rcases List.eq_nil_or_concat' t with rfl | ⟨t, d, rfl⟩
    · cases hc
    · have hd : isBlank d = false := h.last d (by simp)
      have hsplit : Text.collapseBreaks (t ++ [d]) = Text.collapseBreaks t ++ [d] :=
        collapseBreaks_cons (isBreakChar_of_isBlank hd)
      rw [hsplit, List.getLast?_concat] at hc
      cases hc
      exact hd

/-- The ends are those of the outer parts. -/
theorem dark_of_ends (hp : ∃ c x, p = c :: x ∧ isBlank c = false)
    (hs : ∃ x c, s = x ++ [c] ∧ isBlank c = false) : Dark (p ++ v ++ s) := by
  obtain ⟨c, x, rfl, hc⟩ := hp
  obtain ⟨y, d, rfl, hd⟩ := hs
  constructor
  · intro e he
    cases he
    exact hc
  · intro e he
    rw [← List.append_assoc, List.getLast?_concat] at he
    cases he
    exact hd

end TagTemplate.Text
