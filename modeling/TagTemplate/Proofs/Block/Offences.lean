import TagTemplate.Proofs.Block.Matching
import TagTemplate.Proofs.Block.Strict

/-!
# Marks that do not fit

Which marks are wrong can be told from the matching of the marks before them: a
closer or a divider with no opener free, a divider in a block that has one, and
at the end the openers that are still free. A strict search fails at the first
mark that does not fit, or if all of them do, at the first opener that is free.
-/

namespace TagTemplate.Block

variable {family : Family} {t : Text} {s s' : Progress} {ms before after : List Mark} {m : Mark}
  {o : Text × Span} {d : Defect} {e : Error}

/-- The opener of the innermost block that is open behind some marks. -/
def innermost? (ms : List Mark) : Option (Text × Span) := (matching ms).free.head?

/-- Among the marks is a divider of the block of an opener. -/
def Divided (ms : List Mark) (o : Text × Span) : Prop :=
  ∃ before m after, ms = before ++ m :: after ∧ m.role = .divides ∧ innermost? before = some o

/-- A mark that fits nowhere behind others, and what is wrong with it. -/
inductive Unfit (family : Family) (before : List Mark) (m : Mark) : Defect → Prop where
  | badOpener {fault : Fault} (hrole : m.role = .malformed fault) :
      Unfit family before m (.badOpener family fault)
  | strayCloser (hrole : m.role = .closes) (hnone : innermost? before = none) :
      Unfit family before m (.strayCloser family)
  | strayElse (hrole : m.role = .divides) (hnone : innermost? before = none) :
      Unfit family before m .strayElse
  | secondElse {o : Text × Span} (hrole : m.role = .divides) (ho : innermost? before = some o)
      (hdivided : Divided before o) : Unfit family before m .secondElse

/-! ## Free openers -/

theorem matching_concat (ms : List Mark) (m : Mark) :
    matching (ms ++ [m]) = (matching ms).step m := by
  rw [matching, List.foldl_append]
  rfl

theorem free_step_opens (s : Matching) (key : Text) (span : Span) :
    (s.step ⟨.opens key, span⟩).free = (key, span) :: s.free := rfl

theorem free_step_closes (s : Matching) (span : Span) :
    (s.step ⟨.closes, span⟩).free = s.free.tail := by
  obtain ⟨free, pairs⟩ := s
  cases free <;> rfl

/-- The free openers stand one before the other, the nearest first. -/
theorem pairwise_free (h : Ordered ms) :
    (matching ms).free.Pairwise fun f g => g.2.start < f.2.start := by
  induction ms using List.reverseRecOn with
  | nil => exact List.Pairwise.nil
  | append_singleton ms m ih =>
      have hfree := ih h.append_left
      have hlast := (List.pairwise_append.1 h.before).2.2
      rw [matching_concat]
      obtain ⟨role, span⟩ := m
      cases role with
      | opens key =>
          rw [free_step_opens]
          refine List.pairwise_cons.2 ⟨fun f hf => ?_, hfree⟩
          obtain ⟨m', hm', hspan⟩ := List.mem_map.1 ((matching_from ms).1 f hf)
          have hstop : m'.span.stop ≤ span.start := hlast m' hm' _ List.mem_cons_self
          have hstart := h.proper m' (List.mem_append_left _ hm')
          rw [hspan] at hstart hstop
          exact hstart.trans_le hstop
      | closes =>
          rw [free_step_closes]
          exact hfree.tail
      | divides => exact hfree
      | malformed fault => exact hfree

/-! ## A divider more -/

theorem divided_concat :
    Divided (ms ++ [m]) o ↔ Divided ms o ∨ m.role = .divides ∧ innermost? ms = some o := by
  constructor
  · rintro ⟨before, m', after, hms, hrole, ho⟩
    cases after using List.reverseRecOn with
    | nil =>
        obtain ⟨rfl, hm⟩ := List.append_inj' hms rfl
        cases hm
        exact .inr ⟨hrole, ho⟩
    | append_singleton after m'' =>
        rw [← List.cons_append, ← List.append_assoc] at hms
        obtain ⟨rfl, -⟩ := List.append_inj' hms rfl
        exact .inl ⟨before, m', after, rfl, hrole, ho⟩
  · rintro (⟨before, m', after, rfl, hrole, ho⟩ | ⟨hrole, ho⟩)
    · exact ⟨before, m', after ++ [m], by simp, hrole, ho⟩
    · exact ⟨ms, m, [], rfl, hrole, ho⟩

theorem Divided.mem (h : Divided ms o) : ∃ m ∈ ms, m.span = o.2 := by
  obtain ⟨before, m, after, rfl, -, ho⟩ := h
  obtain ⟨m', hm', hspan⟩ := List.mem_map.1 ((matching_from before).1 o (List.mem_of_head? ho))
  exact ⟨m', List.mem_append_left _ hm', hspan⟩

/-! ## What a scan knows -/

/-- The open blocks of a scan are the free openers, each with a divider if it has one. -/
structure Tracks (ms : List Mark) (s : Progress) : Prop where
  free : (matching ms).free = s.pending.map fun p => (p.key, p.opener)
  divided : ∀ p ∈ s.pending, p.divider.isSome = true ↔ Divided ms (p.key, p.opener)

theorem Tracks.innermost?_eq (h : Tracks ms s) :
    innermost? ms = s.pending.head?.map fun p => (p.key, p.opener) := by
  rw [innermost?, h.free, List.head?_map]

/-- A mark that does not divide leaves the dividers as they are. -/
theorem divided_concat_of_ne (hrole : m.role ≠ .divides) : Divided (ms ++ [m]) o ↔ Divided ms o :=
  divided_concat.trans (or_iff_left fun h => hrole h.1)

theorem Tracks.step (h : Tracks ms s) (ha : Accepts s m s') (hms : Ordered (ms ++ [m])) :
    Tracks (ms ++ [m]) s' := by
  obtain ⟨hfree, hdivided⟩ := h
  cases ha with
  | opens key span pending done =>
      refine ⟨by rw [matching_concat, free_step_opens, hfree]; rfl, fun p hp => ?_⟩
      rw [divided_concat_of_ne fun hrole => by cases hrole]
      rcases List.mem_cons.1 hp with rfl | hp
      · -- the new opener is that of no block before
        refine ⟨nofun, fun hnew => ?_⟩
        obtain ⟨m, hm, hspan⟩ := hnew.mem
        exact absurd hspan (hms.span_ne.1 m hm)
      · exact hdivided p hp
  | divides key opener span pending done =>
      refine ⟨by rw [matching_concat]; exact hfree, fun p hp => ?_⟩
      have hinner : innermost? ms = some (key, opener) := by rw [innermost?, hfree]; rfl
      rw [divided_concat]
      rcases List.mem_cons.1 hp with rfl | hp
      · exact iff_of_true rfl (.inr ⟨rfl, hinner⟩)
      · -- the blocks around the innermost one have other openers
        have hrest := hdivided p (List.mem_cons_of_mem _ hp)
        refine hrest.trans (or_iff_left ?_).symm
        rintro ⟨-, heq⟩
        rw [hinner] at heq
        have hpairwise := pairwise_free hms.append_left
        rw [hfree] at hpairwise
        have hlt := (List.pairwise_cons.1 hpairwise).1 _ (List.mem_map_of_mem hp)
        cases Option.some.inj heq
        exact Nat.lt_irrefl _ hlt
  | closesOuter top span done =>
      refine ⟨?_, nofun⟩
      rw [matching_concat, free_step_closes, hfree]
      rfl
  | closesInner top next span pending done =>
      refine ⟨by rw [matching_concat, free_step_closes, hfree]; rfl, fun p hp => ?_⟩
      rw [divided_concat_of_ne fun hrole => by cases hrole]
      exact hdivided p (List.mem_cons_of_mem _ hp)

/-- **A scan whose marks all fit** keeps the free openers and knows which have a divider. -/
theorem Runs.tracks (h : Runs .start ms s) (hms : Ordered ms) : Tracks ms s := by
  induction ms using List.reverseRecOn generalizing s with
  | nil =>
      cases h
      exact ⟨rfl, nofun⟩
  | append_singleton ms m ih =>
      obtain ⟨s', hs', hlast⟩ := h.exists_split
      cases hlast with
      | cons accepts runs =>
          cases runs
          exact (ih hs' hms.append_left).step accepts hms

/-- **A strict scan stops** at a mark just if the mark does not fit. -/
theorem Tracks.step_strict_iff (h : Tracks ms s) :
    s.step family .strict t m = .error e ↔
      ∃ d, Unfit family ms m d ∧ e = .malformed (Text.positionAt t m.span.start) d := by
  have hinner := h.innermost?_eq
  have hdivided := h.divided
  obtain ⟨pending, done⟩ := s
  obtain ⟨role, span⟩ := m
  constructor
  · intro hstep
    cases role with
    | opens key => cases hstep
    | divides =>
        rcases pending with _ | ⟨⟨key, opener, _ | d⟩, rest⟩
        · cases hstep
          exact ⟨_, .strayElse rfl hinner, rfl⟩
        · cases hstep
        · cases hstep
          exact ⟨_, .secondElse rfl hinner ((hdivided _ List.mem_cons_self).1 rfl), rfl⟩
    | closes =>
        rcases pending with _ | ⟨top, _ | ⟨next, rest⟩⟩
        · cases hstep
          exact ⟨_, .strayCloser rfl hinner, rfl⟩
        · cases hstep
        · cases hstep
    | malformed fault =>
        cases hstep
        exact ⟨_, .badOpener rfl, rfl⟩
  · rintro ⟨d, hunfit, rfl⟩
    cases hunfit with
    | badOpener hrole =>
        cases hrole
        rfl
    | strayCloser hrole hnone =>
        cases hrole
        obtain rfl : pending = [] := by simpa [hnone] using hinner.symm
        rfl
    | strayElse hrole hnone =>
        cases hrole
        obtain rfl : pending = [] := by simpa [hnone] using hinner.symm
        rfl
    | secondElse hrole ho hd =>
        cases hrole
        obtain ⟨p, rest, rfl⟩ : ∃ p rest, pending = p :: rest := by
          cases pending with
          | nil => cases ho.symm.trans hinner
          | cons p rest => exact ⟨p, rest, rfl⟩
        cases Option.some.inj (ho.symm.trans hinner)
        obtain ⟨key, opener, _ | d⟩ := p
        · cases (hdivided _ List.mem_cons_self).2 hd
        · rfl

/-! ## The first offence -/

/-- No mark of a scan that goes through does not fit. -/
theorem Runs.not_unfit (h : Runs .start (before ++ m :: after) s)
    (hms : Ordered (before ++ m :: after)) (family : Family) (d : Defect) :
    ¬ Unfit family before m d := by
  intro hunfit
  obtain ⟨s', hs', hlast⟩ := h.exists_split
  cases hlast with
  | cons accepts _ =>
      have herror := (hs'.tracks hms.append_left).step_strict_iff (t := []).2 ⟨d, hunfit, rfl⟩
      rw [accepts.step] at herror
      cases herror

/-- A mark that starts before another stands before it. -/
theorem Ordered.exists_before {before' after' : List Mark} {m' : Mark}
    (h : Ordered (before ++ m :: after)) (heq : before ++ m :: after = before' ++ m' :: after')
    (hlt : m'.span.start < m.span.start) : ∃ rest, before = before' ++ m' :: rest := by
  rcases List.append_eq_append_iff.1 heq with ⟨u, rfl, hu⟩ | ⟨u, rfl, hu⟩
  · cases u with
    | nil =>
        cases hu
        exact absurd hlt (Nat.lt_irrefl _)
    | cons x u =>
        obtain ⟨rfl, rfl⟩ := List.cons.inj hu
        -- the other is behind, and starts no earlier than this one ends
        have hproper := h.proper m (by simp)
        have hafter := (List.pairwise_cons.1 (List.pairwise_append.1 h.before).2.1).1
        have hstop : m.span.stop ≤ m'.span.start := hafter m' (by simp)
        omega
  · cases u with
    | nil =>
        cases hu
        exact absurd hlt (Nat.lt_irrefl _)
    | cons x u =>
        obtain ⟨rfl, rfl⟩ := List.cons.inj hu
        exact ⟨u, rfl⟩

/-- **A strict search** finds the blocks if every mark fits and no opener is left free. Otherwise it
fails at the first mark that does not fit, or if there is none, at the first opener left free. -/
theorem find_strict_first (family : Family) (t : Text) :
    let ms := marks family (Tag.lex t)
    let fits := ∀ before m after d, ms = before ++ m :: after → ¬ Unfit family before m d
    (fits ∧ (matching ms).free = [] ∧ ∃ bs, find family .strict t = .ok bs) ∨
    (fits ∧ ∃ o ∈ (matching ms).free, (∀ o' ∈ (matching ms).free, o.2.start ≤ o'.2.start) ∧
      find family .strict t =
        .error (.malformed (Text.positionAt t o.2.start) (.unterminated family))) ∨
    ∃ before m after d, ms = before ++ m :: after ∧ Unfit family before m d ∧
      (∀ before' m' after' d', ms = before' ++ m' :: after' → Unfit family before' m' d' →
        m.span.start ≤ m'.span.start) ∧
      find family .strict t = .error (.malformed (Text.positionAt t m.span.start) d) := by
  intro ms fits
  have hms : Ordered ms := ordered_marks family t
  rcases find_strict_scan family t with ⟨e, hrun, hfind⟩ | ⟨s, hruns, hend⟩
  · refine .inr (.inr ?_)
    obtain ⟨before, m, after, s, heq, hruns, hstep⟩ := exists_misfit_of_run hrun
    rw [show ms = _ from heq] at hms
    obtain ⟨d, hunfit, rfl⟩ := (hruns.tracks hms.append_left).step_strict_iff.1 hstep
    refine ⟨before, m, after, d, heq, hunfit, ?_, hfind⟩
    intro before' m' after' d' heq' hunfit'
    by_contra hlt
    obtain ⟨rest, rfl⟩ := hms.exists_before (heq.symm.trans heq') (Nat.not_le.1 hlt)
    exact hruns.not_unfit hms.append_left family d' hunfit'
  · have hfits : fits := by
      intro before m after d heq
      rw [show marks family (Tag.lex t) = _ from heq] at hruns
      exact hruns.not_unfit (heq ▸ hms) family d
    have hfree : (matching ms).free = s.pending.map fun p => (p.key, p.opener) :=
      (hruns.tracks hms).free
    rcases hend with ⟨p, hlast, hfind⟩ | ⟨hnone, hfind⟩
    · refine .inr (.inl ⟨hfits, (p.key, p.opener), ?_, ?_, hfind⟩)
      · rw [hfree]
        exact List.mem_map_of_mem (List.mem_of_getLast? hlast)
      · -- the last of the free openers stands before all others
        have hpairwise := pairwise_free hms
        obtain ⟨front, hfront⟩ := List.getLast?_eq_some_iff.1 hlast
        rw [hfree, hfront, List.map_append] at hpairwise ⊢
        intro o' ho'
        rcases List.mem_append.1 ho' with ho' | ho'
        · exact Nat.le_of_lt
            ((List.pairwise_append.1 hpairwise).2.2 o' ho' _ List.mem_cons_self)
        · rw [List.mem_singleton.1 ho']
    · exact .inl ⟨hfits, by rw [hfree, hnone]; rfl, s.done, hfind⟩

end TagTemplate.Block
