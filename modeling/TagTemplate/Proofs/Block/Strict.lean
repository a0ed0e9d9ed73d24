import TagTemplate.Proofs.Block.Pairing

/-!
# Where a strict search fails

A strict search takes the marks of a text one by one and stops at the first that
fits nowhere. That is the mark at which the word that is read stops being the
beginning of a balanced one: as long as a scan goes on, closers for what is open
complete the word. If it reaches the end with blocks left open, the outermost of
these is to blame. `Blamed` says this of the word, without a scan, and
`find_strict_cases` of the search.
-/

namespace TagTemplate.Block

variable {family : Family} {t : Text} {s s' s'' : Progress} {m : Mark} {ms ms' : List Mark}
  {ps : List Pending} {p : Pending} {bs : List Block} {e : Error}

/-! ## Scans -/

theorem Runs.unique (h : Runs s ms s') (h' : Runs s ms s'') : s' = s'' :=
  Except.ok.inj ((h.run .loop .strict []).symm.trans (h'.run .loop .strict []))

theorem Runs.exists_split (h : Runs s (ms ++ ms') s'') :
    ∃ s', Runs s ms s' ∧ Runs s' ms' s'' := by
  induction ms generalizing s with
  | nil => exact ⟨s, .nil s, h⟩
  | cons m ms ih =>
      cases h with
      | cons accepts runs =>
          obtain ⟨s', hs', hrest⟩ := ih runs
          exact ⟨s', .cons accepts hs', hrest⟩

/-- A block that is left open was open before or has its opener among the marks. -/
theorem Runs.opener_mem (h : Runs s ms s') (hp : p ∈ s'.pending) :
    (∃ q ∈ s.pending, q.opener = p.opener) ∨ ∃ m ∈ ms, m.span = p.opener := by
  induction h generalizing p with
  | nil s => exact .inl ⟨p, hp, rfl⟩
  | @cons s s' s'' m ms accepts runs ih =>
      have hstep : ∀ q ∈ s'.pending, (∃ q' ∈ s.pending, q'.opener = q.opener) ∨
          m.span = q.opener := by
        intro q hq
        cases accepts with
        | opens key span pending done =>
            rcases List.mem_cons.1 hq with rfl | hq
            · exact .inr rfl
            · exact .inl ⟨q, hq, rfl⟩
        | divides key opener span pending done =>
            rcases List.mem_cons.1 hq with rfl | hq
            · exact .inl ⟨_, List.mem_cons_self, rfl⟩
            · exact .inl ⟨q, List.mem_cons_of_mem _ hq, rfl⟩
        | closesOuter top span done => exact absurd hq List.not_mem_nil
        | closesInner top next span pending done => exact .inl ⟨q, List.mem_cons_of_mem _ hq, rfl⟩
      rcases ih hp with ⟨q, hq, heq⟩ | ⟨m', hm', heq⟩
      · rcases hstep q hq with ⟨q', hq', heq'⟩ | heq'
        · exact .inl ⟨q', hq', heq'.trans heq⟩
        · exact .inr ⟨m, List.mem_cons_self, heq'.trans heq⟩
      · exact .inr ⟨m', List.mem_cons_of_mem _ hm', heq⟩

/-! ## Words that can be continued -/

/-- The word begins a balanced one over the roles of the family. -/
def Viable (family : Family) (w : List Role) : Prop :=
  ∃ rest, (.divides ∈ rest → family = .conditional) ∧ Balanced (w ++ rest)

/-- A closing tag for each open block ends a scan. -/
theorem Runs.exists_closers (s : Progress) :
    ∃ bs, Runs s (List.replicate s.pending.length ⟨.closes, ⟨0, 0⟩⟩) ⟨[], bs⟩ := by
  obtain ⟨pending, done⟩ := s
  induction pending with
  | nil => exact ⟨done, .nil _⟩
  | cons top rest ih =>
      cases rest with
      | nil => exact ⟨_, .single (.closesOuter top ⟨0, 0⟩ done)⟩
      | cons next rest =>
          obtain ⟨bs, hbs⟩ := ih
          exact ⟨bs, .cons (.closesInner top next ⟨0, 0⟩ rest done) hbs⟩

/-- **A word can be continued** as long as a scan takes it. -/
theorem viable_iff_runs : Viable family (roles ms) ↔ ∃ s, Runs .start ms s := by
  constructor
  · intro hviable
    obtain ⟨rest, -, hbalanced⟩ := hviable
    have hrest : roles (rest.map fun r => ⟨r, ⟨0, 0⟩⟩) = rest := by
      rw [roles, List.map_map]
      exact List.map_id rest
    rw [← hrest, ← roles_append] at hbalanced
    obtain ⟨bs, hbs⟩ := hbalanced.runs
    obtain ⟨s, hs, -⟩ := hbs.exists_split
    exact ⟨s, hs⟩
  · intro hruns
    obtain ⟨s, hs⟩ := hruns
    obtain ⟨bs, hclosers⟩ := Runs.exists_closers s
    have hbalanced := (hs.append hclosers).balanced
    rw [roles_append] at hbalanced
    refine ⟨_, fun hmem => ?_, hbalanced⟩
    rw [roles, List.map_replicate] at hmem
    cases List.eq_of_mem_replicate hmem

/-! ## Marks that do not fit -/

/-- What is wrong with a role behind a word. -/
inductive Misfit (family : Family) : List Role → Role → Defect → Prop where
  | strayCloser {w : List Role} (h : Balanced w) : Misfit family w .closes (.strayCloser family)
  | strayElse {w : List Role} (h : Balanced w) : Misfit family w .divides .strayElse
  | secondElse {w body alternative : List Role} {key : Text} (hb : Balanced body)
      (ha : Balanced alternative) :
      Misfit family (w ++ .opens key :: (body ++ .divides :: alternative)) .divides .secondElse
  | badOpener {w : List Role} (fault : Fault) :
      Misfit family w (.malformed fault) (.badOpener family fault)

theorem Trail.balanced (h : Trail ms []) : Balanced (roles ms) := by
  cases h with
  | base h => exact h

/-- A strict scan stops at a mark that does not fit behind those it has read. -/
theorem Read.misfit (h : Read ms s) (hstep : s.step family .strict t m = .error e) :
    ∃ d, e = .malformed (Text.positionAt t m.span.start) d ∧ Misfit family (roles ms) m.role d := by
  have htrail := h.trail
  obtain ⟨pending, done⟩ := s
  obtain ⟨role, span⟩ := m
  cases role with
  | opens key => cases hstep
  | divides =>
      rcases pending with _ | ⟨⟨key, opener, _ | d⟩, rest⟩
      · cases hstep
        exact ⟨_, rfl, .strayElse htrail.balanced⟩
      · cases hstep
      · cases hstep
        refine ⟨_, rfl, ?_⟩
        cases htrail with
        | alternative _ hb ha =>
            rw [roles_append, roles_cons, roles_append, roles_cons]
            exact .secondElse hb ha
  | closes =>
      rcases pending with _ | ⟨top, _ | ⟨next, rest⟩⟩
      · cases hstep
        exact ⟨_, rfl, .strayCloser htrail.balanced⟩
      · cases hstep
      · cases hstep
  | malformed fault =>
      cases hstep
      exact ⟨_, rfl, .badOpener fault⟩

/-- A strict scan that fails has taken the marks before the one at which it stops. -/
theorem exists_misfit_of_run (h : s.run family .strict t ms = .error e) :
    ∃ before m after s', ms = before ++ m :: after ∧ Runs s before s' ∧
      s'.step family .strict t m = .error e := by
  induction ms generalizing s with
  | nil => cases h
  | cons m ms ih =>
      rw [Progress.run] at h
      cases hstep : s.step family .strict t m with
      | error e' =>
          rw [hstep] at h
          cases h
          exact ⟨[], m, ms, s, rfl, .nil s, hstep⟩
      | ok s₁ =>
          rw [hstep] at h
          obtain ⟨before, m', after, s', rfl, hruns, hfails⟩ := ih h
          exact ⟨m :: before, m', after, s', rfl, .cons (.of_step hstep) hruns, hfails⟩

/-! ## The mark to blame -/

/-- The mark that keeps a word from being balanced, and what is wrong with it: the first behind
which the word cannot be continued, or else the opener, behind whole blocks, of a block that is
not closed. -/
inductive Blamed (family : Family) (ms : List Mark) : Mark → Defect → Prop where
  | misfit {before after : List Mark} {m : Mark} {d : Defect} (hms : ms = before ++ m :: after)
      (hviable : Viable family (roles before)) (hstuck : ¬ Viable family (roles (before ++ [m])))
      (hd : Misfit family (roles before) m.role d) : Blamed family ms m d
  | unclosed {before after : List Mark} {m : Mark} (hms : ms = before ++ m :: after)
      (hviable : Viable family (roles ms)) (hopener : m.isOpener = true)
      (hbefore : Balanced (roles before))
      (hopen : ∀ inner closer rest, after = inner ++ closer :: rest →
        ¬ Balanced (roles (m :: (inner ++ [closer])))) :
      Blamed family ms m (.unterminated family)

theorem Blamed.mem {d : Defect} (h : Blamed family ms m d) : m ∈ ms := by
  cases h with
  | misfit hms _ _ _ => simp [hms]
  | unclosed hms _ _ _ _ => simp [hms]

/-- The outermost of the open blocks stands behind whole blocks. -/
theorem Trail.exists_outermost (h : Trail ms ps) (hp : ps.getLast? = some p) :
    ∃ before after, ms = before ++ ⟨.opens p.key, p.opener⟩ :: after ∧
      Balanced (roles before) := by
  induction h with
  | base _ => cases hp
  | @body ms body ps key opener h _ ih =>
      cases ps with
      | nil =>
          cases hp
          exact ⟨ms, body, rfl, h.balanced⟩
      | cons q ps =>
          obtain ⟨before, after, rfl, hbefore⟩ := ih hp
          exact ⟨before, _, by rw [List.append_assoc]; rfl, hbefore⟩
  | @alternative ms body alternative ps key opener divider h _ _ ih =>
      cases ps with
      | nil =>
          cases hp
          exact ⟨ms, _, rfl, h.balanced⟩
      | cons q ps =>
          obtain ⟨before, after, rfl, hbefore⟩ := ih hp
          exact ⟨before, _, by rw [List.append_assoc]; rfl, hbefore⟩

/-- A scan that leaves blocks open has the opener of the outermost one to blame. -/
theorem Runs.exists_blamed (h : Runs .start ms s) (family : Family)
    (hp : s.pending.getLast? = some p) (hms : Ordered ms) :
    ∃ m, m.span = p.opener ∧ Blamed family ms m (.unterminated family) := by
  obtain ⟨before, after, rfl, hbefore⟩ := h.read.trail.exists_outermost hp
  refine ⟨_, rfl, .unclosed rfl (viable_iff_runs.2 ⟨s, h⟩) rfl hbefore ?_⟩
  rintro inner closer rest rfl hclosed
  -- behind its closer nothing is open, so the opener stands among the later marks once more
  have hwhole := hbefore.append hclosed
  rw [← roles_append] at hwhole
  obtain ⟨bs, hbs⟩ := hwhole.runs
  have hsplit : before ++ ⟨.opens p.key, p.opener⟩ :: (inner ++ closer :: rest) =
      (before ++ ⟨.opens p.key, p.opener⟩ :: (inner ++ [closer])) ++ rest := by simp
  rw [hsplit] at h
  obtain ⟨s', hs', hrest⟩ := h.exists_split
  cases hs'.unique hbs
  have hrestOpener := hrest.opener_mem (List.mem_of_getLast? hp)
  rcases hrestOpener with ⟨q, hq, -⟩ | ⟨m, hm, hspan⟩
  · cases hq
  · exact hms.span_ne.2 m (by simp [hm]) hspan

/-- **A strict search** finds the blocks of a balanced word, or fails at the mark to blame. -/
theorem find_strict_cases (family : Family) (t : Text) :
    (∃ bs, find family .strict t = .ok bs ∧ Runs .start (marks family (Tag.lex t)) ⟨[], bs⟩) ∨
      ∃ m d, find family .strict t = .error (.malformed (Text.positionAt t m.span.start) d) ∧
        Blamed family (marks family (Tag.lex t)) m d := by
  rcases find_strict_scan family t with
    ⟨e, hrun, hfind⟩ | ⟨s, hruns, ⟨p, hlast, hfind⟩ | ⟨hnone, hfind⟩⟩
  · obtain ⟨before, m, after, s', hms, hruns, hstep⟩ := exists_misfit_of_run hrun
    obtain ⟨d, rfl, hd⟩ := hruns.read.misfit hstep
    refine .inr ⟨m, d, hfind, .misfit hms (viable_iff_runs.2 ⟨s', hruns⟩) ?_ hd⟩
    intro hviable
    obtain ⟨s'', hs''⟩ := viable_iff_runs.1 hviable
    obtain ⟨s₁, hs₁, hlast⟩ := hs''.exists_split
    cases hs₁.unique hruns
    cases hlast with
    | cons accepts _ =>
        rw [accepts.step] at hstep
        cases hstep
  · obtain ⟨m, hspan, hblamed⟩ := hruns.exists_blamed family hlast (ordered_marks family t)
    exact .inr ⟨m, _, by rw [hspan, hfind], hblamed⟩
  · refine .inl ⟨s.done, hfind, ?_⟩
    rwa [← hnone]

/-- **The grammar of blocks** is what a strict search accepts: it succeeds exactly for balanced
marks and finds the outermost blocks that they are read as, and it fails at the first mark behind
which the marks cannot be continued, or if there is none, at the outermost opener without a
closer. -/
theorem find_strict_grammar (family : Family) (t : Text) :
    let ms := marks family (Tag.lex t)
    (∀ bs, find family .strict t = .ok bs ↔ Derives ms bs) ∧
      ((∃ bs, Derives ms bs) ↔ Balanced (roles ms)) ∧
      (¬ Balanced (roles ms) → ∃ m d,
        find family .strict t = .error (.malformed (Text.positionAt t m.span.start) d) ∧
          Blamed family ms m d) := by
  intro ms
  have hderives : (∃ bs, Derives ms bs) ↔ Balanced (roles ms) := by
    constructor
    · intro hex
      obtain ⟨bs, hbs⟩ := hex
      exact hbs.balanced
    · exact Balanced.exists_derives
  refine ⟨fun bs => ⟨fun hfind => ?_, fun hbs => find_of_runs hbs.runs .strict⟩, hderives, ?_⟩
  · have hruns := runs_of_find hfind
    obtain ⟨bs', hbs'⟩ := hruns.balanced.exists_derives
    cases hbs'.runs.unique hruns
    exact hbs'
  · intro hnot
    rcases find_strict_cases family t with ⟨bs, -, hruns⟩ | ⟨m, d, hfind, hblamed⟩
    · exact absurd hruns.balanced hnot
    · exact ⟨m, d, hfind, hblamed⟩

/-- A conditional with two else tags, and another conditional between them. -/
def doubled : Text :=
  "\x7b\x7b#if:a\x7d\x7d\x7b\x7b#else\x7d\x7d".toList ++
    "\x7b\x7b#if:b\x7d\x7d\x7b\x7b#endif\x7d\x7d\x7b\x7b#else\x7d\x7d".toList

/-- The search stops at the second else tag, which is to blame. -/
theorem find_strict_grammar_of_doubled :
    find .conditional .strict doubled = .error (.malformed ⟨1, 38⟩ .secondElse) ∧
      ¬ Balanced (roles (marks .conditional (Tag.lex doubled))) ∧
      ∃ m d, find .conditional .strict doubled =
          .error (.malformed (Text.positionAt doubled m.span.start) d) ∧
        Blamed .conditional (marks .conditional (Tag.lex doubled)) m d := by
  have hfind : find .conditional .strict doubled = .error (.malformed ⟨1, 38⟩ .secondElse) := by
    decide +kernel
  have hnot : ¬ Balanced (roles (marks .conditional (Tag.lex doubled))) := by
    intro hbalanced
    obtain ⟨bs, hbs⟩ := find_strict_iff.2 hbalanced
    rw [hfind] at hbs
    cases hbs
  exact ⟨hfind, hnot, (find_strict_grammar .conditional doubled).2.2 hnot⟩

end TagTemplate.Block
