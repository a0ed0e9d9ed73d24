import TagTemplate.Proofs.Block.Pair
import Mathlib.Data.List.Induction

/-!
# Lenient searches

A lenient search sets aside one opener after the other, always the outermost one
that a scan has left open, and scans the marks again. What it finds in the end
is what one matching of the tags makes of them: `find_passThrough_eq_matching`.

`Inside` and `Outside` are the stretches of marks in a block and on the outside
whose openers are all closed, `Layers` is a word cut at the openers that are not.
Every word can be cut like this, and both the scan and the matching follow the
cuts; to set the outermost opener aside is to join two stretches.
-/

namespace TagTemplate.Block

variable {family : Family} {t : Text} {ms seg body : List Mark} {d : Option Span}
  {ps qs : List Pair} {bs : List Block} {pend : List Pending} {a b : Nat}

/-! ## The tags of a family -/

/-- The part that a tag plays for the blocks of a family. -/
inductive Plays : Family → Tag.Kind → Role → Prop where
  | ifOpen (key : Text) : Plays .conditional (.ifOpen key) (.opens key)
  | ifElse : Plays .conditional .ifElse .divides
  | ifClose : Plays .conditional .ifClose .closes
  | condition (fault : Fault) : Plays .conditional (.malformed .condition fault) (.malformed fault)
  | loopOpen (key : Text) : Plays .loop (.loopOpen key) (.opens key)
  | loopClose : Plays .loop .loopClose .closes
  | loop (fault : Fault) : Plays .loop (.malformed .loop fault) (.malformed fault)

/-- The marks among some tags, in order: those tags that play a part, with the part they play. -/
inductive Picks (family : Family) : List Tag → List Mark → Prop where
  | nil : Picks family [] []
  | mark {tag : Tag} {tags : List Tag} {role : Role} {ms : List Mark}
      (plays : Plays family tag.kind role) (h : Picks family tags ms) :
      Picks family (tag :: tags) (⟨role, tag.span⟩ :: ms)
  | other {tag : Tag} {tags : List Tag} {ms : List Mark}
      (idle : ∀ role, ¬ Plays family tag.kind role) (h : Picks family tags ms) :
      Picks family (tag :: tags) ms

theorem role?_eq_some_iff {k : Tag.Kind} {role : Role} :
    role? family k = some role ↔ Plays family k role := by
  constructor
  · intro h
    unfold role? at h
    split at h <;> cases h <;> constructor
  · intro h
    cases h <;> rfl

theorem picks_iff {tags : List Tag} : Picks family tags ms ↔ ms = marks family tags := by
  constructor
  · intro h
    induction h with
    | nil => rfl
    | mark hplays _ ih =>
        rw [marks, List.filterMap_cons, role?_eq_some_iff.2 hplays, ih]
        rfl
    | @other tag tags ms hidle _ ih =>
        have hnone : role? family tag.kind = none :=
          Option.eq_none_iff_forall_ne_some.2 fun role h => hidle role (role?_eq_some_iff.1 h)
        rw [marks, List.filterMap_cons, hnone]
        exact ih
  · rintro rfl
    induction tags with
    | nil => exact .nil
    | cons tag tags ih =>
        cases hrole : role? family tag.kind with
        | none =>
            have hidle : ∀ role, ¬ Plays family tag.kind role := by
              intro role hplays
              rw [role?_eq_some_iff.2 hplays] at hrole
              cases hrole
            rw [marks, List.filterMap_cons, hrole]
            exact .other hidle ih
        | some role =>
            rw [marks, List.filterMap_cons, hrole]
            exact .mark (role?_eq_some_iff.1 hrole) ih

/-! ## Stretches without free openers -/

/-- Marks in a block all of whose openers are closed, with the first divider that stands in no
block among them, and their pairs. -/
inductive Inside : List Mark → Option Span → List Pair → Prop where
  | nil : Inside [] none []
  | divides {ms : List Mark} {d : Option Span} {ps : List Pair} (span : Span)
      (h : Inside ms d ps) : Inside (ms ++ [⟨.divides, span⟩]) (d.or (some span)) ps
  | malformed {ms : List Mark} {d : Option Span} {ps : List Pair} (fault : Fault) (span : Span)
      (h : Inside ms d ps) : Inside (ms ++ [⟨.malformed fault, span⟩]) d ps
  | block {ms body : List Mark} {d d' : Option Span} {ps qs : List Pair} (key : Text)
      (opener closer : Span) (h : Inside ms d ps) (hb : Inside body d' qs) :
      Inside (ms ++ ⟨.opens key, opener⟩ :: (body ++ [⟨.closes, closer⟩])) d
        (ps ++ qs ++ [⟨key, opener, closer⟩])

/-- Marks on the outside all of whose openers are closed, with their blocks and pairs. -/
inductive Outside : List Mark → List Block → List Pair → Prop where
  | nil : Outside [] [] []
  | stray {ms : List Mark} {bs : List Block} {ps : List Pair} {m : Mark}
      (hm : m.isOpener = false) (h : Outside ms bs ps) : Outside (ms ++ [m]) bs ps
  | block {ms body : List Mark} {bs : List Block} {d : Option Span} {ps qs : List Pair}
      (key : Text) (opener closer : Span) (h : Outside ms bs ps) (hb : Inside body d qs) :
      Outside (ms ++ ⟨.opens key, opener⟩ :: (body ++ [⟨.closes, closer⟩]))
        (bs ++ [(Pair.mk key opener closer).block d]) (ps ++ qs ++ [⟨key, opener, closer⟩])

/-- Marks cut at the openers that have no closer, with the blocks that are open behind them, the
blocks in front of the first cut, and the pairs. -/
inductive Layers : List Mark → List Pending → List Block → List Pair → Prop where
  | base {ms : List Mark} {bs : List Block} {ps : List Pair} (h : Outside ms bs ps) :
      Layers ms [] bs ps
  | layer {ms seg : List Mark} {pend : List Pending} {bs : List Block} {d : Option Span}
      {ps qs : List Pair} (key : Text) (opener : Span) (h : Layers ms pend bs ps)
      (hs : Inside seg d qs) :
      Layers (ms ++ ⟨.opens key, opener⟩ :: seg) (⟨key, opener, d⟩ :: pend) bs (ps ++ qs)

theorem Layers.exists_snoc (h : Layers ms pend bs ps) (m : Mark) :
    ∃ pend' bs' ps', Layers (ms ++ [m]) pend' bs' ps' := by
  obtain ⟨role, span⟩ := m
  cases role with
  | opens key => exact ⟨_, _, _, .layer key span h .nil⟩
  | divides =>
      cases h with
      | base h => exact ⟨_, _, _, .base (.stray rfl h)⟩
      | layer key opener h hs =>
          rw [List.append_assoc, List.cons_append]
          exact ⟨_, _, _, .layer key opener h (hs.divides span)⟩
  | malformed fault =>
      cases h with
      | base h => exact ⟨_, _, _, .base (.stray rfl h)⟩
      | layer key opener h hs =>
          rw [List.append_assoc, List.cons_append]
          exact ⟨_, _, _, .layer key opener h (hs.malformed fault span)⟩
  | closes =>
      cases h with
      | base h => exact ⟨_, _, _, .base (.stray rfl h)⟩
      | layer key opener h hs =>
          -- the innermost cut is closed and becomes a block of the stretch before it
          rw [List.append_assoc, List.cons_append]
          cases h with
          | base h => exact ⟨_, _, _, .base (.block key opener span h hs)⟩
          | layer key' opener' h hs' =>
              rw [List.append_assoc, List.cons_append]
              exact ⟨_, _, _, .layer key' opener' h (hs'.block key opener span hs)⟩

/-- Every word is cut. -/
theorem exists_layers (ms : List Mark) : ∃ pend bs ps, Layers ms pend bs ps := by
  induction ms using List.reverseRecOn with
  | nil => exact ⟨[], [], [], .base .nil⟩
  | append_singleton ms m ih =>
      obtain ⟨pend, bs, ps, h⟩ := ih
      exact h.exists_snoc m

/-! ## The scan and the matching follow the cuts -/

theorem Progress.run_append {s s' : Progress} {policy : Policy}
    (h : s.run family policy t ms = .ok s') (ms' : List Mark) :
    s.run family policy t (ms ++ ms') = s'.run family policy t ms' := by
  induction ms generalizing s with
  | nil =>
      cases h
      rfl
  | cons m ms ih =>
      rw [Progress.run] at h
      rw [List.cons_append, Progress.run]
      cases hstep : s.step family policy t m with
      | error e =>
          rw [hstep] at h
          cases h
      | ok s₁ =>
          rw [hstep] at h
          exact ih h

theorem Inside.run (h : Inside ms d ps) (family : Family) (t : Text) (key : Text) (opener : Span)
    (d₀ : Option Span) (pend : List Pending) (done : List Block) :
    Progress.run family .passThrough t ⟨⟨key, opener, d₀⟩ :: pend, done⟩ ms =
      .ok ⟨⟨key, opener, d₀.or d⟩ :: pend, done⟩ := by
  induction h generalizing key opener d₀ pend with
  | nil => rw [Option.or_none]; rfl
  | @divides ms d ps span h ih =>
      rw [Progress.run_append (ih key opener d₀ pend), ← Option.or_assoc]
      cases d₀.or d <;> rfl
  | malformed fault span h ih => rw [Progress.run_append (ih key opener d₀ pend)]; rfl
  | block key' opener' closer h hb ih ihb =>
      rw [Progress.run_append (ih key opener d₀ pend)]
      show Progress.run family .passThrough t ⟨⟨key', opener', none⟩ :: _, done⟩ _ = _
      rw [Progress.run_append (ihb key' opener' none _)]
      rfl

theorem Outside.run (h : Outside ms bs ps) (family : Family) (t : Text) :
    Progress.start.run family .passThrough t ms = .ok ⟨[], bs⟩ := by
  induction h with
  | nil => rfl
  | @stray ms bs ps m hm h ih =>
      rw [Progress.run_append ih]
      obtain ⟨role, span⟩ := m
      cases role with
      | opens key => cases hm
      | _ => rfl
  | block key opener closer h hb ih =>
      rw [Progress.run_append ih]
      show Progress.run family .passThrough t ⟨[⟨key, opener, none⟩], _⟩ _ = _
      rw [Progress.run_append (hb.run family t key opener none [] _), Option.none_or,
        ← Pending.close_eq]
      rfl

theorem Layers.run (h : Layers ms pend bs ps) (family : Family) (t : Text) :
    Progress.start.run family .passThrough t ms = .ok ⟨pend, bs⟩ := by
  induction h with
  | base h => exact h.run family t
  | @layer ms seg pend bs d ps qs key opener h hs ih =>
      rw [Progress.run_append ih]
      show Progress.run family .passThrough t ⟨⟨key, opener, none⟩ :: pend, bs⟩ seg = _
      rw [hs.run family t key opener none pend bs, Option.none_or]

theorem Inside.foldl_step (h : Inside ms d ps) (free : List (Text × Span)) (qs : List Pair) :
    ms.foldl Matching.step ⟨free, qs⟩ = ⟨free, qs ++ ps⟩ := by
  induction h generalizing free qs with
  | nil => rw [List.append_nil]; rfl
  | divides span h ih => rw [List.foldl_append, ih]; rfl
  | malformed fault span h ih => rw [List.foldl_append, ih]; rfl
  | @block ms body d d' ps qs' key opener closer h hb ih ihb =>
      rw [List.foldl_append, ih, List.foldl_cons, List.foldl_append]
      show [_].foldl Matching.step (body.foldl Matching.step ⟨(key, opener) :: free, _⟩) = _
      rw [ihb, ← List.append_assoc qs, ← List.append_assoc qs]
      rfl

theorem Outside.matching_eq (h : Outside ms bs ps) : matching ms = ⟨[], ps⟩ := by
  induction h with
  | nil => rfl
  | @stray ms bs ps m hm h ih =>
      rw [matching, List.foldl_append]
      show [m].foldl Matching.step (matching ms) = _
      rw [ih]
      obtain ⟨role, span⟩ := m
      cases role with
      | opens key => cases hm
      | _ => rfl
  | @block ms body bs d ps qs key opener closer h hb ih =>
      rw [matching, List.foldl_append]
      show (_ :: _).foldl Matching.step (matching ms) = _
      rw [ih, List.foldl_cons, List.foldl_append]
      show [_].foldl Matching.step (body.foldl Matching.step ⟨[(key, opener)], ps⟩) = _
      rw [hb.foldl_step]
      rfl

theorem Layers.matching_eq (h : Layers ms pend bs ps) :
    matching ms = ⟨pend.map fun p => (p.key, p.opener), ps⟩ := by
  induction h with
  | base h => exact h.matching_eq
  | @layer ms seg pend bs d ps qs key opener h hs ih =>
      rw [matching, List.foldl_append]
      show (_ :: seg).foldl Matching.step (matching ms) = _
      rw [ih, List.foldl_cons]
      exact hs.foldl_step _ _

/-! ## The blocks of a stretch -/

/-- The pairs lie where the marks do. -/
def Spread (ms : List Mark) (ps : List Pair) : Prop :=
  ∀ a b, Laid a b ms → ∀ p ∈ ps, p.Lies a b

theorem spread_nil : Spread [] [] := fun _ _ _ _ hp => absurd hp List.not_mem_nil

theorem Spread.append (h : Spread ms ps) (ms' : List Mark) : Spread (ms ++ ms') ps := by
  intro a b hl p hp
  obtain ⟨k, hms, hms'⟩ := laid_append.1 hl
  exact (h a k hms p hp).mono (Nat.le_refl a) hms'.between.1

/-- The pair of a block lies behind the pairs before it. -/
theorem Spread.behind {key : Text} {o c : Span} (h : Spread ms ps) (hb : Spread body qs)
    (hl : Laid a b (ms ++ ⟨.opens key, o⟩ :: (body ++ [⟨.closes, c⟩]))) :
    ∃ k, Laid a k ms ∧ Laid o.stop c.start body ∧
      Behind a k b ps qs (dividers ms) (dividers body) ⟨key, o, c⟩ := by
  obtain ⟨k, hms, hbody, hpair⟩ := hl.split_block key
  exact ⟨k, hms, hbody, h a k hms, hms.dividers, hb _ _ hbody, hbody.dividers, hpair⟩

theorem Spread.block (h : Spread ms ps) (hb : Spread body qs) (key : Text) (o c : Span) :
    Spread (ms ++ ⟨.opens key, o⟩ :: (body ++ [⟨.closes, c⟩])) (ps ++ qs ++ [⟨key, o, c⟩]) := by
  intro a b hl p hp
  obtain ⟨k, hms, -, hbehind⟩ := h.behind hb hl
  obtain ⟨⟨hko, ho, -⟩, -, hc, hcb⟩ := hbehind.pair
  have hak := hms.between.1
  rcases List.mem_append.1 hp with hp | hp
  · rcases List.mem_append.1 hp with hp | hp
    · exact (hbehind.before p hp).mono (Nat.le_refl a) hbehind.pair.span.le
    · exact (hbehind.within p hp).mono (hak.trans (hko.trans ho.le)) (hc.le.trans hcb)
  · cases List.mem_singleton.1 hp
    exact hbehind.pair.mono hak (Nat.le_refl b)

theorem Inside.spread (h : Inside ms d ps) : Spread ms ps := by
  induction h with
  | nil => exact spread_nil
  | divides span h ih => exact ih.append _
  | malformed fault span h ih => exact ih.append _
  | block key opener closer h hb ih ihb => exact ih.block ihb key opener closer

theorem Outside.spread (h : Outside ms bs ps) : Spread ms ps := by
  induction h with
  | nil => exact spread_nil
  | stray hm h ih => exact ih.append _
  | block key opener closer h hb ih => exact ih.block hb.spread key opener closer

/-- The first divider that no pair holds, of a stretch in a block. -/
theorem Inside.divider_eq (h : Inside ms d ps) (hl : Laid a b ms) :
    (dividers ms).find? (fun s => !ps.any (·.holds s)) = d := by
  induction h generalizing a b with
  | nil => rfl
  | @divides ms d ps span h ih =>
      obtain ⟨k, hms, hlast⟩ := laid_append.1 hl
      have hfree := any_holds_behind (h.spread a k hms)
        (hlast.between.2 _ (List.mem_singleton_self _))
      rw [dividers_append, List.find?_append, ih hms]
      show d.or ([span].find? _) = _
      rw [List.find?_cons_of_pos (by rw [hfree]; rfl)]
  | malformed fault span h ih =>
      obtain ⟨k, hms, -⟩ := laid_append.1 hl
      rw [dividers_append, List.find?_append, ih hms]
      exact Option.or_none
  | block key o c h hb ih ihb =>
      obtain ⟨k, hms, -, hbehind⟩ := h.spread.behind hb.spread hl
      rw [dividers_block, hbehind.find?_dividers]
      exact ih hms

/-- The blocks of a stretch on the outside are those of its pairs. -/
theorem Outside.blocks_eq (h : Outside ms bs ps) (hl : Laid a b ms) :
    blocksOf ps (dividers ms) = bs := by
  induction h generalizing b with
  | nil => rfl
  | @stray ms bs ps m hm h ih =>
      obtain ⟨k, hms, hlast⟩ := laid_append.1 hl
      -- the mark stands behind all pairs, so it divides none of them
      rw [dividers_append, ← ih hms, blocksOf, blocksOf]
      refine List.map_congr_left fun p hp => ?_
      rw [(h.spread a k hms p (List.mem_filter.1 hp).1).divider?_append hlast.dividers]
  | block key o c h hb ih =>
      obtain ⟨k, hms, hbody, hbehind⟩ := h.spread.behind hb.spread hl
      rw [dividers_block, hbehind.blocksOf_eq, ih hms, hb.divider_eq hbody]

/-- The blocks of a stretch on the outside stand one behind the other. -/
theorem Outside.pairwise (h : Outside ms bs ps) (hl : Laid a b ms) :
    bs.Pairwise (fun x y => x.span.stop ≤ y.span.start) ∧ ∀ x ∈ bs, x.span.stop ≤ b := by
  induction h generalizing b with
  | nil => exact ⟨.nil, fun _ hx => absurd hx List.not_mem_nil⟩
  | stray hm h ih =>
      obtain ⟨k, hms, hlast⟩ := laid_append.1 hl
      obtain ⟨hpair, hend⟩ := ih hms
      exact ⟨hpair, fun x hx => (hend x hx).trans hlast.between.1⟩
  | @block ms body bs d ps qs key o c h hb ih =>
      obtain ⟨k, hms, -, hpair⟩ := hl.split_block key
      obtain ⟨hbs, hend⟩ := ih hms
      refine ⟨List.pairwise_append.2 ⟨hbs, List.pairwise_singleton _ _, ?_⟩, ?_⟩
      · intro x hx y hy
        rw [List.mem_singleton.1 hy, Pair.block_span]
        exact (hend x hx).trans hpair.span.1
      · intro x hx
        rcases List.mem_append.1 hx with hx | hx
        · exact (hend x hx).trans hpair.span.le
        · rw [List.mem_singleton.1 hx, Pair.block_span]
          exact hpair.span.2.2

/-! ## Setting an opener aside -/

/-- What stands behind an opener that is set aside has the same pairs on the outside. Its dividers
are stray there. -/
theorem Outside.append_inside (h : Outside ms bs ps) (hs : Inside seg d qs) :
    ∃ bs', Outside (ms ++ seg) bs' (ps ++ qs) := by
  induction hs with
  | nil => exact ⟨bs, by rwa [List.append_nil, List.append_nil]⟩
  | divides span _ ih =>
      obtain ⟨bs', hbs'⟩ := ih
      exact ⟨bs', by rw [← List.append_assoc]; exact .stray rfl hbs'⟩
  | malformed fault span _ ih =>
      obtain ⟨bs', hbs'⟩ := ih
      exact ⟨bs', by rw [← List.append_assoc]; exact .stray rfl hbs'⟩
  | @block seg body d d' qs qs' key opener closer _ hb ih _ =>
      obtain ⟨bs', hbs'⟩ := ih
      refine ⟨bs' ++ [(Pair.mk key opener closer).block d'], ?_⟩
      rw [← List.append_assoc, ← List.append_assoc, ← List.append_assoc]
      exact .block key opener closer hbs' hb

/-- Without the outermost opener that has no closer, the marks have the same pairs. -/
theorem Layers.exists_outermost {outer : Pending} (h : Layers ms pend bs ps)
    (ho : pend.getLast? = some outer) :
    ∃ before after bs', ms = before ++ ⟨.opens outer.key, outer.opener⟩ :: after ∧
      Layers (before ++ after) pend.dropLast bs' ps := by
  induction h with
  | base _ => cases ho
  | @layer ms seg pend bs d ps qs key opener h hs ih =>
      cases h with
      | base h =>
          -- the outermost opener is the last one, and its block joins the outside
          cases ho
          obtain ⟨bs', hbs'⟩ := h.append_inside hs
          exact ⟨ms, seg, bs', rfl, .base hbs'⟩
      | layer key' opener' h hs' =>
          obtain ⟨before, after, bs', hms, hlayers⟩ := ih ho
          refine ⟨before, after ++ ⟨.opens key, opener⟩ :: seg, bs', ?_, ?_⟩
          · rw [hms, List.append_assoc]
            rfl
          · rw [← List.append_assoc]
            exact .layer key opener hlayers hs

/-- Each open block has an opener of its own. -/
theorem Layers.length_le (h : Layers ms pend bs ps) : pend.length ≤ ms.countP Mark.isOpener := by
  induction h with
  | base _ => exact Nat.zero_le _
  | layer key opener h hs ih =>
      rw [List.countP_append, List.countP_cons_of_pos rfl, List.length_cons]
      omega

theorem Ordered.filter_span {before after : List Mark} {m : Mark}
    (h : Ordered (before ++ m :: after)) :
    (before ++ m :: after).filter (fun m' => m'.span ≠ m.span) = before ++ after ∧
      Ordered (before ++ after) := by
  have hsub : (before ++ after).Sublist (before ++ m :: after) :=
    (List.sublist_cons_self m after).append_left before
  obtain ⟨hbefore, hafter⟩ := h.span_ne
  refine ⟨?_, h.before.sublist hsub, fun m' hm' => h.proper m' (hsub.subset hm')⟩
  rw [List.filter_append, List.filter_cons_of_neg (by simp),
    List.filter_eq_self.2 (by simpa using hbefore), List.filter_eq_self.2 (by simpa using hafter)]

/-- A lenient search makes one scan more than there are openers without a closer. The last one
reads marks on the outside, with the same pairs and dividers. -/
theorem Layers.findWithin_eq (h : Layers ms pend bs ps) (hms : Ordered ms) {n : Nat}
    (hn : pend.length < n) (family : Family) (t : Text) :
    ∃ ms' bs', Outside ms' bs' ps ∧ Ordered ms' ∧ dividers ms' = dividers ms ∧
      findWithin family .passThrough t n ms = .ok (some bs') := by
  induction n generalizing ms pend bs with
  | zero => exact absurd hn (Nat.not_lt_zero _)
  | succ n ih =>
      -- if the scan leaves blocks open, one scan less is left for one opener less
      simp only [findWithin, h.run family t]
      cases pend with
      | nil =>
          cases h with
          | base h => exact ⟨ms, bs, h, hms, rfl, rfl⟩
      | cons top rest =>
          obtain ⟨outer, hlast⟩ : ∃ outer, (top :: rest).getLast? = some outer :=
            ⟨_, List.getLast?_eq_some_getLast (List.cons_ne_nil top rest)⟩
          obtain ⟨before, after, bs₁, rfl, hlayers⟩ := h.exists_outermost hlast
          obtain ⟨hfilter, hordered⟩ := hms.filter_span
          have hfewer : (top :: rest).dropLast.length < n := by
            rw [List.length_dropLast]
            exact Nat.lt_of_succ_lt_succ hn
          obtain ⟨ms', bs', houtside, hms', hdividers, hfound⟩ := ih hlayers hordered hfewer
          have hkept : dividers (before ++ ⟨.opens outer.key, outer.opener⟩ :: after) =
              dividers (before ++ after) := by simp [dividers]
          refine ⟨ms', bs', houtside, hms', hdividers.trans hkept.symm, ?_⟩
          rw [hlast, ← hfound, ← hfilter]
          rfl

/-- What a lenient search ends at. -/
theorem exists_outside (family : Family) (t : Text) :
    let ms := marks family (Tag.lex t)
    ∃ ms' bs, Outside ms' bs (matching ms).pairs ∧ Ordered ms' ∧ dividers ms' = dividers ms ∧
      findWithin family .passThrough t (ms.countP Mark.isOpener + 1) ms = .ok (some bs) := by
  intro ms
  obtain ⟨pend, bs, ps, h⟩ := exists_layers ms
  rw [show (matching ms).pairs = ps by rw [h.matching_eq]]
  exact h.findWithin_eq (ordered_marks family t) (Nat.lt_succ_of_le h.length_le) family t

theorem Outside.find_eq {ms' : List Mark} (h : Outside ms' bs (matching ms).pairs)
    (hms' : Ordered ms') (hdividers : dividers ms' = dividers ms) :
    blocksOf (matching ms).pairs (dividers ms) = bs ∧
      bs.Pairwise (fun b b' => b.span.stop ≤ b'.span.start) ∧
      ∃ b, ∀ p ∈ (matching ms).pairs, p.Lies 0 b := by
  obtain ⟨b, hl⟩ := hms'.exists_laid fun m _ => Nat.zero_le m.span.start
  exact ⟨by rw [← hdividers]; exact h.blocks_eq hl, (h.pairwise hl).1, b, h.spread 0 b hl⟩

/-- A lenient search never fails. -/
theorem exists_find_passThrough (family : Family) (t : Text) :
    ∃ bs, find family .passThrough t = .ok bs := by
  obtain ⟨-, bs, -, -, -, hfound⟩ := exists_outside family t
  exact ⟨bs, by rw [find, hfound]; rfl⟩

/-- **A lenient search is one matching** of the tags that play a part for the family: with a scan
more than there are openers it is done, and what it finds are the pairs of the matching that lie in
no other, in the order of the text, each divided by the first divider that lies in it and in no pair
within it. -/
theorem find_passThrough_eq_matching (family : Family) (t : Text) :
    let ms := marks family (Tag.lex t)
    let bs := blocksOf (matching ms).pairs (dividers ms)
    (∀ ms', Picks family (Tag.lex t) ms' ↔ ms' = ms) ∧
      findWithin family .passThrough t (ms.countP Mark.isOpener + 1) ms = .ok (some bs) ∧
      find family .passThrough t = .ok bs ∧
      bs.Pairwise fun b b' => b.span.stop ≤ b'.span.start := by
  intro ms bs
  obtain ⟨ms', bs', houtside, hms', hdividers, hfound⟩ := exists_outside family t
  obtain ⟨hbs, hpairwise, -⟩ := houtside.find_eq hms' hdividers
  rw [show bs = bs' from hbs]
  exact ⟨fun ms' => picks_iff, hfound, by rw [find, hfound]; rfl, hpairwise⟩

/-- The divider of a block that is not closed falls to no other. -/
example : find .conditional .passThrough
      ("\x7b\x7b#if:a\x7d\x7d\x7b\x7b#else\x7d\x7d".toList ++
        "\x7b\x7b#if:b\x7d\x7dx\x7b\x7b#endif\x7d\x7d".toList) =
    .ok [⟨"b".toList, ⟨18, 38⟩, ⟨27, 28⟩, none⟩] := by decide +kernel

/-! ## The parts of the blocks -/

/-- The tags that a matching has are among some ranges. -/
def Matching.From (spans : List Span) (s : Matching) : Prop :=
  (∀ f ∈ s.free, f.2 ∈ spans) ∧ ∀ p ∈ s.pairs, p.opener ∈ spans ∧ p.closer ∈ spans

theorem Matching.From.step {spans : List Span} {s : Matching} {m : Mark} (h : s.From spans)
    (hm : m.span ∈ spans) : (s.step m).From spans := by
  obtain ⟨free, pairs⟩ := s
  obtain ⟨role, span⟩ := m
  obtain ⟨hfree, hpairs⟩ := h
  cases role with
  | opens key => exact ⟨List.forall_mem_cons.2 ⟨hm, hfree⟩, hpairs⟩
  | closes =>
      cases free with
      | nil => exact ⟨hfree, hpairs⟩
      | cons f free =>
          obtain ⟨hf, hfree⟩ := List.forall_mem_cons.1 hfree
          refine ⟨hfree, fun p hp => ?_⟩
          rcases List.mem_append.1 hp with hp | hp
          · exact hpairs p hp
          · rw [List.mem_singleton.1 hp]
            exact ⟨hf, hm⟩
  | divides => exact ⟨hfree, hpairs⟩
  | malformed fault => exact ⟨hfree, hpairs⟩

theorem matching_from (ms : List Mark) : (matching ms).From (ms.map Mark.span) := by
  refine List.foldlRecOn ms Matching.step ?_ fun s hs m hm => hs.step (List.mem_map_of_mem hm)
  exact ⟨fun _ hf => absurd hf List.not_mem_nil, fun _ hp => absurd hp List.not_mem_nil⟩

variable {policy : Policy}

/-- A search that succeeds does so under the lenient policy too. -/
theorem find_passThrough_of_find (h : find family policy t = .ok bs) :
    find family .passThrough t = .ok bs := by
  cases policy with
  | strict => exact find_of_runs (runs_of_find h) .passThrough
  | passThrough => exact h

/-- The blocks that are found come one behind the other, and each is that of a pair of marks: it
begins and ends with them, and each of its parts lies between two marks. -/
theorem shape_of_find (h : find family policy t = .ok bs) :
    bs.Pairwise (fun b b' => b.span.stop ≤ b'.span.start) ∧ ∀ x ∈ bs,
      (∃ opener ∈ marks family (Tag.lex t), ∃ closer ∈ marks family (Tag.lex t),
        opener.span.stop ≤ closer.span.start ∧ x.span = ⟨opener.span.start, closer.span.stop⟩) ∧
      ∀ part, HasPart x part →
        ∃ left ∈ marks family (Tag.lex t), ∃ right ∈ marks family (Tag.lex t),
          left.span.stop ≤ right.span.start ∧ part = ⟨left.span.stop, right.span.start⟩ := by
  obtain ⟨ms', bs', houtside, hms', hdividers, hfound⟩ := exists_outside family t
  obtain ⟨hbs, hpairwise, b, hlies⟩ := houtside.find_eq hms' hdividers
  have hfind := find_passThrough_of_find h
  rw [find, hfound] at hfind
  obtain rfl : bs' = bs := Except.ok.inj hfind
  refine ⟨hpairwise, fun x hx => ?_⟩
  rw [← hbs] at hx
  obtain ⟨p, hp, rfl⟩ := List.mem_map.1 hx
  have hp := (List.mem_filter.1 hp).1
  obtain ⟨⟨-, -, hle⟩, -⟩ := hlies p hp
  obtain ⟨hopener, hcloser⟩ := (matching_from (marks family (Tag.lex t))).2 p hp
  obtain ⟨opener, ho, hopener⟩ := List.mem_map.1 hopener
  obtain ⟨closer, hc, hcloser⟩ := List.mem_map.1 hcloser
  rw [← hopener, ← hcloser] at hle
  constructor
  · refine ⟨opener, ho, closer, hc, hle, ?_⟩
    rw [Pair.block_span, Pair.span, hopener, hcloser]
  · intro part hpart
    rcases p.hasPart_block hpart with ⟨-, rfl⟩ | ⟨d, hdivider, hpart⟩
    · exact ⟨opener, ho, closer, hc, hle, by rw [hopener, hcloser]⟩
    · obtain ⟨divider, hd, rfl⟩ := List.mem_map.1 (List.mem_of_find?_eq_some hdivider)
      have hd := (List.mem_filter.1 hd).1
      have hsome := List.find?_some hdivider
      have hholds := (Bool.and_eq_true_iff.1 hsome).1
      rw [Pair.holds, Bool.and_eq_true_iff, decide_eq_true_iff, decide_eq_true_iff, ← hopener,
        ← hcloser] at hholds
      rcases hpart with rfl | rfl
      · exact ⟨opener, ho, divider, hd, hholds.1, by rw [hopener]⟩
      · exact ⟨divider, hd, closer, hc, hholds.2, by rw [hcloser]⟩

/-- The parts of a block that is found are parts of the text. -/
theorem exists_slice_of_find (h : find family policy t = .ok bs) {x : Block} (hx : x ∈ bs)
    {part : Span} (hpart : HasPart x part) : ∃ u, Text.slice? t part = some u := by
  obtain ⟨left, hl, right, hr, hle, rfl⟩ := ((shape_of_find h).2 x hx).2 part hpart
  exact exists_slice_between hl hr hle

/-- The blocks that are found lie in the text one behind the other, between characters. -/
theorem fits_of_find (h : find family policy t = .ok bs) :
    Text.SpansFit t 0 (bs.map Block.span) := by
  obtain ⟨hpairwise, hshape⟩ := shape_of_find h
  have hspan : ∀ s ∈ bs.map Block.span,
      s.start ≤ s.stop ∧ Text.Boundary t s.start ∧ Text.Boundary t s.stop := by
    intro s hs
    obtain ⟨x, hx, rfl⟩ := List.mem_map.1 hs
    obtain ⟨⟨opener, ho, closer, hc, hle, hx⟩, -⟩ := hshape x hx
    obtain ⟨hlt, hstart, -⟩ := marks_spec ho
    obtain ⟨hlt', -, hstop⟩ := marks_spec hc
    rw [hx]
    exact ⟨hlt.le.trans (hle.trans hlt'.le), hstart, hstop⟩
  refine Text.spansFit_of_within (spansWithin_of_pairwise ?_ ?_ (Nat.zero_le _))
    (Text.boundary_zero t) fun s hs => (hspan s hs).2
  · exact List.pairwise_map.2 hpairwise
  · intro s hs
    obtain ⟨hle, -, hstop⟩ := hspan s hs
    exact ⟨Nat.zero_le _, hle, hstop.le⟩

end TagTemplate.Block
