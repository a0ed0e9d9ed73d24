import TagTemplate.Proofs.Block.Pairing
import Mathlib.Data.List.Find

/-!
# Matched pairs

The tags of a text can be matched in one pass: every closing tag takes the
nearest opening tag before it that is still free, and what is left over stands
for nothing. The pairs that lie in no other make blocks, each divided by the
first divider that lies in it and in no pair within it.

Which pair holds what is a matter of where the tags stand. Of a pair behind
others, with still others within it, the blocks of the others stay the same and
it is one block more: `Behind.blocksOf_eq`.
-/

namespace TagTemplate.Block

/-! ## One pass -/

/-- An opening and a closing tag that belong together. -/
structure Pair where
  key : Text
  opener : Span
  closer : Span
  deriving DecidableEq, Repr

/-- The bytes that a pair takes up. -/
def Pair.span (p : Pair) : Span := ⟨p.opener.start, p.closer.stop⟩

/-- Whether a range lies between the two tags of a pair. -/
def Pair.holds (p : Pair) (s : Span) : Bool :=
  p.opener.stop ≤ s.start && s.stop ≤ p.closer.start

/-- The openers that are still free, nearest first, and the pairs so far. -/
structure Matching where
  free : List (Text × Span)
  pairs : List Pair
  deriving DecidableEq, Repr

/-- A closer takes the nearest opener that is free. If there is none it stands for nothing, like
every mark that neither opens nor closes. -/
def Matching.step (s : Matching) (m : Mark) : Matching :=
  match m.role, s.free with
  | .opens key, free => ⟨(key, m.span) :: free, s.pairs⟩
  | .closes, (key, opener) :: free => ⟨free, s.pairs ++ [⟨key, opener, m.span⟩]⟩
  | _, _ => s

/-- The matching of some marks, read once from the left. -/
def matching (ms : List Mark) : Matching := ms.foldl Matching.step ⟨[], []⟩

/-- The dividers among some marks. -/
def dividers (ms : List Mark) : List Span := (ms.filter fun m => m.role = .divides).map Mark.span

/-- The pairs that lie in no other. -/
def outermost (ps : List Pair) : List Pair := ps.filter fun p => !ps.any (·.holds p.span)

/-- The first divider that lies in a pair and in no pair within it. -/
def Pair.divider? (ps : List Pair) (ds : List Span) (p : Pair) : Option Span :=
  ds.find? fun d => p.holds d && !ps.any fun q => p.holds q.span && q.holds d

/-- The block of a pair, given its divider. -/
def Pair.block (p : Pair) : Option Span → Block
  | none => ⟨p.key, p.span, ⟨p.opener.stop, p.closer.start⟩, none⟩
  | some d => ⟨p.key, p.span, ⟨p.opener.stop, d.start⟩, some ⟨d.stop, p.closer.start⟩⟩

/-- The blocks that some pairs and dividers make. -/
def blocksOf (ps : List Pair) (ds : List Span) : List Block :=
  (outermost ps).map fun p => p.block (p.divider? ps ds)

variable {ms ms' body : List Mark} {d : Option Span} {ps qs : List Pair} {ds es : List Span}
  {p q : Pair} {s : Span} {a b i k : Nat}

theorem Pair.block_span (p : Pair) (d : Option Span) : (p.block d).span = p.span := by
  cases d <;> rfl

/-- Where the parts of the block of a pair begin and end. -/
theorem Pair.hasPart_block {part : Span} (h : HasPart (p.block d) part) :
    (d = none ∧ part = ⟨p.opener.stop, p.closer.start⟩) ∨
      ∃ s, d = some s ∧
        (part = ⟨p.opener.stop, s.start⟩ ∨ part = ⟨s.stop, p.closer.start⟩) := by
  cases d with
  | none => exact h.elim (fun hbody => .inl ⟨rfl, hbody⟩) fun hnone => nomatch hnone
  | some s =>
      exact .inr ⟨s, rfl, h.imp_right fun halternative => (Option.some.inj halternative).symm⟩

theorem Pending.close_eq (key : Text) (opener closer : Span) (d : Option Span) :
    (Pending.mk key opener d).close closer = (Pair.mk key opener closer).block d := by
  cases d <;> rfl

@[simp] theorem dividers_append (ms ms' : List Mark) :
    dividers (ms ++ ms') = dividers ms ++ dividers ms' := by
  simp [dividers]

theorem dividers_block (ms body : List Mark) (key : Text) (o c : Span) :
    dividers (ms ++ ⟨.opens key, o⟩ :: (body ++ [⟨.closes, c⟩])) =
      dividers ms ++ dividers body := by
  simp [dividers]

/-! ## Marks in a row -/

/-- A range between two bytes that is not empty. -/
def Between (a b : Nat) (s : Span) : Prop := a ≤ s.start ∧ s.start < s.stop ∧ s.stop ≤ b

theorem Between.mono {a' b' : Nat} (h : Between a b s) (ha : a' ≤ a) (hb : b ≤ b') :
    Between a' b' s := ⟨ha.trans h.1, h.2.1, h.2.2.trans hb⟩

theorem Between.le (h : Between a b s) : a ≤ b := h.1.trans (h.2.1.le.trans h.2.2)

/-- The tags of a pair lie one behind the other between two bytes. -/
def Pair.Lies (a b : Nat) (p : Pair) : Prop :=
  Between a p.closer.start p.opener ∧ Between p.opener.stop b p.closer

theorem Pair.Lies.mono {a' b' : Nat} (h : p.Lies a b) (ha : a' ≤ a) (hb : b ≤ b') :
    p.Lies a' b' := ⟨h.1.mono ha (Nat.le_refl _), h.2.mono (Nat.le_refl _) hb⟩

theorem Pair.Lies.span (h : p.Lies a b) : Between a b p.span := by
  obtain ⟨⟨ha, ho, hoc⟩, -, hc, hb⟩ := h
  exact ⟨ha, by simp only [Pair.span]; omega, hb⟩

/-- Marks one behind the other between two bytes, none of them empty. -/
def Laid (a b : Nat) : List Mark → Prop
  | [] => a ≤ b
  | m :: ms => a ≤ m.span.start ∧ m.span.start < m.span.stop ∧ Laid m.span.stop b ms

theorem Laid.mono {a' b' : Nat} (h : Laid a b ms) (ha : a' ≤ a) (hb : b ≤ b') :
    Laid a' b' ms := by
  induction ms generalizing a a' with
  | nil => exact (ha.trans h).trans hb
  | cons m ms ih => exact ⟨ha.trans h.1, h.2.1, ih h.2.2 (Nat.le_refl _)⟩

theorem laid_append : Laid a b (ms ++ ms') ↔ ∃ k, Laid a k ms ∧ Laid k b ms' := by
  induction ms generalizing a with
  | nil => exact ⟨fun h => ⟨a, Nat.le_refl a, h⟩, fun ⟨_, hk, h⟩ => h.mono hk (Nat.le_refl b)⟩
  | cons m ms ih =>
      show (_ ∧ _ ∧ Laid _ b (ms ++ ms')) ↔ ∃ k, (_ ∧ _ ∧ Laid _ k ms) ∧ _
      rw [ih]
      constructor
      · rintro ⟨hstart, hm, k, hms, hms'⟩
        exact ⟨k, ⟨hstart, hm, hms⟩, hms'⟩
      · rintro ⟨k, ⟨hstart, hm, hms⟩, hms'⟩
        exact ⟨hstart, hm, k, hms, hms'⟩

theorem Laid.between (h : Laid a b ms) : a ≤ b ∧ ∀ m ∈ ms, Between a b m.span := by
  induction ms generalizing a with
  | nil => exact ⟨h, fun _ hm => absurd hm List.not_mem_nil⟩
  | cons m ms ih =>
      obtain ⟨hstart, hm, hms⟩ := h
      obtain ⟨hle, hall⟩ := ih hms
      refine ⟨by omega, fun m' hm' => ?_⟩
      rcases List.mem_cons.1 hm' with rfl | hm'
      · exact ⟨hstart, hm, hle⟩
      · exact (hall m' hm').mono (by omega) (Nat.le_refl b)

theorem Laid.dividers (h : Laid a b ms) : ∀ d ∈ dividers ms, Between a b d := by
  intro d hd
  obtain ⟨m, hm, rfl⟩ := List.mem_map.1 hd
  exact h.between.2 m (List.mem_filter.1 hm).1

/-- Marks with a block behind them, cut into its parts. -/
theorem Laid.split_block {r r' : Role} {o c : Span} (key : Text)
    (h : Laid a b (ms ++ ⟨r, o⟩ :: (body ++ [⟨r', c⟩]))) :
    ∃ k, Laid a k ms ∧ Laid o.stop c.start body ∧ Pair.Lies k b ⟨key, o, c⟩ := by
  obtain ⟨k, hms, hko, ho, hbody⟩ := laid_append.1 h
  obtain ⟨l, hbody, hlc, hc, hcb⟩ := laid_append.1 hbody
  have hoc := hbody.between.1.trans hlc
  exact ⟨k, hms, hbody.mono (Nat.le_refl _) hlc, ⟨hko, ho, hoc⟩, hoc, hc, hcb⟩

theorem Ordered.exists_laid (h : Ordered ms) (ha : ∀ m ∈ ms, a ≤ m.span.start) :
    ∃ b, Laid a b ms := by
  induction ms generalizing a with
  | nil => exact ⟨a, Nat.le_refl a⟩
  | cons m ms ih =>
      obtain ⟨hbefore, hproper⟩ := h
      obtain ⟨hm, hms⟩ := List.pairwise_cons.1 hbefore
      obtain ⟨b, hb⟩ := ih ⟨hms, fun m' hm' => hproper m' (List.mem_cons_of_mem m hm')⟩ hm
      exact ⟨b, ha m List.mem_cons_self, hproper m List.mem_cons_self, hb⟩

/-! ## What a pair holds -/

theorem Pair.holds_of_between (h : Between p.opener.stop p.closer.start s) : p.holds s = true := by
  rw [Pair.holds, decide_eq_true h.1, decide_eq_true h.2.2]
  rfl

theorem Pair.holds_of_start_lt (h : s.start < p.opener.stop) : p.holds s = false := by
  rw [Pair.holds, decide_eq_false (Nat.not_le.2 h), Bool.false_and]

theorem Pair.Lies.holds_before (h : p.Lies k b) (hs : Between a k s) : p.holds s = false := by
  obtain ⟨⟨hk, ho, -⟩, -⟩ := h
  obtain ⟨-, hs, hsk⟩ := hs
  exact Pair.holds_of_start_lt (by omega)

theorem Pair.Lies.holds_behind (h : p.Lies a k) (hs : Between k b s) : p.holds s = false := by
  obtain ⟨-, -, hc, hk⟩ := h
  obtain ⟨hks, hs, -⟩ := hs
  have hlate : ¬ s.stop ≤ p.closer.start := by omega
  rw [Pair.holds, decide_eq_false hlate, Bool.and_false]

/-- A pair does not hold one that starts no later, nor itself. -/
theorem Pair.Lies.holds_span (h : p.Lies a b) (hq : q.opener.start ≤ p.opener.start) :
    p.holds q.span = false :=
  Pair.holds_of_start_lt (hq.trans_lt h.1.2.1)

theorem any_holds_behind (h : ∀ p ∈ ps, p.Lies a k) (hs : Between k b s) :
    ps.any (·.holds s) = false := by
  rw [List.any_eq_false]
  intro p hp
  rw [(h p hp).holds_behind hs]
  exact Bool.false_ne_true

/-- A divider behind a pair is not its own. -/
theorem Pair.Lies.divider?_append (h : p.Lies a k) (hes : ∀ d ∈ es, Between k b d)
    (ps : List Pair) (ds : List Span) : p.divider? ps (ds ++ es) = p.divider? ps ds := by
  have hnone : es.find? (fun d => p.holds d && !ps.any fun q => p.holds q.span && q.holds d) =
      none := by
    rw [List.find?_eq_none]
    intro d hd
    rw [h.holds_behind (hes d hd)]
    exact Bool.false_ne_true
  rw [Pair.divider?, List.find?_append, hnone, Option.or_none]
  rfl

/-! ## A pair behind others -/

/-- Pairs and dividers up to a byte, and a pair behind it with pairs and dividers within. -/
structure Behind (a k b : Nat) (ps qs : List Pair) (ds es : List Span) (p : Pair) : Prop where
  before : ∀ q ∈ ps, q.Lies a k
  dividers : ∀ d ∈ ds, Between a k d
  within : ∀ q ∈ qs, q.Lies p.opener.stop p.closer.start
  dividersWithin : ∀ d ∈ es, Between p.opener.stop p.closer.start d
  pair : p.Lies k b

namespace Behind

variable (h : Behind a k b ps qs ds es p)

include h

/-- What stands before a pair is held neither by it nor by those within it. -/
theorem any_holds_before (f : Pair → Bool) (hs : Between i k s) :
    (ps ++ qs ++ [p]).any (fun q => f q && q.holds s) = ps.any fun q => f q && q.holds s := by
  obtain ⟨⟨hk, ho, -⟩, -⟩ := h.pair
  have hwithin : qs.any (fun q => f q && q.holds s) = false := by
    rw [List.any_eq_false]
    intro q hq
    rw [(h.within q hq).holds_before (hs.mono (Nat.le_refl i) (by omega)), Bool.and_false]
    exact Bool.false_ne_true
  rw [List.any_append, List.any_append, hwithin, List.any_cons, List.any_nil,
    h.pair.holds_before hs, Bool.and_false, Bool.or_false, Bool.or_false, Bool.or_false]

omit h in
theorem any_holds_within (hs : Between p.opener.stop p.closer.start s) :
    (ps ++ [p]).any (·.holds s) = true := by
  rw [List.any_append, List.any_cons, Pair.holds_of_between hs, Bool.true_or, Bool.or_true]

/-- The dividers within the pair are not free. -/
theorem find?_dividers :
    (ds ++ es).find? (fun s => !(ps ++ qs ++ [p]).any (·.holds s)) =
      ds.find? fun s => !ps.any (·.holds s) := by
  have hwithin : es.find? (fun s => !(ps ++ qs ++ [p]).any (·.holds s)) = none := by
    rw [List.find?_eq_none]
    intro s hs
    rw [any_holds_within (h.dividersWithin s hs)]
    exact Bool.false_ne_true
  rw [List.find?_append, hwithin, Option.or_none]
  exact List.find?_congr fun s hs =>
    congrArg not (h.any_holds_before (fun _ => true) (h.dividers s hs))

/-- The pair is outermost, those within it are not. -/
theorem outermost_eq : outermost (ps ++ qs ++ [p]) = outermost ps ++ [p] := by
  have hbefore : ps.filter (fun q => !(ps ++ qs ++ [p]).any (·.holds q.span)) = outermost ps :=
    List.filter_congr fun q hq =>
      congrArg not (h.any_holds_before (fun _ => true) (h.before q hq).span)
  have hwithin : qs.filter (fun q => !(ps ++ qs ++ [p]).any (·.holds q.span)) = [] := by
    rw [List.filter_eq_nil_iff]
    intro q hq
    rw [any_holds_within (h.within q hq).span]
    exact Bool.false_ne_true
  have hqs : qs.any (·.holds p.span) = false := by
    rw [List.any_eq_false]
    intro q hq
    have hstart : p.opener.stop ≤ q.opener.start := (h.within q hq).1.1
    have ho : p.opener.start < p.opener.stop := h.pair.1.2.1
    rw [(h.within q hq).holds_span (by omega)]
    exact Bool.false_ne_true
  have hself : (ps ++ qs ++ [p]).any (·.holds p.span) = false := by
    rw [List.any_append, List.any_append, any_holds_behind h.before h.pair.span, hqs,
      List.any_cons, h.pair.holds_span (Nat.le_refl _)]
    rfl
  rw [outermost, List.filter_append, List.filter_append, hbefore, hwithin, List.append_nil,
    List.filter_cons_of_pos (by rw [hself]; rfl), List.filter_nil]

/-- Of the dividers within the pair, its own is the first that none of the pairs within holds. -/
theorem divider?_eq :
    p.divider? (ps ++ qs ++ [p]) (ds ++ es) = es.find? fun s => !qs.any (·.holds s) := by
  have hbefore : ds.find? (fun s => p.holds s &&
      !(ps ++ qs ++ [p]).any fun q => p.holds q.span && q.holds s) = none := by
    rw [List.find?_eq_none]
    intro s hs
    rw [h.pair.holds_before (h.dividers s hs)]
    exact Bool.false_ne_true
  have hps : ∀ s, ps.any (fun q => p.holds q.span && q.holds s) = false := by
    intro s
    rw [List.any_eq_false]
    intro q hq
    rw [h.pair.holds_before (h.before q hq).span]
    exact Bool.false_ne_true
  have hqs : ∀ s, qs.any (fun q => p.holds q.span && q.holds s) = qs.any (·.holds s) := by
    intro s
    rw [← List.any_filter, List.filter_eq_self.2]
    exact fun q hq => Pair.holds_of_between (h.within q hq).span
  rw [Pair.divider?, List.find?_append, hbefore, Option.none_or]
  refine List.find?_congr fun s hs => ?_
  rw [Pair.holds_of_between (h.dividersWithin s hs), List.any_append, List.any_append, hps, hqs,
    List.any_cons, h.pair.holds_span (Nat.le_refl _), List.any_nil, Bool.false_and, Bool.or_false,
    Bool.or_false, Bool.false_or, Bool.true_and]

/-- **A pair behind others** is one block more, and changes nothing about theirs. -/
theorem blocksOf_eq :
    blocksOf (ps ++ qs ++ [p]) (ds ++ es) =
      blocksOf ps ds ++ [p.block (es.find? fun s => !qs.any (·.holds s))] := by
  obtain ⟨⟨hk, ho, -⟩, -⟩ := h.pair
  have hwithin : ∀ d ∈ es, Between k p.closer.start d := fun d hd =>
    (h.dividersWithin d hd).mono (by omega) (Nat.le_refl _)
  have hbefore : ∀ q ∈ ps, q.divider? (ps ++ qs ++ [p]) (ds ++ es) = q.divider? ps ds := by
    intro q hq
    rw [(h.before q hq).divider?_append hwithin]
    exact List.find?_congr fun s hs => by
      rw [h.any_holds_before (fun q' => q.holds q'.span) (h.dividers s hs)]
  rw [blocksOf, h.outermost_eq, List.map_append, List.map_cons, List.map_nil, h.divider?_eq]
  refine congrArg (· ++ _) (List.map_congr_left fun q hq => ?_)
  rw [hbefore q (List.mem_filter.1 hq).1]

end Behind

end TagTemplate.Block
