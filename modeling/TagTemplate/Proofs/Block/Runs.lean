import TagTemplate.Block
import Mathlib.Logic.Basic

/-!
# Scans without a defect

`Accepts` lists what a scan does at a mark that fits, and `Runs` is a scan all
of whose marks fit. Such a scan is the same under both policies. It does not
depend on the blocks that are already complete, and inside an open block it
leaves that block as it was: the marks of a text without a defect can stand
behind other marks, and in the body of a block.
-/

namespace TagTemplate.Block

variable {family : Family} {policy : Policy} {text : Text} {s s' s'' : Progress} {m : Mark}
  {ms ms' : List Mark}

/-- A mark that fits takes a scan one step further. -/
inductive Accepts : Progress → Mark → Progress → Prop where
  | opens (key : Text) (span : Span) (pending : List Pending) (done : List Block) :
      Accepts ⟨pending, done⟩ ⟨.opens key, span⟩ ⟨⟨key, span, none⟩ :: pending, done⟩
  | divides (key : Text) (opener span : Span) (pending : List Pending) (done : List Block) :
      Accepts ⟨⟨key, opener, none⟩ :: pending, done⟩ ⟨.divides, span⟩
        ⟨⟨key, opener, some span⟩ :: pending, done⟩
  | closesOuter (top : Pending) (span : Span) (done : List Block) :
      Accepts ⟨[top], done⟩ ⟨.closes, span⟩ ⟨[], done ++ [top.close span]⟩
  | closesInner (top next : Pending) (span : Span) (pending : List Pending) (done : List Block) :
      Accepts ⟨top :: next :: pending, done⟩ ⟨.closes, span⟩ ⟨next :: pending, done⟩

/-- A scan all of whose marks fit. -/
inductive Runs : Progress → List Mark → Progress → Prop where
  | nil (s : Progress) : Runs s [] s
  | cons {s s' s'' : Progress} {m : Mark} {ms : List Mark} (accepts : Accepts s m s')
      (runs : Runs s' ms s'') : Runs s (m :: ms) s''

theorem Accepts.step (h : Accepts s m s') (family : Family) (policy : Policy) (text : Text) :
    s.step family policy text m = .ok s' := by
  cases h <;> rfl

theorem Runs.run (h : Runs s ms s') (family : Family) (policy : Policy) (text : Text) :
    s.run family policy text ms = .ok s' := by
  induction h with
  | nil s => rfl
  | cons accepts _ ih =>
      rw [Progress.run, accepts.step]
      exact ih

theorem Runs.single (h : Accepts s m s') : Runs s [m] s' := .cons h (.nil s')

theorem Runs.append (h : Runs s ms s') (h' : Runs s' ms' s'') : Runs s (ms ++ ms') s'' := by
  induction h with
  | nil s => exact h'
  | cons accepts _ ih => exact .cons accepts (ih h')

/-! ## Around a scan -/

/-- A scan with more blocks complete before it. -/
def Progress.behind (done : List Block) (s : Progress) : Progress := ⟨s.pending, done ++ s.done⟩

/-- A scan within open blocks, of which the innermost is `outer`. -/
def Progress.inside (outer : Pending) (pending : List Pending) (done : List Block)
    (s : Progress) : Progress := ⟨s.pending ++ outer :: pending, done⟩

theorem Accepts.behind (h : Accepts s m s') (done : List Block) :
    Accepts (s.behind done) m (s'.behind done) := by
  cases h with
  | opens key span pending done' => exact .opens key span pending _
  | divides key opener span pending done' => exact .divides key opener span pending _
  | closesOuter top span done' =>
      show Accepts ⟨[top], done ++ done'⟩ _ ⟨[], done ++ (done' ++ [top.close span])⟩
      rw [← List.append_assoc]
      exact .closesOuter top span _
  | closesInner top next span pending done' => exact .closesInner top next span pending _

theorem Runs.behind (h : Runs s ms s') (done : List Block) :
    Runs (s.behind done) ms (s'.behind done) := by
  induction h with
  | nil s => exact .nil _
  | cons accepts _ ih => exact .cons (accepts.behind done) ih

/-- Within an open block no block is completed, only put away. -/
theorem Accepts.inside (h : Accepts s m s') (outer : Pending) (pending : List Pending)
    (done : List Block) :
    Accepts (s.inside outer pending done) m (s'.inside outer pending done) := by
  cases h with
  | opens key span inner _ => exact .opens key span (inner ++ outer :: pending) done
  | divides key opener span inner _ =>
      exact .divides key opener span (inner ++ outer :: pending) done
  | closesOuter top span _ => exact .closesInner top outer span pending done
  | closesInner top next span inner _ =>
      exact .closesInner top next span (inner ++ outer :: pending) done

theorem Runs.inside (h : Runs s ms s') (outer : Pending) (pending : List Pending)
    (done : List Block) :
    Runs (s.inside outer pending done) ms (s'.inside outer pending done) := by
  induction h with
  | nil s => exact .nil _
  | cons accepts _ ih => exact .cons (accepts.inside outer pending done) ih

/-! ## Moving a scan -/

/-- A block moved `n` bytes to the right. -/
def shift (n : Nat) (b : Block) : Block :=
  ⟨b.key, b.span.shift n, b.body.shift n, b.alternative.map (·.shift n)⟩

/-- A mark moved `n` bytes to the right. -/
def Mark.shift (n : Nat) (m : Mark) : Mark := ⟨m.role, m.span.shift n⟩

/-- An open block moved `n` bytes to the right. -/
def Pending.shift (n : Nat) (p : Pending) : Pending :=
  ⟨p.key, p.opener.shift n, p.divider.map (·.shift n)⟩

/-- A scan moved `n` bytes to the right. -/
def Progress.shift (n : Nat) (s : Progress) : Progress :=
  ⟨s.pending.map (Pending.shift n), s.done.map (Block.shift n)⟩

theorem Pending.close_shift (p : Pending) (closer : Span) (n : Nat) :
    (p.close closer).shift n = (p.shift n).close (closer.shift n) := by
  obtain ⟨key, opener, divider⟩ := p
  cases divider <;> rfl

theorem Accepts.shift (h : Accepts s m s') (n : Nat) :
    Accepts (s.shift n) (m.shift n) (s'.shift n) := by
  cases h with
  | opens key span pending done => exact .opens key (span.shift n) _ _
  | divides key opener span pending done => exact .divides key (opener.shift n) (span.shift n) _ _
  | closesOuter top span done =>
      have hdone : (done ++ [top.close span]).map (Block.shift n) =
          done.map (Block.shift n) ++ [(top.shift n).close (span.shift n)] := by
        rw [List.map_append, List.map_singleton, Pending.close_shift]
      show Accepts ⟨[top.shift n], done.map (Block.shift n)⟩ _ ⟨[], _⟩
      rw [hdone]
      exact .closesOuter (top.shift n) (span.shift n) _
  | closesInner top next span pending done =>
      exact .closesInner (top.shift n) (next.shift n) (span.shift n) _ _

theorem Runs.shift (h : Runs s ms s') (n : Nat) :
    Runs (s.shift n) (ms.map (Mark.shift n)) (s'.shift n) := by
  induction h with
  | nil s => exact .nil _
  | cons accepts _ ih => exact .cons (accepts.shift n) ih

/-! ## Finding blocks -/

/-- The blocks of a text whose marks all fit. -/
theorem find_of_runs {bs : List Block}
    (h : Runs .start (marks family (Tag.lex text)) ⟨[], bs⟩) (policy : Policy) :
    find family policy text = .ok bs := by
  simp only [find, findWithin, h.run]
  rfl

end TagTemplate.Block
