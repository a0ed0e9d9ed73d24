import TagTemplate.Proofs.Block.Matching
import TagTemplate.Proofs.Block.Steps
import TagTemplate.Proofs.Block.Strict
import Mathlib.Logic.Relation

/-!
# Where conditionals fail

Resolving the conditionals of a text calls itself for the part that is taken of
each block, and which parts these are depends on the context. It can only fail
where the blocks of a text are searched. Under the strict policy that is the
whole text alone: its search succeeds for balanced marks, the parts of its
blocks are balanced again, and so are all texts that calls reach. Under the
lenient policy no search fails.
-/

namespace TagTemplate.Conditional

variable {policy : Policy} {context : Context} {t u : Text} {e : Error}

/-! ## Calls -/

/-- Resolving a text resolves another, the part that is taken of one of its blocks. -/
def Calls (policy : Policy) (context : Context) (t u : Text) : Prop :=
  ∃ bs b part, Block.find .conditional policy t = .ok bs ∧ b ∈ bs ∧
    b.taken context = some part ∧ u = Text.slice t part

/-- **A text is resolved** if the blocks of all texts are found that calls reach from it. A call
is for a shorter text. -/
theorem exists_resolve_of_calls (h : ∀ u, Relation.ReflTransGen (Calls policy context) t u →
    ∃ bs, Block.find .conditional policy u = .ok bs) :
    ∃ r, resolve policy context t = .ok r := by
  induction hn : t.length using Nat.strongRecOn generalizing t with
  | _ n ih =>
      subst hn
      obtain ⟨bs, hbs⟩ := h t .refl
      have hedit : ∀ b ∈ bs, ∃ e, edit policy context t b = .ok e := by
        intro b hb
        cases htaken : b.taken context with
        | none => exact ⟨_, edit_of_none htaken⟩
        | some part =>
            have hcall : Calls policy context t (Text.slice t part) :=
              ⟨bs, b, part, hbs, hb, htaken, rfl⟩
            have hlength := length_taken_lt hbs hb htaken
            obtain ⟨r, hr⟩ := ih _ hlength (fun u hu => h u (.head hcall hu)) rfl
            exact ⟨(b.span, r), by rw [edit, htaken]; exact congrArg (Except.map _) hr⟩
      obtain ⟨edits, hedits⟩ := Fallible.exists_mapM_iff.2 hedit
      refine ⟨Text.splice t edits, ?_⟩
      rw [resolve_eq, hbs]
      show (bs.mapM (edit policy context t)).map _ = _
      rw [hedits]
      rfl

/-! ## Balanced conditionals -/

/-- The text of a call is balanced if the one that calls it is. -/
theorem Calls.balanced (h : Calls policy context t u)
    (ht : Block.Balanced (Block.roles (Block.marks .conditional (Tag.lex t)))) :
    Block.Balanced (Block.roles (Block.marks .conditional (Tag.lex u))) := by
  obtain ⟨bs, b, part, hbs, hb, htaken, rfl⟩ := h
  obtain ⟨bs', hruns⟩ := ht.runs
  obtain rfl : bs' = bs := Except.ok.inj ((Block.find_of_runs hruns policy).symm.trans hbs)
  obtain ⟨u, hu, hbalanced⟩ := Block.exists_slice_of_runs hruns hb (taken_cases htaken)
  rwa [Text.slice, hu, Option.getD_some]

/-- All texts that calls reach from a balanced one are balanced. -/
theorem balanced_of_calls (h : Relation.ReflTransGen (Calls policy context) t u)
    (ht : Block.Balanced (Block.roles (Block.marks .conditional (Tag.lex t)))) :
    Block.Balanced (Block.roles (Block.marks .conditional (Tag.lex u))) := by
  induction h with
  | refl => exact ht
  | tail _ hcall ih => exact hcall.balanced ih

/-- **Balanced conditionals** are resolved, whatever the context is. -/
theorem exists_resolve (policy : Policy) (context : Context)
    (h : Block.Balanced (Block.roles (Block.marks .conditional (Tag.lex t)))) :
    ∃ r, resolve policy context t = .ok r := by
  refine exists_resolve_of_calls fun u hu => ?_
  obtain ⟨bs, hbs⟩ := (balanced_of_calls hu h).runs
  exact ⟨bs, Block.find_of_runs hbs policy⟩

/-! ## Failures -/

/-- A text whose blocks are not found is not resolved. -/
theorem resolve_of_find (h : Block.find .conditional policy t = .error e) (context : Context) :
    resolve policy context t = .error e := by
  rw [resolve_eq, h]
  rfl

/-- Under the strict policy conditionals fail exactly where the search for the blocks of the whole
text does. -/
theorem resolve_strict_eq_error_iff (context : Context) (t : Text) (e : Error) :
    resolve .strict context t = .error e ↔ Block.find .conditional .strict t = .error e := by
  refine ⟨fun h => ?_, fun h => resolve_of_find h context⟩
  cases hfind : Block.find .conditional .strict t with
  | error e' =>
      cases (resolve_of_find hfind context).symm.trans h
      rfl
  | ok bs =>
      obtain ⟨r, hr⟩ := exists_resolve .strict context (Block.find_strict_iff.1 ⟨bs, hfind⟩)
      rw [hr] at h
      cases h

/-- A part that is taken is a part of the text. -/
theorem exists_slice_taken {bs : List Block} {b : Block} {part : Span}
    (hfind : Block.find .conditional policy t = .ok bs) (hb : b ∈ bs)
    (htaken : b.taken context = some part) : ∃ u, Text.slice? t part = some u :=
  Block.exists_slice_of_find hfind hb (taken_cases htaken)

/-- **Conditionals fail in the whole text or nowhere.** Under the strict policy the error is that
of the search for the blocks of the text, at a mark of the text. If there is none, no call fails at
any depth. Under the lenient policy nothing fails. So whether conditionals fail, and how, does not
depend on the context; and no call is for a part that the text does not have. -/
theorem resolve_fails_at_top (context : Context) (t : Text) :
    (∀ e, resolve .strict context t = .error e ↔ Block.find .conditional .strict t = .error e) ∧
      (∀ e, resolve .strict context t = .error e →
        ∃ m ∈ Block.marks .conditional (Tag.lex t), ∃ d,
          e = .malformed (Text.positionAt t m.span.start) d) ∧
      ((∃ bs, Block.find .conditional .strict t = .ok bs) →
        ∀ u, Relation.ReflTransGen (Calls .strict context) t u →
          ∃ r, resolve .strict context u = .ok r) ∧
      (∃ r, resolve .passThrough context t = .ok r) ∧
      (∀ context' e, resolve .strict context t = .error e ↔
        resolve .strict context' t = .error e) ∧
      ∀ policy bs b part, Block.find .conditional policy t = .ok bs → b ∈ bs →
        b.taken context = some part → ∃ u, Text.slice? t part = some u := by
  refine ⟨resolve_strict_eq_error_iff context t, ?_, ?_, ?_, ?_, ?_⟩
  · intro e he
    have hfind := (resolve_strict_eq_error_iff context t e).1 he
    rcases Block.find_strict_cases .conditional t with ⟨bs, hok, -⟩ | ⟨m, d, herror, hblamed⟩
    · cases hfind.symm.trans hok
    · cases hfind.symm.trans herror
      exact ⟨m, hblamed.mem, d, rfl⟩
  · intro hfound u hu
    exact exists_resolve .strict context (balanced_of_calls hu (Block.find_strict_iff.1 hfound))
  · exact exists_resolve_of_calls fun u _ => Block.exists_find_passThrough .conditional u
  · intro context' e
    rw [resolve_strict_eq_error_iff, resolve_strict_eq_error_iff]
  · exact fun policy bs b part hfind hb htaken => exists_slice_taken hfind hb htaken

end TagTemplate.Conditional
