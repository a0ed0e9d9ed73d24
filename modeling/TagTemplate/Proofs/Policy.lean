import TagTemplate.Render
import TagTemplate.Proofs.Conditional
import TagTemplate.Proofs.Inclusion.Basic

/-!
# Strict and lenient renders

The policy is asked wherever a defect is reported: in the references to
partials, in the pairing of both families of blocks, in the parts of
conditionals and in the links. `Relaxes` says what the lenient answer may be
beside the strict one: the same, unless the strict one is a defect, and never
a defect itself. Each step of a render keeps this relation, so a whole render
does.
-/

namespace TagTemplate

variable {α β : Type}

/-- A computation that failed with a defect of the template. -/
def Defective (x : Except Error α) : Prop := ∃ p d, x = .error (.malformed p d)

/-- A lenient computation beside a strict one. -/
def Relaxes (strict lenient : Except Error α) : Prop :=
  (Defective strict ∨ lenient = strict) ∧ ¬ Defective lenient

theorem not_defective_ok (a : α) : ¬ Defective (.ok a : Except Error α) := by
  intro hdefective
  obtain ⟨p, d, h⟩ := hdefective
  cases h

/-! ## Composing computations -/

theorem Relaxes.ok (a : α) : Relaxes (.ok a) (.ok a) := ⟨.inr rfl, not_defective_ok a⟩

theorem Defective.bind {x : Except Error α} (h : Defective x) (f : α → Except Error β) :
    Defective (x.bind f) := by
  obtain ⟨p, d, rfl⟩ := h
  exact ⟨p, d, rfl⟩

theorem Relaxes.bind {x y : Except Error α} {f g : α → Except Error β} (h : Relaxes x y)
    (hfg : ∀ a, y = .ok a → Relaxes (f a) (g a)) : Relaxes (x.bind f) (y.bind g) := by
  obtain ⟨hxy, hy⟩ := h
  constructor
  · rcases hxy with hx | rfl
    · exact .inl (hx.bind f)
    · cases y with
      | error e => exact .inr rfl
      | ok a => exact (hfg a rfl).1
  · cases y with
    | error e =>
        intro hdefective
        obtain ⟨p, d, h⟩ := hdefective
        exact hy ⟨p, d, by cases h; rfl⟩
    | ok a => exact (hfg a rfl).2

theorem Relaxes.map {x y : Except Error α} (h : Relaxes x y) (f : α → β) :
    Relaxes (x.map f) (y.map f) := by
  have hb : ∀ z : Except Error α, z.map f = z.bind fun a => .ok (f a) := by
    intro z
    cases z <;> rfl
  rw [hb, hb]
  exact h.bind fun a _ => .ok (f a)

theorem Relaxes.mapM {f g : α → Except Error β} {l : List α}
    (h : ∀ a ∈ l, Relaxes (f a) (g a)) : Relaxes (l.mapM f) (l.mapM g) := by
  induction l with
  | nil => exact .ok []
  | cons a l ih =>
      rw [List.mapM_cons, List.mapM_cons]
      apply Relaxes.bind (h a (by simp))
      intro b _
      exact Relaxes.bind (ih fun a' ha' => h a' (by simp [ha'])) fun bs _ => .ok (b :: bs)

/-! ## Reports and blocks -/

theorem Relaxes.report (text : Text) (offset : Nat) (defect : Defect) :
    Relaxes (TagTemplate.report .strict text offset defect)
      (TagTemplate.report .passThrough text offset defect) :=
  ⟨.inl ⟨_, _, rfl⟩, not_defective_ok ()⟩

theorem Relaxes.reportMalformed (forms : List Form) (text : Text) (tags : List Tag) :
    Relaxes (TagTemplate.reportMalformed .strict forms text tags)
      (TagTemplate.reportMalformed .passThrough forms text tags) := by
  induction tags with
  | nil => exact .ok ()
  | cons tag tags ih =>
      simp only [TagTemplate.reportMalformed]
      split
      · split
        · exact (Relaxes.report text _ _).bind (f := fun _ => _) (g := fun _ => _) fun _ _ => ih
        · exact ih
      · exact ih

theorem Relaxes.step (family : Family) (text : Text) (s : Block.Progress) (m : Block.Mark) :
    Relaxes (s.step family .strict text m) (s.step family .passThrough text m) := by
  simp only [Block.Progress.step]
  split
  · exact .ok _
  · exact (Relaxes.report text _ _).map _
  · split
    · exact .ok _
    · exact (Relaxes.report text _ _).map _
  · exact (Relaxes.report text _ _).map _
  · exact .ok _
  · exact .ok _
  · exact (Relaxes.report text _ _).map _

theorem Relaxes.run (family : Family) (text : Text) (s : Block.Progress) (ms : List Block.Mark) :
    Relaxes (s.run family .strict text ms) (s.run family .passThrough text ms) := by
  induction ms generalizing s with
  | nil => exact .ok s
  | cons m ms ih =>
      have hrun : ∀ policy, s.run family policy text (m :: ms) =
          (s.step family policy text m).bind fun s => s.run family policy text ms := by
        intro policy
        simp only [Block.Progress.run]
        cases s.step family policy text m <;> rfl
      rw [hrun, hrun]
      exact (Relaxes.step family text s m).bind fun s _ => ih s

/-- A lenient scan never fails, so neither does any number of them. -/
theorem not_defective_findWithin (family : Family) (text : Text) (scans : Nat)
    (ms : List Block.Mark) :
    ¬ Defective (Block.findWithin family .passThrough text scans ms) := by
  induction scans generalizing ms with
  | zero => exact not_defective_ok none
  | succ scans ih =>
      simp only [Block.findWithin]
      split
      next e he =>
        intro hdefective
        obtain ⟨p, d, h⟩ := hdefective
        cases h
        exact (Relaxes.run family text .start ms).2 ⟨p, d, he⟩
      · split
        · exact not_defective_ok _
        · exact ih _

/-- Where the strict scan finds every block closed, the lenient one scans no further. -/
theorem Relaxes.findWithin (family : Family) (text : Text) (scans : Nat)
    (ms : List Block.Mark) :
    Relaxes (Block.findWithin family .strict text scans ms)
      (Block.findWithin family .passThrough text scans ms) := by
  refine ⟨?_, not_defective_findWithin family text scans ms⟩
  cases scans with
  | zero => exact .inr rfl
  | succ scans =>
      have hrun := Relaxes.run family text .start ms
      simp only [Block.findWithin]
      rcases hrun.1 with ⟨p, d, hd⟩ | heq
      · rw [hd]
        exact .inl ⟨p, d, rfl⟩
      · rw [heq]
        cases hs : Block.Progress.start.run family .strict text ms with
        | error e => exact .inr rfl
        | ok s =>
            cases hp : s.pending.getLast? with
            | none => exact .inr (by simp only [hp])
            | some outermost =>
                simp only [hp]
                exact .inl ⟨_, _, rfl⟩

theorem Relaxes.find (family : Family) (text : Text) :
    Relaxes (Block.find family .strict text) (Block.find family .passThrough text) :=
  (Relaxes.findWithin family text _ _).map _

/-! ## The steps of a render -/

/-- The parts that are taken are shorter than the text, so the induction is on its length. -/
theorem Relaxes.resolve (context : Context) (text : Text) :
    Relaxes (Conditional.resolve .strict context text)
      (Conditional.resolve .passThrough context text) := by
  induction hn : text.length using Nat.strongRecOn generalizing text with
  | _ n ih =>
      rw [Conditional.resolve_eq, Conditional.resolve_eq]
      apply (Relaxes.find .conditional text).bind
      intro blocks hblocks
      refine (Relaxes.mapM fun b hb => ?_).map _
      simp only [Conditional.edit]
      split
      · exact .ok _
      next part hpart =>
        have hlt := Conditional.length_taken_lt hblocks hb hpart
        exact (ih _ (hn ▸ hlt) _ rfl).map _

theorem Relaxes.expand (context : Context) (text : Text) :
    Relaxes (Loop.expand .strict context text) (Loop.expand .passThrough context text) :=
  (Relaxes.find .loop text).map _

theorem Relaxes.writeLinks (pretty : Bool) (m : Marked) :
    Relaxes (m.writeLinks .strict pretty) (m.writeLinks .passThrough pretty) :=
  (Relaxes.reportMalformed [.link] m.text m.tags).map _

theorem Relaxes.finish (pretty : Bool) (depth : Nat) (context : Context) (text : Text) :
    Relaxes (Renderer.finish ⟨pretty, .strict, depth⟩ context text)
      (Renderer.finish ⟨pretty, .passThrough, depth⟩ context text) := by
  apply (Relaxes.resolve context text).bind
  intro text _
  apply (Relaxes.expand context text).bind
  intro marked _
  exact (Relaxes.writeLinks pretty (marked.fillValues context)).bind fun marked _ =>
    .ok (Text.trim marked.clean)

/-! ## Partials -/

namespace Inclusion

/-- A lenient resolution beside a strict one, the registries they leave among what they give. -/
def Relaxes (strict lenient : Except Error α × Registry) : Prop :=
  (Defective strict.1 ∨ lenient = strict) ∧ ¬ Defective lenient.1

theorem Relaxes.of_not_defective {x : Except Error α × Registry} (h : ¬ Defective x.1) :
    Relaxes x x := ⟨.inr rfl, h⟩

theorem Relaxes.andThen {x y : Except Error α × Registry}
    {f g : α → Registry → Except Error β × Registry} (h : Relaxes x y)
    (hfg : ∀ a r, Relaxes (f a r) (g a r)) :
    Relaxes (Inclusion.andThen x f) (Inclusion.andThen y g) := by
  obtain ⟨hxy, hy⟩ := h
  constructor
  · rcases hxy with ⟨p, d, hx⟩ | rfl
    · obtain ⟨x, r⟩ := x
      cases hx
      exact .inl ⟨p, d, rfl⟩
    · obtain ⟨y | a, r⟩ := y
      · exact .inr rfl
      · exact (hfg a r).1
  · obtain ⟨e | a, r⟩ := y
    · intro hdefective
      obtain ⟨p, d, h⟩ := hdefective
      cases h
      exact hy ⟨p, d, rfl⟩
    · exact (hfg a r).2

variable {resolve₁ resolve₂ : Text → Registry → Except Error Text × Registry}

theorem Relaxes.contents (h : ∀ name r, Relaxes (resolve₁ name r) (resolve₂ name r))
    (refs : List (Span × Text)) (r : Registry) :
    Relaxes (Inclusion.contents resolve₁ refs r) (Inclusion.contents resolve₂ refs r) := by
  induction refs generalizing r with
  | nil => exact .of_not_defective (not_defective_ok [])
  | cons ref refs ih =>
      rw [contents_cons, contents_cons]
      apply (h ref.2 r).andThen
      intro content r
      exact (ih r).andThen fun edits r => .of_not_defective (not_defective_ok _)

theorem Relaxes.expandWith (h : ∀ name r, Relaxes (resolve₁ name r) (resolve₂ name r))
    (text : Text) (r : Registry) :
    Relaxes (Inclusion.expandWith .strict resolve₁ text r)
      (Inclusion.expandWith .passThrough resolve₂ text r) := by
  rw [expandWith_eq, expandWith_eq]
  have hreport := TagTemplate.Relaxes.reportMalformed [.inclusion] text (Tag.lex text)
  refine Relaxes.andThen ⟨?_, hreport.2⟩ fun _ r => ?_
  · rcases hreport.1 with hd | heq
    · exact .inl hd
    · rw [heq]
      exact .inr rfl
  · exact (Relaxes.contents h _ r).andThen fun edits r => .of_not_defective (not_defective_ok _)

/-- Loaders report no defects. -/
theorem not_defective_ask (loader : Loader) (request : Request) :
    ¬ Defective (loader.ask request) := by
  intro hdefective
  obtain ⟨p, d, h⟩ := hdefective
  simp only [Loader.ask] at h
  split at h <;> cases h

theorem not_defective_cyclic (chain : List Text) :
    ¬ Defective (.error (.cyclic chain) : Except Error Text) := by
  intro hdefective
  obtain ⟨p, d, h⟩ := hdefective
  cases h

theorem not_defective_tooDeep (name : Text) (limit : Nat) :
    ¬ Defective (.error (.tooDeep name limit) : Except Error Text) := by
  intro hdefective
  obtain ⟨p, d, h⟩ := hdefective
  cases h

/-- A nested expansion has less room, so the induction is on the room. -/
theorem Relaxes.resolve (loader : Loader) (depth room : Nat) (chain : List Text) (name : Text)
    (r : Registry) :
    Relaxes (Inclusion.resolve loader ⟨.strict, depth⟩ room chain name r)
      (Inclusion.resolve loader ⟨.passThrough, depth⟩ room chain name r) := by
  induction room using Nat.strongRecOn generalizing chain name r with
  | _ room ih =>
      cases hr : r.expanded.find? name with
      | some content =>
          rw [resolve_of_expanded hr, resolve_of_expanded hr]
          exact .of_not_defective (not_defective_ok content)
      | none =>
          by_cases hmem : name ∈ chain
          · rw [resolve_of_mem_chain hr hmem, resolve_of_mem_chain hr hmem]
            exact .of_not_defective (not_defective_cyclic _)
          · cases room with
            | zero =>
                rw [resolve_zero hr hmem, resolve_zero hr hmem]
                exact .of_not_defective (not_defective_tooDeep name depth)
            | succ room =>
                rw [resolve_succ hr hmem, resolve_succ hr hmem]
                apply Relaxes.andThen (.of_not_defective (not_defective_ask _ _))
                intro raw r
                refine Relaxes.andThen (Relaxes.expandWith (fun name r => ?_) raw r)
                  fun content r => ?_
                · exact ih room (Nat.lt_succ_self room) _ name r
                · exact .of_not_defective (not_defective_ok content)

end Inclusion

/-! ## A whole render -/

/-- **Pass-through extends strict.** A strict render that does not fail with a defect has the
result of the lenient render, and the lenient render never fails with one. -/
theorem renderText_passThrough_extends_strict (pretty : Bool) (depth : Nat) (loader : Loader)
    (context : Context) (text : Text) :
    let strict := (Renderer.mk pretty ⟨.strict, depth⟩).renderText loader context text
    let lenient := (Renderer.mk pretty ⟨.passThrough, depth⟩).renderText loader context text
    ((∀ position defect, strict.result ≠ .error (.malformed position defect)) →
      lenient.result = strict.result) ∧
    ∀ position defect, lenient.result ≠ .error (.malformed position defect) := by
  intro strict lenient
  have hexpand : Inclusion.Relaxes (Registry.empty.expand loader ⟨.strict, depth⟩ text)
      (Registry.empty.expand loader ⟨.passThrough, depth⟩ text) :=
    Inclusion.Relaxes.expandWith
      (fun name r => Inclusion.Relaxes.resolve loader depth depth [] name r) text .empty
  have hrender : Relaxes strict.result lenient.result := by
    have hfst : Relaxes (Registry.empty.expand loader ⟨.strict, depth⟩ text).1
        (Registry.empty.expand loader ⟨.passThrough, depth⟩ text).1 :=
      ⟨hexpand.1.imp_right fun h => by rw [h], hexpand.2⟩
    exact hfst.bind fun text _ => Relaxes.finish pretty depth context text
  constructor
  · intro hstrict
    rcases hrender.1 with ⟨p, d, h⟩ | h
    · exact absurd h (hstrict p d)
    · exact h
  · intro p d h
    exact hrender.2 ⟨p, d, h⟩

end TagTemplate
