import TagTemplate.Proofs.CheckedRender
import TagTemplate.Proofs.Leftover
import TagTemplate.Proofs.Marked.Vanishing
import TagTemplate.Proofs.Policy

/-!
# Data and defects

What a context is printed as does not decide whether a strict render reports a
defect, with one exception. A link has no URL if the values in its URL are
nothing, and values that are nothing may also bring the parts of such a link
together. So of contexts of one outline the one fails as the other does, unless
it is for a link without a URL, and then a scalar is printed as nothing in the
one context and as something in the other.
-/

namespace TagTemplate

variable {c c' : Context} {loader : Loader} {text : Text}

/-! ## Filling in contexts of one outline -/

theorem blank_fillValues_of_fading (h : c.Matched Text.Fades c') (blocks : List Block)
    (hblank : Ink.Blank
      ((Marked.ofPieces (Loop.expandFrom c text 0 blocks)).fillValues c).marks) :
    Ink.Blank ((Marked.ofPieces (Loop.expandFrom c' text 0 blocks)).fillValues c').marks := by
  rw [Marked.marks_fillValues (Marked.separate_ofPieces _), Marked.marks_ofPieces] at hblank ⊢
  exact hblank.of_fading (Loop.matched_expandFrom h text 0 blocks) h.value

/-- With contexts of one outline the steps that use the context fail alike, or give texts of which
the one has its blank links again in the other, if its values vanish there. -/
theorem insertContext_of_outline (h : c.SameOutline c') (policy : Policy) (text : Text) :
    (∃ e, insertContext policy c text = .error e ∧ insertContext policy c' text = .error e) ∨
      ∃ m m', insertContext policy c text = .ok m ∧ insertContext policy c' text = .ok m' ∧
        (c.Matched Text.Fades c' → Ink.Blank m.marks → Ink.Blank m'.marks) := by
  rw [insertContext, insertContext, Conditional.resolve_congr h.isTruthy_eq]
  cases Conditional.resolve policy c' text with
  | error e => exact .inl ⟨e, rfl, rfl⟩
  | ok text =>
      simp only [Except.bind, Loop.expand]
      cases Block.find .loop policy text with
      | error e => exact .inl ⟨e, rfl, rfl⟩
      | ok blocks =>
          exact .inr ⟨_, _, rfl, rfl, fun hfades => blank_fillValues_of_fading hfades blocks⟩

namespace Renderer

/-- The steps of a render up to filling in the context. -/
def inserted (r : Renderer) (loader : Loader) (context : Context) (text : Text) :
    Except Error Marked :=
  (Registry.empty.expand loader r.rules text).1.bind (insertContext r.rules.policy context)

theorem renderText_eq_bind_inserted (r : Renderer) (loader : Loader) (context : Context)
    (text : Text) : (r.renderText loader context text).result =
      (r.inserted loader context text).bind fun m =>
        (m.writeLinks r.rules.policy r.prettyLinks).map fun m => Text.trim m.clean := by
  show (Registry.empty.expand loader r.rules text).1.bind (r.finish context) = _
  rw [inserted]
  cases (Registry.empty.expand loader r.rules text).1 with
  | error e => rfl
  | ok text => exact finish_eq r context text

theorem inserted_of_outline (h : c.SameOutline c') (r : Renderer) (loader : Loader) (text : Text) :
    (∃ e, r.inserted loader c text = .error e ∧ r.inserted loader c' text = .error e) ∨
      ∃ m m', r.inserted loader c text = .ok m ∧ r.inserted loader c' text = .ok m' ∧
        (c.Matched Text.Fades c' → Ink.Blank m.marks → Ink.Blank m'.marks) := by
  rw [inserted, inserted]
  cases (Registry.empty.expand loader r.rules text).1 with
  | error e => exact .inl ⟨e, rfl, rfl⟩
  | ok text => exact insertContext_of_outline h r.rules.policy text

theorem separate_of_inserted {r : Renderer} {m : Marked}
    (h : r.inserted loader c text = .ok m) : Separate m.pieces := by
  obtain ⟨expanded, -, hinsert⟩ := Fallible.bind_eq_ok_iff.1 h
  obtain ⟨resolved, -, hloops⟩ := Fallible.bind_eq_ok_iff.1 hinsert
  obtain ⟨loops, -, rfl⟩ := Fallible.map_eq_ok_iff.1 hloops
  exact Marked.separate_fillValues loops c

/-! ## Strict renders -/

section Strict

variable {pretty : Bool} {depth : Nat}

/-- A strict render that has filled in the context fails for a blank link or not at all. -/
theorem renderText_of_inserted {m : Marked}
    (h : (Renderer.mk pretty ⟨.strict, depth⟩).inserted loader c text = .ok m) :
    (¬ Ink.Blank m.marks ∧
        ∃ s, ((Renderer.mk pretty ⟨.strict, depth⟩).renderText loader c text).result =
          .ok s) ∨
      (Ink.Blank m.marks ∧
        ∃ p, ((Renderer.mk pretty ⟨.strict, depth⟩).renderText loader c text).result =
          .error (.malformed p (.badTag .link .emptyUrl))) := by
  rw [renderText_eq_bind_inserted, h]
  show (_ ∧ ∃ s, (m.writeLinks .strict pretty).map _ = _) ∨
    (_ ∧ ∃ p, (m.writeLinks .strict pretty).map _ = _)
  rcases Marked.writeLinks_strict (separate_of_inserted h) pretty with
    ⟨hblank, m', hm'⟩ | ⟨hblank, p, hp⟩
  · rw [hm']
    exact .inl ⟨hblank, _, rfl⟩
  · rw [hp]
    exact .inr ⟨hblank, p, rfl⟩

theorem defective_iff_blank {m : Marked}
    (h : (Renderer.mk pretty ⟨.strict, depth⟩).inserted loader c text = .ok m) :
    Defective ((Renderer.mk pretty ⟨.strict, depth⟩).renderText loader c text).result ↔
      Ink.Blank m.marks := by
  rcases renderText_of_inserted h with ⟨hblank, s, hs⟩ | ⟨hblank, p, hp⟩
  · rw [hs]
    exact iff_of_false (not_defective_ok s) hblank
  · exact iff_of_true ⟨p, _, hp⟩ hblank

/-- An error that is not about a blank link does not depend on what is printed. -/
theorem renderText_error_of_outline (h : c.SameOutline c') {e : Error}
    (he : ∀ p, e ≠ .malformed p (.badTag .link .emptyUrl))
    (herror : ((Renderer.mk pretty ⟨.strict, depth⟩).renderText loader c text).result =
      .error e) :
    ((Renderer.mk pretty ⟨.strict, depth⟩).renderText loader c' text).result = .error e := by
  rcases inserted_of_outline h ⟨pretty, ⟨.strict, depth⟩⟩ loader text with
    ⟨d, hd, hd'⟩ | ⟨m, m', hm, hm', -⟩
  · rw [renderText_eq_bind_inserted, hd] at herror
    rw [renderText_eq_bind_inserted, hd']
    exact herror
  · rcases renderText_of_inserted hm with ⟨-, s, hs⟩ | ⟨-, p, hp⟩
    · cases hs.symm.trans herror
    · cases hp.symm.trans herror
      exact absurd rfl (he p)

/-- A strict render that fails still fails when more scalars are printed as nothing. -/
theorem defective_of_fading (h : c.SameOutline c')
    (hfades : ∀ t t', c.Facing c' t t' → Text.Fades t t')
    (hdefective : Defective
      ((Renderer.mk pretty ⟨.strict, depth⟩).renderText loader c text).result) :
    Defective ((Renderer.mk pretty ⟨.strict, depth⟩).renderText loader c' text).result := by
  rcases inserted_of_outline h ⟨pretty, ⟨.strict, depth⟩⟩ loader text with
    ⟨e, he, he'⟩ | ⟨m, m', hm, hm', hblank⟩
  · rw [renderText_eq_bind_inserted, he] at hdefective
    rw [renderText_eq_bind_inserted, he']
    exact hdefective
  · rw [defective_iff_blank hm] at hdefective
    exact (defective_iff_blank hm').2 (hblank (h.matched hfades) hdefective)

end Strict

end Renderer

/-- **Data and defects.** Let two contexts have one outline, and let a text be rendered with both
under the strict policy. Any error but that of a link without a URL is an error of both renders. If
scalars that face each other are printed as nothing both or neither, the one render fails with a
defect exactly if the other does. And whenever the first one does and the other does not, a scalar
of the first context is printed as nothing and the one that it faces is not. -/
theorem renderText_defective_of_outline (h : c.SameOutline c') (pretty : Bool) (depth : Nat)
    (loader : Loader) (text : Text) :
    let result := fun context =>
      ((Renderer.mk pretty ⟨.strict, depth⟩).renderText loader context text).result
    (∀ e, (∀ p, e ≠ .malformed p (.badTag .link .emptyUrl)) →
      (result c = .error e ↔ result c' = .error e)) ∧
    ((∀ t t', c.Facing c' t t' → (t = [] ↔ t' = [])) →
      (Defective (result c) ↔ Defective (result c'))) ∧
    (Defective (result c) → ¬ Defective (result c') →
      ∃ t t', c.Facing c' t t' ∧ t = [] ∧ t' ≠ []) := by
  intro result
  refine ⟨fun e he => ⟨?_, ?_⟩, fun halike => ⟨?_, ?_⟩, fun hdefective hsound => ?_⟩
  · exact Renderer.renderText_error_of_outline h he
  · exact Renderer.renderText_error_of_outline h.symm he
  · exact Renderer.defective_of_fading h fun t t' hfacing => (halike t t' hfacing).1
  · exact Renderer.defective_of_fading h.symm fun t t' hfacing =>
      (halike t' t hfacing.symm).2
  · by_contra hnone
    refine hsound (Renderer.defective_of_fading h (fun t t' hfacing hempty => ?_) hdefective)
    by_contra hne
    exact hnone ⟨t, t', hfacing, hempty, hne⟩

section EmptyUrl

/-- A placeholder in the URL of a link, rendered with some value. -/
def renderUrl (value : Text) : Except Error Text :=
  ((Renderer.mk false ⟨.strict, 32⟩).renderText (fun _ _ => .error .noSuchSource)
    (.single "x".toList (.text value)) "\x7b\x7b#link:\x7b\x7bx\x7d\x7d\x7d\x7d".toList).result

theorem defective_renderUrl_nil : Defective (renderUrl []) := by
  have hresult : renderUrl [] = .error (.malformed ⟨1, 1⟩ (.badTag .link .emptyUrl)) := by
    decide +kernel
  exact ⟨_, _, hresult⟩

theorem not_defective_renderUrl_zero : ¬ Defective (renderUrl ['0']) := by
  have hresult : renderUrl ['0'] = .ok ['0'] := by decide +kernel
  rw [hresult]
  exact not_defective_ok _

/-- Two values that are false, nothing and the text `0`. -/
theorem renderText_defective_of_outline_of_empty :
    let empty := Context.single "x".toList (.text [])
    let zero := Context.single "x".toList (.text ['0'])
    empty.SameOutline zero ∧ ∃ t t', empty.Facing zero t t' ∧ t = [] ∧ t' ≠ [] := by
  intro empty zero
  have houtline : empty.SameOutline zero := Context.matched_single _ (by decide) trivial
  exact ⟨houtline, (renderText_defective_of_outline houtline false 32 _ _).2.2
    defective_renderUrl_nil not_defective_renderUrl_zero⟩

/-- **An empty value can make a link malformed.** The values are false in both contexts. -/
theorem exists_outline_defective :
    (Context.single "x".toList (.text [])).SameOutline (.single "x".toList (.text ['0'])) ∧
      Defective (renderUrl []) ∧ ¬ Defective (renderUrl ['0']) :=
  ⟨Context.matched_single _ (by decide) trivial, defective_renderUrl_nil,
    not_defective_renderUrl_zero⟩

end EmptyUrl

end TagTemplate
