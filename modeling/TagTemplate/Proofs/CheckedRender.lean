import TagTemplate.Proofs.Block.Nested
import TagTemplate.Proofs.Conditional.Failure
import TagTemplate.Proofs.Noninterference
import TagTemplate.Proofs.Tree.Render

/-!
# Rendering a checked text

A check looks at the tags of the text as it stands, at each family of blocks by
itself. What it has found in order about the conditionals stays so: they are
resolved whatever the context is. The loops it has seen only before conditionals
are resolved, and the links only before values are filled in, so these may still
fail: loops if a conditional takes one of their tags away or a seam makes one,
links if what stands in a URL comes to nothing. A text whose blocks are nested
does not fail for its loops, and with values that are not empty it does not fail
at all.
-/

namespace TagTemplate

variable {family : Family} {policy : Policy} {context : Context} {t : Text}

/-! ## What a check knows -/

/-- The family of blocks that a defect is about. -/
def Defect.family? : Defect → Option Family
  | badTag _ _ => none
  | badOpener family _ => some family
  | secondElse => some .conditional
  | strayElse => some .conditional
  | strayCloser family => some family
  | unterminated family => some family

/-- A check passes exactly if no partial or link is malformed and the blocks of either family are
balanced. -/
theorem check_eq_ok_iff :
    check t = .ok () ↔ Faultless [.inclusion, .link] (Tag.lex t) ∧
      ∀ family, Block.Balanced (Block.roles (Block.marks family (Tag.lex t))) := by
  have hfamilies : (∀ family, Block.Balanced (Block.roles (Block.marks family (Tag.lex t)))) ↔
      (∃ bs, Block.find .conditional .strict t = .ok bs) ∧
        ∃ bs, Block.find .loop .strict t = .ok bs := by
    simp only [← Block.find_strict_iff]
    constructor
    · exact fun h => ⟨h .conditional, h .loop⟩
    · intro hboth family
      cases family with
      | conditional => exact hboth.1
      | loop => exact hboth.2
  have hreport : Faultless [.inclusion, .link] (Tag.lex t) ↔
      reportMalformed .strict [.inclusion, .link] t (Tag.lex t) = .ok () := by
    rw [reportMalformed_eq_ok_iff]
    exact ⟨fun h _ => h, fun h => h rfl⟩
  rw [hfamilies, hreport, check]
  cases reportMalformed .strict [.inclusion, .link] t (Tag.lex t) with
  | error e => simp [bind, Except.bind]
  | ok _ =>
      cases Block.find .conditional .strict t with
      | error e => simp [bind, Except.bind]
      | ok bs => cases Block.find .loop .strict t <;> simp [bind, Except.bind, pure, Except.pure]

/-! ## Loops -/

namespace Block

theorem role?_loop_ne_divides (k : Tag.Kind) : role? .loop k ≠ some .divides := by
  cases k with
  | malformed form fault => cases form <;> exact fun h => nomatch h
  | _ => exact fun h => nomatch h

/-- Only conditionals have dividers. -/
theorem family_of_divides {m : Mark} (hm : m ∈ marks family (Tag.lex t)) (h : m.role = .divides) :
    family = .conditional := by
  obtain ⟨tag, -, hrole, -⟩ := exists_tag_of_mem_marks hm
  rw [h] at hrole
  cases family with
  | conditional => rfl
  | loop => exact absurd hrole (role?_loop_ne_divides tag.kind)

theorem Misfit.family_eq {w : List Role} {r : Role} {d : Defect} (h : Misfit family w r d)
    (hr : r = .divides → family = .conditional) : d.family? = some family := by
  cases h with
  | strayCloser _ => rfl
  | strayElse _ => rw [hr rfl]; rfl
  | secondElse _ _ => rw [hr rfl]; rfl
  | badOpener _ => rfl

/-- A strict search fails with a defect of its family. -/
theorem find_error {e : Error} (h : find family .strict t = .error e) :
    ∃ p d, e = .malformed p d ∧ d.family? = some family := by
  rcases find_strict_cases family t with ⟨bs, hok, -⟩ | ⟨m, d, herror, hblamed⟩
  · rw [h] at hok
    cases hok
  · rw [h] at herror
    cases herror
    refine ⟨_, d, rfl, ?_⟩
    have hdivides := family_of_divides hblamed.mem
    cases hblamed with
    | misfit _ _ _ hd => exact hd.family_eq hdivides
    | unclosed _ _ _ _ _ => rfl

end Block

/-- **Balanced loops** are expanded, whatever the context is. -/
theorem Loop.exists_expand (policy : Policy) (context : Context)
    (h : Block.Balanced (Block.roles (Block.marks .loop (Tag.lex t)))) :
    ∃ m, Loop.expand policy context t = .ok m := by
  obtain ⟨bs, hbs⟩ := h.runs
  exact ⟨_, by rw [Loop.expand, Block.find_of_runs hbs policy]; rfl⟩

/-- Under the strict policy loops fail with nothing but a defect of a loop. -/
theorem Loop.expand_strict (context : Context) (t : Text) :
    (∃ m, Loop.expand .strict context t = .ok m) ∨
      ∃ p d, Loop.expand .strict context t = .error (.malformed p d) ∧
        d.family? = some .loop := by
  rw [Loop.expand]
  cases hloops : Block.find .loop .strict t with
  | error e =>
      obtain ⟨p, d, rfl, hd⟩ := Block.find_error hloops
      exact .inr ⟨p, d, rfl, hd⟩
  | ok bs => exact .inl ⟨_, rfl⟩

/-! ## Links -/

/-- Under the strict policy links are written unless one has no URL. -/
theorem Marked.writeLinks_strict {m : Marked} (hm : Separate m.pieces) (pretty : Bool) :
    (¬ Ink.Blank m.marks ∧ ∃ m', m.writeLinks .strict pretty = .ok m') ∨
      (Ink.Blank m.marks ∧ ∃ p,
        m.writeLinks .strict pretty = .error (.malformed p (.badTag .link .emptyUrl))) := by
  have hblank : Faultless [.link] m.tags ↔ ¬ Ink.Blank m.marks := by
    rw [Marked.tags_eq hm, Ink.faultless_link_iff]
  rcases reportMalformed_strict [.link] m.text m.tags with
    ⟨hok, hall⟩ | ⟨hnot, tag, htag, form, hform, fault, hkind, herror⟩
  · refine .inl ⟨hblank.1 hall, m.splice (m.tags.filterMap (link? pretty)), ?_⟩
    rw [writeLinks, hok]
    rfl
  · refine .inr ⟨by_contra fun h => hnot (hblank.2 h), Text.positionAt m.text tag.span.start, ?_⟩
    rw [List.mem_singleton.1 hform] at hkind herror
    rw [Tag.fault_of_link (List.mem_filter.1 htag).1 hkind] at herror
    rw [writeLinks, herror]
    rfl

/-! ## A whole render -/

/-- No scalar of the context renders empty, no field of a row either. -/
structure Context.Filled (context : Context) : Prop where
  values : Ink.Filled context.value
  rows : context.RowsFilled

theorem Context.filled_single (key : Text) {s : Scalar} (hs : s.render ≠ []) :
    (Context.single key s).Filled := by
  have hfind : ∀ k, (Context.single key s).find? k = if key = k then some (.scalar s) else none :=
    fun _ => rfl
  constructor
  · intro k t ht
    rw [Context.value, Context.scalar?, hfind] at ht
    split at ht
    · cases ht
      exact hs
    · cases ht
  · intro k row hrow
    rw [Context.rows, hfind] at hrow
    split at hrow <;> cases hrow

theorem Faultless.mono {forms forms' : List Form} {tags : List Tag} (h : Faultless forms tags)
    (hsub : forms' ⊆ forms) : Faultless forms' tags :=
  fun tag htag form fault hkind hform => h tag htag form fault hkind (hsub hform)

/-- A text without references is left as it is. -/
theorem Registry.expand_of_references {loader : Loader} {rules : Rules}
    (hrefs : Inclusion.references t = []) (hfaultless : Faultless [.inclusion] (Tag.lex t)) :
    (Registry.empty.expand loader rules t).1 = .ok t := by
  have hreport : reportMalformed rules.policy [.inclusion] t (Tag.lex t) = .ok () :=
    reportMalformed_eq_ok_iff.2 fun _ => hfaultless
  rw [Registry.expand, Inclusion.expandWith_eq, hreport, Inclusion.andThen_ok, hrefs]
  exact congrArg Except.ok (Text.splice_nil t)

theorem Renderer.renderText_of_references {r : Renderer} {loader : Loader}
    (hrefs : Inclusion.references t = []) (hfaultless : Faultless [.inclusion] (Tag.lex t)) :
    (r.renderText loader context t).result = r.finish context t := by
  show (Registry.empty.expand loader r.rules t).1.bind (r.finish context) = _
  rw [Registry.expand_of_references hrefs hfaultless]
  rfl

/-- In a text with nested blocks and no blank link the loops expand when its conditionals are
resolved, and values that are not empty make no link blank. -/
theorem Text.Nested.exists_expand {resolved : Text} (h : Text.Nested t)
    (hlinks : Faultless [.link] (Tag.lex t))
    (hresolve : Conditional.resolve .strict context t = .ok resolved) :
    ∃ m, Loop.expand .strict context resolved = .ok m ∧
      (context.Filled → ¬ Ink.Blank (m.fillValues context).marks) := by
  obtain ⟨u, hu⟩ := h.exists_resolved .strict context
  obtain rfl : u = resolved := Except.ok.inj (hu.settles.resolve.symm.trans hresolve)
  obtain ⟨w, hexpanded⟩ := hu.nested.exists_expanded context
  obtain ⟨m, hm, hseparate, hmarks⟩ := hexpanded.unrolls.expand .strict
  refine ⟨m, hm, fun hfilled hblank => ?_⟩
  rw [Marked.marks_fillValues hseparate, hmarks] at hblank
  have htext := hu.blank (hexpanded.blank hfilled.rows (hfilled.values.blank hblank))
  refine Ink.faultless_link_iff.1 ?_ htext
  rw [Ink.tags_ofText_template]
  exact hlinks

/-- **A checked text**, rendered under the strict policy, fails only for what the render itself has
made: for a loop, if the text has conditionals and its blocks are not nested, or for a link
without a URL, if they are not nested or some value is empty. -/
theorem Renderer.renderText_of_check (pretty : Bool) (depth : Nat) (loader : Loader)
    (context : Context) (text : Text) (hrefs : Inclusion.references text = [])
    (hcheck : check text = .ok ()) :
    let result := ((Renderer.mk pretty ⟨.strict, depth⟩).renderText loader context text).result
    (∃ s, result = .ok s) ∨ ∃ position defect, result = .error (.malformed position defect) ∧
      ((defect.family? = some .loop ∧ Block.marks .conditional (Tag.lex text) ≠ [] ∧
          ¬ Text.Nested text) ∨
        (defect = .badTag .link .emptyUrl ∧ ¬ (Text.Nested text ∧ context.Filled))) := by
  intro result
  obtain ⟨hfaultless, hbalanced⟩ := check_eq_ok_iff.1 hcheck
  obtain ⟨resolved, hresolve⟩ := Conditional.exists_resolve .strict context
    (hbalanced .conditional)
  have hnested := fun h : Text.Nested text => h.exists_expand (hfaultless.mono (by simp)) hresolve
  have hresult : result =
      ((Loop.expand .strict context resolved).map (Marked.fillValues context)).bind fun m =>
        (m.writeLinks .strict pretty).map fun m => Text.trim m.clean := by
    rw [show result = _ from Renderer.renderText_of_references hrefs (hfaultless.mono (by simp)),
      Renderer.finish_eq, insertContext, hresolve]
    rfl
  rcases Loop.expand_strict context resolved with ⟨m, hm⟩ | ⟨p, d, herror, hfamily⟩
  · -- the loops are expanded, so what can fail are the links
    rw [hm] at hresult
    rcases Marked.writeLinks_strict (Marked.separate_fillValues m context) pretty with
      ⟨-, m', hm'⟩ | ⟨hblank, p, hp⟩
    · refine .inl ⟨Text.trim m'.clean, hresult.trans ?_⟩
      show Except.map _ (Marked.writeLinks _ _ _) = _
      rw [hm']
      rfl
    · refine .inr ⟨p, .badTag .link .emptyUrl, hresult.trans ?_, .inr ⟨rfl, fun hboth => ?_⟩⟩
      · show Except.map _ (Marked.writeLinks _ _ _) = _
        rw [hp]
        rfl
      · obtain ⟨m', hm', hsound⟩ := hnested hboth.1
        cases hm.symm.trans hm'
        exact hsound hboth.2 hblank
  · rw [herror] at hresult
    refine .inr ⟨p, d, hresult, .inl ⟨hfamily, fun hnone => ?_, fun h => ?_⟩⟩
    · -- without conditionals the loops are those that were checked
      have hself : Conditional.resolve .strict context text = .ok text :=
        (Conditional.Settles.of_marks hnone).resolve
      cases hself.symm.trans hresolve
      obtain ⟨m, hm⟩ := Loop.exists_expand .strict context (hbalanced .loop)
      cases hm.symm.trans herror
    · obtain ⟨m, hm, -⟩ := hnested h
      cases hm.symm.trans herror

/-! ## Printed trees -/

theorem Text.Nested.leaf {s b : Text} (hs : ∀ family, Leaf family s) (hb : Text.Nested b) :
    Text.Nested (s ++ b) :=
  .append (hs .conditional).isSealed (.flat (hs .conditional).marks (hs .loop).marks) hb

/-- The blocks of a printed tree are nested. -/
theorem Tree.nested_print (t : Tree) : Text.Nested t.print := by
  induction t with
  | nil => exact .flat rfl rfl
  | text t rest ih => exact .leaf (fun family => leaf_text family t) ih
  | value key rest ih => exact .leaf (fun family => leaf_value family key) ih
  | choice key body rest ihb ih =>
      have hwhole := Text.Nested.choice (Word.ifOpen key).spells Word.ifClose.spells
        body.sealed_print ihb
      have hsealed := (Text.sealed_of_spells (Word.ifOpen key).spells).append
        (body.sealed_print.append (Text.sealed_of_spells Word.ifClose.spells))
      have hboth := Text.Nested.append hsealed hwhole ih
      rwa [List.append_assoc, List.append_assoc] at hboth
  | choiceElse key body alternative rest ihb iha ih =>
      have hwhole := Text.Nested.choiceElse (Word.ifOpen key).spells Word.ifElse.spells
        Word.ifClose.spells body.sealed_print alternative.sealed_print ihb iha
      have hsealed := (Text.sealed_of_spells (Word.ifOpen key).spells).append
        (body.sealed_print.append ((Text.sealed_of_spells Word.ifElse.spells).append
          (alternative.sealed_print.append (Text.sealed_of_spells Word.ifClose.spells))))
      have hboth := Text.Nested.append hsealed hwhole ih
      rwa [List.append_assoc, List.append_assoc, List.append_assoc, List.append_assoc] at hboth
  | loop key body rest ihb ih =>
      have hwhole := Text.Nested.loop (Word.loopOpen key).spells Word.loopClose.spells
        body.sealed_print ihb
      have hsealed := (Text.sealed_of_spells (Word.loopOpen key).spells).append
        (body.sealed_print.append (Text.sealed_of_spells Word.loopClose.spells))
      have hboth := Text.Nested.append hsealed hwhole ih
      rwa [List.append_assoc, List.append_assoc] at hboth
  | link parts rest ih =>
      have hlink := Text.Nested.leaf (fun family => leaf_link family parts) ih
      rwa [List.append_assoc, List.append_assoc] at hlink
  | inclusion name rest ih =>
      exact .leaf (fun family => leaf_word _ (Word.isMark_inclusion name)
        (by cases family <;> rfl)) ih

/-- A loop in a conditional, with a link in it. -/
theorem Renderer.renderText_of_check_of_loop :
    let key : Key := ⟨['k'], by decide, by decide⟩
    let t : Tree := .choice key (.loop key (.link [.value key] .nil) .nil) .nil
    let context := Context.single ['k'] (.text "!".toList)
    let loader : Loader := fun _ _ => .error .noSuchSource
    (Inclusion.references t.print = [] ∧ check t.print = .ok () ∧ Text.Nested t.print ∧
      context.Filled) ∧
      ∃ s, ((Renderer.mk true ⟨.strict, 0⟩).renderText loader context t.print).result = .ok s := by
  intro key t context loader
  have hrefs : Inclusion.references t.print = [] := by decide +kernel
  have hcheck : check t.print = .ok () := by decide +kernel
  have hfilled : context.Filled := Context.filled_single _ (by decide)
  refine ⟨⟨hrefs, hcheck, t.nested_print, hfilled⟩, ?_⟩
  rcases Renderer.renderText_of_check true 0 loader context t.print hrefs hcheck with
    hok | ⟨_, _, -, ⟨-, -, hloop⟩ | ⟨-, hlink⟩⟩
  · exact hok
  · exact absurd t.nested_print hloop
  · exact absurd ⟨t.nested_print, hfilled⟩ hlink

/-- **A check does not see a block of one family across the other.** The text passes, and the
conditional takes the opener of the loop away with it. -/
theorem exists_checked_unrendered :
    let text := ("\x7b\x7b#if:a\x7d\x7d\x7b\x7b#foreach:b\x7d\x7d" ++
      "\x7b\x7b#endif\x7d\x7d\x7b\x7b#endforeach\x7d\x7d").toList
    let loader : Loader := fun _ _ => .error .noSuchSource
    Inclusion.references text = [] ∧ check text = .ok () ∧
      ((Renderer.mk true ⟨.strict, 32⟩).renderText loader .empty text).result =
        .error (.malformed ⟨1, 1⟩ (.strayCloser .loop)) := by
  intro text loader
  refine ⟨by decide +kernel, by decide +kernel, ?_⟩
  decide +kernel

end TagTemplate
