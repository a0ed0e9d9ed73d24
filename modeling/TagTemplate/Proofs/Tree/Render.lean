import TagTemplate.Proofs.Noninterference
import TagTemplate.Proofs.Tree.Steps

/-!
# Rendering is evaluation

The steps of a render, each of which reads the text that the one before it has
left, together do on the print of a tree what `eval` does on the tree. Between
the steps the text is always the ink of a list of items, and each step is a
change of the items.
-/

namespace TagTemplate

open Tag (Kind)

/-! ## Malformed tags -/

/-- A malformed link is one with an empty URL. -/
theorem Tag.fault_of_link {t : Text} {tag : Tag} {fault : Fault} (h : tag ∈ Tag.lex t)
    (hk : tag.kind = .malformed .link fault) : fault = .emptyUrl := by
  obtain ⟨a, w, b, -, ⟨i, -, hi, -⟩, -⟩ := Tag.mem_lex_iff.1 h
  rw [hk] at hi
  obtain ⟨url, -, hurl⟩ := Tag.classify_link_of_isLink hi rfl
  split at hurl
  · cases hurl
    rfl
  · cases hurl

namespace Tree

/-- The references in a printed tree are well formed. -/
theorem faultless_print (t : Tree) : Faultless [.inclusion] (Tag.lex t.print) := by
  rw [faultless_iff_kinds, show (Tag.lex t.print).map Tag.kind =
    Ink.kinds (Ink.ofText .template t.print) by rw [Ink.kinds, Ink.tags_ofText_template],
    ← ink_items, Item.kinds_items]
  intro k hk hfaulty
  obtain ⟨i, -, hk⟩ := List.mem_flatMap.1 hk
  rcases Item.kinds_cases hk with ⟨key, rfl⟩ | hlink | ⟨w, h, -, rfl⟩
  · cases hfaulty
  · cases k with
    | malformed form fault =>
        cases form with
        | link => exact absurd hfaulty (by simp [faulty])
        | _ => cases hlink
    | _ => cases hfaulty
  · rw [Tag.not_faulty_of_isMark h] at hfaulty
    cases hfaulty

/-- Every text that is read in the expansion of a printed tree is a printed tree. -/
theorem exists_print_of_reads {loader : Loader} {t : Tree} (hholds : Holds loader t.print)
    {s : Text} (h : Relation.ReflTransGen (Inclusion.Reads loader) t.print s) :
    ∃ u : Tree, s = u.print := by
  rcases Relation.ReflTransGen.cases_tail h with rfl | ⟨v, hv, name, hm, hs⟩
  · exact ⟨t, rfl⟩
  · obtain ⟨held, hheld⟩ := hholds name ⟨v, hv, hm⟩
    rw [hs] at hheld
    exact ⟨held, Except.ok.inj hheld⟩

theorem expandable_print {loader : Loader} {policy : Policy} {depth : Nat} {t : Tree}
    (hacyclic : Inclusion.Acyclic loader t.print) (hholds : Holds loader t.print)
    (hdepth : ∀ ps, Inclusion.Chain loader t.print ps → ps.length ≤ depth) :
    Inclusion.Expandable loader policy depth t.print where
  acyclic := hacyclic
  readable := by
    intro name hname
    obtain ⟨held, hheld⟩ := hholds name hname
    exact ⟨held.print, hheld⟩
  within := hdepth
  referred := by
    intro _ s hs
    obtain ⟨u, rfl⟩ := exists_print_of_reads hholds hs
    exact u.faultless_print

end Tree

/-! ## The last steps on items -/

namespace Marked

variable {items : List Item} {m : Marked}

theorem marks_fillValues_items (hm : Separate m.pieces) (hmarks : m.marks = items.flatMap Item.ink)
    (context : Context) : (m.fillValues context).marks =
      (items.map (Item.fill context.value)).flatMap Item.ink := by
  rw [marks_fillValues hm, hmarks, Item.rewrite_filling_items]

theorem separate_splice (m : Marked) (edits : List (Span × Piece)) :
    Separate (m.splice edits).pieces := separate_ofPieces _

/-- The text that is left of items when links are written and tags removed. -/
theorem text_clean_items (hm : Separate m.pieces) (hmarks : m.marks = items.flatMap Item.ink)
    (pretty : Bool) :
    (m.splice (m.tags.filterMap (link? pretty))).clean =
      Text.collapseBreaks (items.flatMap (Item.eval pretty)) := by
  have hlinks : m.tags.filterMap (link? pretty) = m.tags.filterMap fun tag =>
      ((linking pretty tag.kind).map Piece.data).map (tag.span, ·) := by
    apply List.filterMap_congr
    intro tag _
    rw [link?]
    cases tag.kind <;> rfl
  have hwritten : (m.splice (m.tags.filterMap (link? pretty))).marks =
      items.flatMap (Item.written pretty) := by
    rw [hlinks, marks_splice_tags hm fun k => (linking pretty k).map Piece.data, hmarks,
      ← Item.rewrite_linking_items]
    refine congrArg (Ink.rewrite · _) (funext fun k => ?_)
    rw [Option.map_map]
    rfl
  generalize hw : m.splice (m.tags.filterMap (link? pretty)) = m' at hwritten
  have hm' : Separate m'.pieces := by
    rw [← hw]
    exact separate_splice m _
  have hstrip : m'.strip.marks = Ink.rewrite strippingInk m'.marks := marks_strip hm'
  rw [clean, text_eq, hstrip, hwritten, Item.text_stripped_items]

/-- Links are written unless the policy is strict and a link has an empty URL. -/
theorem writeLinks_items (hm : Separate m.pieces) (hmarks : m.marks = items.flatMap Item.ink)
    (policy : Policy) (pretty : Bool) :
    ((policy = .passThrough ∨ items.any Item.isBlank = false) →
      m.writeLinks policy pretty = .ok (m.splice (m.tags.filterMap (link? pretty)))) ∧
    (policy = .strict → items.any Item.isBlank = true → ∃ position,
      m.writeLinks policy pretty = .error (.malformed position (.badTag .link .emptyUrl))) := by
  have hblank : Faultless [.link] m.tags ↔ items.any Item.isBlank = false := by
    rw [tags_eq hm, hmarks, Item.faultless_items]
  constructor
  · intro h
    have hok : reportMalformed policy [.link] m.text m.tags = .ok () := by
      refine reportMalformed_eq_ok_iff.2 fun hstrict => hblank.2 (h.resolve_left fun hpass => ?_)
      rw [hstrict] at hpass
      cases hpass
    rw [writeLinks, hok]
    rfl
  · intro heq h
    subst heq
    have hfaulty : ¬ Faultless [.link] m.tags := by
      rw [hblank, h]
      exact Bool.noConfusion
    rcases reportMalformed_strict [.link] m.text m.tags with
      ⟨-, hall⟩ | ⟨-, tag, htag, form, hform, fault, hk, herror⟩
    · exact absurd hall hfaulty
    · rw [List.mem_singleton.1 hform] at hk herror
      rw [Tag.fault_of_link (List.mem_filter.1 htag).1 hk] at herror
      exact ⟨_, by rw [writeLinks, herror]; rfl⟩

end Marked

/-! ## A whole render -/

namespace Tree

variable (r : Renderer) (context : Context) (t : Tree)

/-- The items of a tree after conditionals, loops and values. -/
def filled : List Item := ((t.choose context).unroll context).map (Item.fill context.value)

/-- The steps up to the filling in of values make the items of a tree of its print. -/
theorem insertContext_print (policy : Policy) : ∃ m : Marked,
    insertContext policy context t.print = .ok m ∧ Separate m.pieces ∧
      m.marks = (t.filled context).flatMap Item.ink := by
  obtain ⟨m, hexpand, hm, hmarks⟩ := (unrolls_print context (t.choose context)).expand policy
  refine ⟨m.fillValues context, ?_, Marked.separate_fillValues m context,
    Marked.marks_fillValues_items hm hmarks context⟩
  rw [insertContext, (settles_print policy context t).resolve]
  show (Loop.expand policy context (t.choose context).print).map _ = _
  rw [hexpand]
  rfl

/-- What is left to do on the print of a tree is to write the links of its items. -/
theorem finish_print : ∃ m : Marked, Separate m.pieces ∧
    m.marks = (t.filled context).flatMap Item.ink ∧
    r.finish context t.print =
      (m.writeLinks r.rules.policy r.prettyLinks).map fun m => Text.trim m.clean := by
  obtain ⟨m, hinsert, hm, hmarks⟩ := insertContext_print context t r.rules.policy
  refine ⟨m, hm, hmarks, ?_⟩
  rw [Renderer.finish_eq, hinsert]
  rfl

/-- A printed tree comes to what the tree stands for. -/
theorem finish_print_eq :
    ((r.rules.policy = .passThrough ∨ t.hasBlankLink context none = false) →
      r.finish context t.print =
        .ok (Text.trim (Text.collapseBreaks (t.eval r.prettyLinks context none)))) ∧
    (r.rules.policy = .strict → t.hasBlankLink context none = true → ∃ position,
      r.finish context t.print = .error (.malformed position (.badTag .link .emptyUrl))) := by
  obtain ⟨m, hm, hmarks, hfinish⟩ := finish_print r context t
  obtain ⟨hwritten, hrefused⟩ := Marked.writeLinks_items hm hmarks r.rules.policy r.prettyLinks
  have hblank : (t.filled context).any Item.isBlank = t.hasBlankLink context none :=
    isBlank_unroll context t
  have heval : (t.filled context).flatMap (Item.eval r.prettyLinks) =
      t.eval r.prettyLinks context none := eval_unroll r.prettyLinks context t
  rw [hblank] at hwritten hrefused
  constructor
  · intro h
    rw [hfinish, hwritten h, ← heval, ← Marked.text_clean_items hm hmarks]
    rfl
  · intro hstrict h
    obtain ⟨position, herror⟩ := hrefused hstrict h
    exact ⟨position, by rw [hfinish, herror]; rfl⟩

end Tree

/-- **Rendering is evaluation.** A printed tree whose partials hold printed trees, with no cycle
among them and no chain longer than the limit, is rendered to what its inlined tree, which has
no references left, stands for, with blank lines joined and the ends trimmed. Only a link with an
empty URL is refused, and only under the strict policy. -/
theorem Renderer.renderText_print (r : Renderer) (loader : Loader) (context : Context) (t : Tree)
    (hacyclic : Inclusion.Acyclic loader t.print) (hholds : Tree.Holds loader t.print)
    (hdepth : ∀ ps, Inclusion.Chain loader t.print ps → ps.length ≤ r.rules.depth) :
    (∃ u, Tree.Inlined loader t u) ∧ ∀ u, Tree.Inlined loader t u →
      u.names = [] ∧
      ((r.rules.policy = .passThrough ∨ u.hasBlankLink context none = false) →
        (r.renderText loader context t.print).result =
          .ok (Text.trim (Text.collapseBreaks (u.eval r.prettyLinks context none)))) ∧
      (r.rules.policy = .strict → u.hasBlankLink context none = true → ∃ position,
        (r.renderText loader context t.print).result =
          .error (.malformed position (.badTag .link .emptyUrl))) := by
  have hexpandable : Inclusion.Expandable loader r.rules.policy r.rules.depth t.print :=
    Tree.expandable_print hacyclic hholds hdepth
  refine ⟨Tree.exists_inlined hexpandable hholds, fun u hu => ?_⟩
  obtain ⟨s, hexpands, hs⟩ := Registry.expand_of_expandable hexpandable
  have hresult : (r.renderText loader context t.print).result = r.finish context u.print := by
    show (Registry.empty.expand loader r.rules t.print).1.bind (r.finish context) = _
    rw [hs, hexpands.unique hu.expands]
    rfl
  rw [hresult]
  exact ⟨hu.names_eq_nil, u.finish_print_eq r context⟩

/-- A partial in a conditional that holds, a conditional that does not, blank lines, and a link and
a placeholder for each of two rows. -/
theorem Renderer.renderText_print_of_rows :
    let loader : Loader := fun _ _ => .ok "hi".toList
    let k : Key := ⟨"k".toList, by decide, by decide⟩
    let z : Key := ⟨"z".toList, by decide, by decide⟩
    let rows : Key := ⟨"rows".toList, by decide, by decide⟩
    let v : Key := ⟨"v".toList, by decide, by decide⟩
    let link : Tree :=
      .link [.literal ⟨"?u=".toList, by decide, by decide⟩, .value v]
        (.text ⟨":".toList, by decide, by decide⟩ (.value v .nil))
    let t : Tree :=
      .choice k (.inclusion ⟨"p".toList, by decide, by decide⟩ .nil)
        (.choiceElse z (.value k .nil) (.text ⟨"\n\n\n\n".toList, by decide, by decide⟩ .nil)
          (.loop rows link (.text ⟨" ".toList, by decide, by decide⟩ .nil)))
    let context : Context := .ofList [("k".toList, .scalar (.text "!".toList)),
      ("rows".toList, .rows [.ofList [("v".toList, .text "a".toList)],
        .ofList [("v".toList, .text "b".toList)]])]
    let r : Renderer := ⟨true, ⟨.strict, 1⟩⟩
    (Inclusion.Acyclic loader t.print ∧ Tree.Holds loader t.print ∧
      ∀ ps, Inclusion.Chain loader t.print ps → ps.length ≤ 1) ∧
      (r.renderText loader context t.print).result = .ok "hi\n\n./a:a\n./b:b".toList := by
  intro loader k z rows v link t context r
  let held : Tree := .text ⟨"hi".toList, by decide, by decide⟩ .nil
  have hlevelled : Inclusion.Levelled loader fun _ => 0 := by
    intro p q hincludes
    obtain ⟨raw, hraw, hm⟩ := hincludes
    cases hraw
    exact absurd hm (Inclusion.not_mentions (by decide))
  have hacyclic : Inclusion.Acyclic loader t.print := hlevelled.acyclic
  have hholds : Tree.Holds loader t.print := fun _ _ => ⟨held, rfl⟩
  have hdepth : ∀ ps, Inclusion.Chain loader t.print ps → ps.length ≤ 1 :=
    fun ps => hlevelled.length_le fun _ _ => Nat.zero_lt_one
  have hinlined : Tree.Inlined loader t (t.graft fun _ => held) :=
    .intro t (fun _ => held) _ (fun _ _ => rfl) fun _ _ =>
      .intro held (fun _ => held) (fun _ => held) (fun _ h => nomatch h) fun _ h => nomatch h
  obtain ⟨-, hrendered, -⟩ :=
    (Renderer.renderText_print r loader context t hacyclic hholds hdepth).2 _ hinlined
  have hstands : Text.trim (Text.collapseBreaks
      ((t.graft fun _ => held).eval r.prettyLinks context none)) =
        "hi\n\n./a:a\n./b:b".toList := by
    decide +kernel
  rw [hstands] at hrendered
  exact ⟨⟨hacyclic, hholds, hdepth⟩, hrendered (.inr (by decide +kernel))⟩

end TagTemplate
