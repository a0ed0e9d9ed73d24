import TagTemplate.Proofs.Inclusion.Consistency
import TagTemplate.Proofs.Inclusion.Failure
import TagTemplate.Source.Store

/-!
# How deep partials are nested

The limit is compared with the partials that are open when a partial is read,
and a partial is read once. So it bounds how deep in the text each partial is
met first, and not how deep partials are nested: a chain may go on from a
partial that is kept, however long its own chain was. `Covered` is the
invariant: what is kept ends a chain within the limit, and everything that it
includes is kept too. `expand_nesting` says what an expansion that succeeds and
one that fails at the limit tell about the graph.
-/

namespace TagTemplate.Inclusion

variable {loader : Loader} {policy : Policy} {rules : Rules} {t : Text} {name p q : Text}
  {room depth : Nat} {chain : List Text} {r : Registry}

/-- The partial ends a chain of at most so many partials. -/
def Within (loader : Loader) (t : Text) (depth : Nat) (name : Text) : Prop :=
  ∃ ps, Chain loader t (ps ++ [name]) ∧ ps.length < depth

/-- Whatever is kept lies within the limit and includes only what is kept as well. -/
structure Covered (loader : Loader) (t : Text) (depth : Nat) (r : Registry) : Prop where
  within : ∀ name content, r.expanded.find? name = some content → Within loader t depth name
  closed : ∀ name content, r.expanded.find? name = some content →
    ∀ q, Includes loader name q → Kept [q] r

theorem covered_empty : Covered loader t depth .empty where
  within := fun _ _ h => nomatch h
  closed := fun _ _ h => nomatch h

theorem Kept.remember {names : List Text} (h : Kept names r) (name content : Text) :
    Kept names (r.remember name content) := by
  intro name' hname'
  rw [Registry.remember, Bindings.find?_insert]
  split
  · exact ⟨content, rfl⟩
  · exact h name' hname'

theorem Covered.remember {content : Text} (h : Covered loader t depth r)
    (hwithin : Within loader t depth name) (hclosed : ∀ q, Includes loader name q → Kept [q] r) :
    Covered loader t depth (r.remember name content) where
  within := by
    intro name' content' hfind
    rw [Registry.remember, Bindings.find?_insert] at hfind
    split at hfind
    next heq => exact heq ▸ hwithin
    · exact h.within name' content' hfind
  closed := by
    intro name' content' hfind q hq
    rw [Registry.remember, Bindings.find?_insert] at hfind
    split at hfind
    next heq => exact (hclosed q (heq ▸ hq)).remember name content
    · exact (h.closed name' content' hfind q hq).remember name content

/-! ## What an expansion covers -/

section

variable {resolve : Text → Registry → Except Error Text × Registry}

theorem Covered.contents {refs : List (Span × Text)}
    (hres : ∀ ref ∈ refs, ∀ r, Covered loader t depth r →
      Covered loader t depth (resolve ref.2 r).2)
    (h : Covered loader t depth r) :
    Covered loader t depth (Inclusion.contents resolve refs r).2 := by
  induction refs generalizing r with
  | nil => exact h
  | cons ref refs ih =>
      obtain ⟨span, name⟩ := ref
      have hname := hres (span, name) (by simp) r h
      have hrest := ih (fun ref href => hres ref (by simp [href])) hname
      rw [contents_cons]
      exact andThen_registry hname fun _ _ => andThen_registry hrest fun _ _ => hrest

/-- All the partials that a text refers to are kept when it is expanded. -/
theorem Orderly.kept_references (h : Orderly loader policy chain resolve)
    {refs edits : List (Span × Text)} {r' : Registry}
    (hok : Inclusion.contents resolve refs r = (.ok edits, r')) : Kept (refs.map Prod.snd) r' := by
  induction refs generalizing r edits with
  | nil => exact kept_nil r'
  | cons ref refs ih =>
      obtain ⟨span, name⟩ := ref
      rw [contents_cons] at hok
      obtain ⟨content, r₁, hname, hok⟩ := andThen_eq_ok hok
      obtain ⟨rest, r₂, hrest, hok⟩ := andThen_eq_ok hok
      cases hok
      intro name' hname'
      rcases List.mem_cons.1 hname' with heq | hname'
      · have hgiven := (h name r).2
        obtain ⟨_, hadvances, -⟩ := h.contents refs r₁
        rw [hname] at hgiven
        rw [hrest] at hadvances
        rw [heq]
        exact ⟨content, hadvances.keeps name content (hgiven content rfl)⟩
      · exact ih hrest name' hname'

theorem Covered.expandWith {text : Text}
    (hres : ∀ name, Mentions text name → ∀ r, Covered loader t depth r →
      Covered loader t depth (resolve name r).2)
    (h : Covered loader t depth r) :
    Covered loader t depth (Inclusion.expandWith policy resolve text r).2 := by
  have hcontents := h.contents fun ref href => hres ref.2 (mentions_of_mem href)
  rw [expandWith_eq]
  exact andThen_registry h fun _ _ => andThen_registry hcontents fun _ _ => hcontents

theorem Orderly.kept_mentions (h : Orderly loader policy chain resolve) {text s : Text}
    {r' : Registry} (hok : Inclusion.expandWith policy resolve text r = (.ok s, r'))
    (hm : Mentions text name) : Kept [name] r' := by
  rw [expandWith_eq] at hok
  obtain ⟨_, r₁, -, hok⟩ := andThen_eq_ok hok
  obtain ⟨edits, r₂, hcontents, hok⟩ := andThen_eq_ok hok
  cases hok
  intro name' hname'
  rw [List.mem_singleton.1 hname']
  obtain ⟨ref, href, hname⟩ := mentions_iff_mem.1 hm
  exact h.kept_references hcontents name (List.mem_map.2 ⟨ref, href, hname⟩)

end

/-- **A partial is met within the limit**, and so is all that is expanded on its behalf. The
induction is on the room, which is what the chain leaves of the limit. -/
theorem covered_resolve (hroom : chain.length + room = rules.depth)
    (hchain : Chain loader t (chain ++ [name])) (h : Covered loader t rules.depth r) :
    Covered loader t rules.depth (resolve loader rules room chain name r).2 := by
  induction room using Nat.strongRecOn generalizing chain name r with
  | ind room ih =>
  rcases resolve_cases loader rules room chain name r with
    ⟨kept, hfind⟩ | ⟨hfind, ⟨e, -, herror⟩ | ⟨hmem, room, rfl⟩⟩
  · rwa [resolve_of_expanded hfind]
  · rwa [herror r hfind]
  · have hasked : Covered loader t rules.depth (r.asked ⟨.fragment, name⟩) := ⟨h.within, h.closed⟩
    rw [resolve_succ hfind hmem]
    cases hask : loader.ask ⟨.fragment, name⟩ with
    | error e => exact hasked
    | ok raw =>
        have hraw := ask_eq_ok_iff.1 hask
        have hroom' : (chain ++ [name]).length + room = rules.depth := by
          rw [List.length_append, List.length_singleton]
          omega
        have hexpanded : Covered loader t rules.depth (expandWith rules.policy
            (resolve loader rules room (chain ++ [name])) raw
            (r.asked ⟨.fragment, name⟩)).2 :=
          hasked.expandWith fun q hq r hr =>
            ih room (Nat.lt_succ_self room) hroom' (hchain.snoc ⟨raw, hraw, hq⟩) hr
        rw [andThen_ok]
        refine andThen_registry hexpanded fun content hok => ?_
        refine hexpanded.remember ⟨chain, hchain, by omega⟩ fun q hq => ?_
        obtain ⟨raw', hraw', hm⟩ := hq
        rw [hraw] at hraw'
        cases hraw'
        exact (orderly_resolve loader rules room _).kept_mentions (Prod.ext hok rfl) hm

/-! ## Where an expansion ends at the limit -/

theorem reportMalformed_ne_tooDeep {forms : List Form} {tags : List Tag} {limit : Nat} :
    reportMalformed policy forms t tags ≠ .error (.tooDeep p limit) := by
  intro h
  obtain ⟨-, _, -, _, -, _, -, he⟩ := reportMalformed_eq_error h
  cases he

/-- An expansion that ends at the limit has come upon a chain that is longer. -/
theorem exists_chain_of_tooDeep {limit : Nat} (hroom : chain.length + room = rules.depth)
    (hchain : Chain loader t (chain ++ [name]))
    (h : (resolve loader rules room chain name r).1 = .error (.tooDeep p limit)) :
    limit = rules.depth ∧ ∃ ps, Chain loader t (ps ++ [p]) ∧ ps.length = rules.depth := by
  obtain ⟨opened, q, hopened, -, hblocked⟩ := exists_blocked hroom hchain h
  cases hblocked with
  | tooDeep _ hlength => exact ⟨rfl, opened, hopened, hlength⟩
  | malformed _ hrefers => cases hrefers

end TagTemplate.Inclusion

namespace TagTemplate.Registry

open Inclusion

variable {loader : Loader} {rules : Rules} {t : Text}

/-- Everything that an expanded text reaches is kept. -/
theorem kept_of_reaches {s name : Text} {r : Registry}
    (hok : Registry.empty.expand loader rules t = (.ok s, r))
    (hcovered : Covered loader t rules.depth r) (hreaches : Reaches loader t name) :
    Kept [name] r := by
  obtain ⟨u, hu, hm⟩ := hreaches
  induction hu generalizing name with
  | refl => exact (orderly_resolve loader rules rules.depth []).kept_mentions hok hm
  | tail _ hread ih =>
      obtain ⟨p, hp, hraw⟩ := hread
      obtain ⟨content, hkept⟩ := ih hp p (List.mem_singleton_self p)
      exact hcovered.closed p content hkept name ⟨_, hraw, hm⟩

/-- **What the limit bounds.** If an expansion succeeds, every partial that the text reaches ends
a chain within the limit. If it ends at the limit, the partial that it names ends a chain that is
longer by one. -/
theorem expand_nesting (loader : Loader) (rules : Rules) (t : Text) :
    (∀ s, (Registry.empty.expand loader rules t).1 = .ok s →
      ∀ name, Reaches loader t name → Within loader t rules.depth name) ∧
    ∀ name limit, (Registry.empty.expand loader rules t).1 = .error (.tooDeep name limit) →
      limit = rules.depth ∧ ∃ ps, Chain loader t (ps ++ [name]) ∧ ps.length = rules.depth := by
  constructor
  · intro s hs name hreaches
    have hcovered : Covered loader t rules.depth (Registry.empty.expand loader rules t).2 :=
      covered_empty.expandWith fun q hq r hr =>
        covered_resolve (Nat.zero_add _) (chain_singleton hq) hr
    obtain ⟨content, hkept⟩ := kept_of_reaches (Prod.ext hs rfl) hcovered hreaches name (by simp)
    exact hcovered.within name content hkept
  · intro name limit h
    rcases expandWith_eq_error h with hreport | ⟨q, hq, r, hfails⟩
    · exact absurd hreport reportMalformed_ne_tooDeep
    · exact exists_chain_of_tooDeep (Nat.zero_add _) (chain_singleton hq) hfails

/-- Two partials, `a` that refers to `b` and `b` that refers to none. -/
def twoLevels : Store :=
  (Store.empty.add .fragment "a".toList "\x7b\x7b>b\x7d\x7d".toList).add .fragment "b".toList
    "x".toList

/-- A text that refers to the inner partial first is expanded where one level is allowed, and one
that refers to the outer partial first is not. -/
theorem expand_nesting_of_twoLevels :
    let rules : Rules := ⟨.strict, 1⟩
    let inner := "\x7b\x7b>b\x7d\x7d\x7b\x7b>a\x7d\x7d".toList
    let outer := "\x7b\x7b>a\x7d\x7d\x7b\x7b>b\x7d\x7d".toList
    ((Registry.empty.expand twoLevels.loader rules inner).1 = .ok "xx".toList ∧
      Reaches twoLevels.loader inner "a".toList ∧ Within twoLevels.loader inner 1 "a".toList) ∧
    (Registry.empty.expand twoLevels.loader rules outer).1 = .error (.tooDeep "b".toList 1) ∧
      ∃ ps, Chain twoLevels.loader outer (ps ++ ["b".toList]) ∧ ps.length = 1 := by
  intro rules inner outer
  have hinner : (Registry.empty.expand twoLevels.loader rules inner).1 = .ok "xx".toList := by
    decide +kernel
  have houter : (Registry.empty.expand twoLevels.loader rules outer).1 =
      .error (.tooDeep "b".toList 1) := by
    decide +kernel
  have hmentions : Mentions inner "a".toList := by
    unfold Mentions
    decide +kernel
  have hreaches : Reaches twoLevels.loader inner "a".toList := .of_mentions hmentions
  obtain ⟨-, hchain⟩ := (expand_nesting twoLevels.loader rules outer).2 "b".toList 1 houter
  exact ⟨⟨hinner, hreaches, (expand_nesting _ rules inner).1 _ hinner _ hreaches⟩, houter, hchain⟩

/-- **The limit does not bound nesting.** A chain of two partials is expanded where one is
allowed, if the inner partial is met first; the same partials in the other order are not. -/
theorem exists_chain_beyond_limit :
    let rules : Rules := ⟨.strict, 1⟩
    let t := "\x7b\x7b>b\x7d\x7d\x7b\x7b>a\x7d\x7d".toList
    let turned := "\x7b\x7b>a\x7d\x7d\x7b\x7b>b\x7d\x7d".toList
    let ps := ["a".toList, "b".toList]
    (Registry.empty.expand twoLevels.loader rules t).1 = .ok "xx".toList ∧
      Chain twoLevels.loader t ps ∧ rules.depth < ps.length ∧
      (Registry.empty.expand twoLevels.loader rules turned).1 = .error (.tooDeep "b".toList 1) := by
  intro rules t turned ps
  have hchain : Chain twoLevels.loader t ps := by
    have hmentions : Mentions t "a".toList := by
      unfold Mentions
      decide +kernel
    have hincludes : Includes twoLevels.loader "a".toList "b".toList := by
      refine ⟨"\x7b\x7b>b\x7d\x7d".toList, by decide +kernel, ?_⟩
      unfold Mentions
      decide +kernel
    have hfirst : Chain twoLevels.loader t ([] ++ ["a".toList]) := chain_singleton hmentions
    exact hfirst.snoc hincludes
  exact ⟨by decide +kernel, hchain, by decide, by decide +kernel⟩

end TagTemplate.Registry
