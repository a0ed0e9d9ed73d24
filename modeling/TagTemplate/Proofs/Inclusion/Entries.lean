import TagTemplate.Proofs.Inclusion.Consistency
import TagTemplate.Proofs.Inclusion.Failure
import Mathlib.Data.List.Chain
import Mathlib.Logic.Relation

/-!
# The recursion has an end

Resolving a partial expands its text, and expanding a text resolves the partials
that it refers to. Told with the chain as state, nothing in these two steps says
that they come to an end: which text is met next is up to the loader. `Recurs`
is this recursion without any bound, and `Enters` leads from a call of it to
those that are made while it is open.

A partial is opened only below the limit and with one name more on the chain,
and each call gives the chain back. So the chain is as long as the calls are
nested, the limit bounds it, and one function alone satisfies the recursion:
`resolution_terminates`.
-/

namespace TagTemplate.Inclusion

variable {loader : Loader} {rules : Rules}

namespace State

/-- One round of resolving a partial, given how those that its text refers to are resolved. -/
def round (loader : Loader) (rules : Rules) (nested : Text → State → Except Error Text × State)
    (name : Text) (s : State) : Except Error Text × State :=
  match s.content? name with
  | some content => (.ok content, s)
  | none =>
    if s.chain.contains name then (.error (.cyclic (s.chain ++ [name])), s)
    else if rules.depth ≤ s.chain.length then (.error (.tooDeep name rules.depth), s)
    else
      match loader.ask ⟨.fragment, name⟩ with
      | .error e => (.error e, s.asked ⟨.fragment, name⟩)
      | .ok raw =>
        match expandWith rules.policy nested raw ((s.asked ⟨.fragment, name⟩).push name) with
        | (.error e, s) => (.error e, s.pop)
        | (.ok content, s) => (.ok content, s.pop.remember name content)

/-- The recursion, without a bound: each call is a round with the function itself inside. -/
def Recurs (loader : Loader) (rules : Rules) (f : Text → State → Except Error Text × State) :
    Prop := ∀ name s, f name s = round loader rules f name s

/-- What resolving a partial comes to, with the room that the chain leaves below the limit. -/
def answer (loader : Loader) (rules : Rules) (name : Text) (s : State) :
    Except Error Text × State :=
  beside s.chain
    (Inclusion.resolve loader rules (rules.depth - s.chain.length) s.chain name s.registry)

/-- A round is `answer` if it has `answer` inside, which it uses on a longer chain alone. -/
theorem round_eq {nested : Text → State → Except Error Text × State} {chain : List Text}
    (h : chain.length < rules.depth → ∀ name' name r,
      nested name ⟨r, chain ++ [name']⟩ = answer loader rules name ⟨r, chain ++ [name']⟩)
    (name : Text) (r : Registry) :
    round loader rules nested name ⟨r, chain⟩ = answer loader rules name ⟨r, chain⟩ := by
  rw [round, answer]
  dsimp only [content?]
  cases hfind : r.expanded.find? name with
  | some content =>
      rw [resolve_of_expanded hfind]
      rfl
  | none =>
      by_cases hmem : name ∈ chain
      · rw [resolve_of_mem_chain hfind hmem]
        rw [if_pos (List.contains_iff_mem.2 hmem)]
        rfl
      · rw [if_neg (mt List.contains_iff_mem.1 hmem)]
        by_cases hdepth : rules.depth ≤ chain.length
        · rw [Nat.sub_eq_zero_of_le hdepth, Inclusion.resolve_zero hfind hmem, if_pos hdepth]
          rfl
        · obtain ⟨room, hroom⟩ : ∃ room, rules.depth - chain.length = room + 1 :=
            ⟨rules.depth - chain.length - 1, by omega⟩
          have hnested : ∀ name' r', nested name' ⟨r', chain ++ [name]⟩ =
              beside (chain ++ [name])
                (Inclusion.resolve loader rules room (chain ++ [name]) name' r') := by
            intro name' r'
            have hless : rules.depth - (chain ++ [name]).length = room := by
              rw [List.length_append, List.length_singleton]
              omega
            rw [h (by omega), answer, hless]
          rw [hroom, if_neg hdepth]
          exact opened_eq hnested hfind hmem

/-- **One function satisfies the recursion.** The induction is on what the chain leaves of the
limit. -/
theorem recurs_iff {f : Text → State → Except Error Text × State} :
    Recurs loader rules f ↔ f = answer loader rules := by
  constructor
  · intro h
    funext name ⟨r, chain⟩
    induction hroom : rules.depth - chain.length using Nat.strong_induction_on
      generalizing name r chain with
    | _ room ih =>
        rw [h name]
        refine round_eq (fun hdepth name' name r => ?_) name r
        refine ih _ ?_ name r (chain ++ [name']) rfl
        rw [List.length_append, List.length_singleton]
        omega
  · rintro rfl name ⟨r, chain⟩
    exact (round_eq (fun _ _ _ _ => rfl) name r).symm

theorem contents_answer (refs : List (Span × Text)) (r : Registry) (chain : List Text) :
    contents (answer loader rules) refs ⟨r, chain⟩ = beside chain (Inclusion.contents
      (Inclusion.resolve loader rules (rules.depth - chain.length) chain) refs r) :=
  contents_eq (fun _ _ => rfl) refs r

/-- With no partial open the recursion is the expansion of a text on a registry. -/
theorem expandWith_answer (t : Text) (r : Registry) :
    expandWith rules.policy (answer loader rules) t ⟨r, []⟩ =
      beside [] (Registry.expand loader rules t r) :=
  expandWith_eq (fun _ _ => rfl) rules.policy t r

/-! ## Nesting -/

/-- What holds of the chain wherever a partial is resolved: nothing is open twice, nothing that is
open is kept, and the limit is not passed. -/
structure WellNested (rules : Rules) (s : State) : Prop where
  nodup : s.chain.Nodup
  unkept : ∀ name ∈ s.chain, s.content? name = none
  length_le : s.chain.length ≤ rules.depth

theorem wellNested_of_unused (rules : Rules) (r : Registry) : WellNested rules ⟨r, []⟩ where
  nodup := List.nodup_nil
  unkept := fun _ h => absurd h List.not_mem_nil
  length_le := Nat.zero_le _

end State

/-- A partial that is to be resolved, and the state in which it is. -/
structure Entry where
  name : Text
  state : State

/-- Resolving a partial expands a text in a state: the partial is neither kept nor open, the limit
is not reached, and the text is that of the partial. -/
inductive Opens (loader : Loader) (rules : Rules) : Entry → Text → State → Prop where
  | mk {name raw : Text} {s : State} (unkept : s.content? name = none)
      (unopened : name ∉ s.chain) (room : s.chain.length < rules.depth)
      (read : loader.ask ⟨.fragment, name⟩ = .ok raw) :
      Opens loader rules ⟨name, s⟩ raw ((s.asked ⟨.fragment, name⟩).push name)

/-- Expanding a text in a state resolves a partial: the text has a reference to it, and those
before it are resolved. -/
inductive Meets (loader : Loader) (rules : Rules) : Text → State → Entry → Prop where
  | mk {t name : Text} {span : Span} {before after edits : List (Span × Text)} {s s' : State}
      (wellReferred : reportMalformed rules.policy [.inclusion] t (Tag.lex t) = .ok ())
      (refs : references t = before ++ (span, name) :: after)
      (resolved : State.contents (State.answer loader rules) before s = (.ok edits, s')) :
      Meets loader rules t s ⟨name, s'⟩

/-- Resolving a partial resolves another one that its text refers to. -/
def Enters (loader : Loader) (rules : Rules) (e e' : Entry) : Prop :=
  ∃ t s, Opens loader rules e t s ∧ Meets loader rules t s e'

/-- A call on a registry with no partial open resolves a partial: at once, or by expanding a
text. -/
inductive Starts (loader : Loader) (rules : Rules) (r : Registry) : Entry → Prop where
  | partial_ (name : Text) : Starts loader rules r ⟨name, ⟨r, []⟩⟩
  | text {t : Text} {e : Entry} (meets : Meets loader rules t ⟨r, []⟩ e) : Starts loader rules r e

/-- A partial is resolved somewhere within a call on a registry with no partial open. -/
def Reached (loader : Loader) (rules : Rules) (e : Entry) : Prop :=
  ∃ r e₀, Starts loader rules r e₀ ∧ Relation.ReflTransGen (Enters loader rules) e₀ e

variable {e e' : Entry} {t : Text} {s : State}

theorem Opens.chain_eq (h : Opens loader rules e t s) : s.chain = e.state.chain ++ [e.name] := by
  obtain ⟨-, -, -, -⟩ := h
  rfl

theorem Opens.length_lt (h : Opens loader rules e t s) :
    e.state.chain.length < rules.depth := by
  obtain ⟨-, -, hroom, -⟩ := h
  exact hroom

/-- The references before have given the chain back and kept nothing that is on it. -/
theorem Meets.chain_eq (h : Meets loader rules t s e) :
    e.state.chain = s.chain ∧ ∀ name ∈ s.chain, e.state.content? name = s.content? name := by
  obtain ⟨-, -, hresolved⟩ := h
  obtain ⟨r, chain⟩ := s
  rw [State.contents_answer] at hresolved
  obtain ⟨-, rfl⟩ := Prod.mk.inj hresolved
  obtain ⟨asked, hadvances, -⟩ := (orderly_resolve loader rules (rules.depth - chain.length)
    chain).contents _ r
  exact ⟨rfl, hadvances.opened⟩

theorem Meets.wellNested (h : Meets loader rules t s e) (hs : s.WellNested rules) :
    e.state.WellNested rules := by
  obtain ⟨hchain, hsame⟩ := h.chain_eq
  refine ⟨hchain ▸ hs.nodup, fun name hname => ?_, hchain ▸ hs.length_le⟩
  rw [hchain] at hname
  exact (hsame name hname).trans (hs.unkept name hname)

theorem Opens.wellNested (h : Opens loader rules e t s) (he : e.state.WellNested rules) :
    s.WellNested rules := by
  obtain ⟨hunkept, hunopened, hroom, -⟩ := h
  refine ⟨?_, fun name hname => ?_, ?_⟩
  · refine List.nodup_append.2 ⟨he.nodup, List.pairwise_singleton _ _, ?_⟩
    intro name hname name' hname' heq
    rw [heq, List.mem_singleton.1 hname'] at hname
    exact hunopened hname
  · rcases List.mem_append.1 hname with hname | hname
    · exact he.unkept name hname
    · exact List.mem_singleton.1 hname ▸ hunkept
  · show (_ ++ [_]).length ≤ rules.depth
    rw [List.length_append, List.length_singleton]
    exact hroom

/-- Each call is nested one deeper than the call that makes it. -/
theorem Enters.chain_eq (h : Enters loader rules e e') :
    e'.state.chain = e.state.chain ++ [e.name] ∧ e.state.chain.length < rules.depth := by
  obtain ⟨t, s, hopens, hmeets⟩ := h
  exact ⟨hmeets.chain_eq.1.trans hopens.chain_eq, hopens.length_lt⟩

theorem Enters.length_eq (h : Enters loader rules e e') :
    e'.state.chain.length = e.state.chain.length + 1 := by
  rw [h.chain_eq.1, List.length_append, List.length_singleton]

theorem Reached.wellNested (h : Reached loader rules e) : e.state.WellNested rules := by
  obtain ⟨r, e₀, hstarts, hcalls⟩ := h
  induction hcalls with
  | refl =>
      cases hstarts with
      | partial_ name => exact State.wellNested_of_unused rules r
      | text hmeets => exact hmeets.wellNested (State.wellNested_of_unused rules r)
  | tail _ henters ih =>
      obtain ⟨t, s, hopens, hmeets⟩ := henters
      exact hmeets.wellNested (hopens.wellNested ih)

theorem wellFounded_enters (loader : Loader) (rules : Rules) :
    WellFounded fun e' e => Enters loader rules e e' := by
  refine Subrelation.wf ?_ (measure fun e : Entry => rules.depth - e.state.chain.length).wf
  intro e' e h
  have hlength := h.length_eq
  have hroom := h.chain_eq.2
  show rules.depth - e'.state.chain.length < rules.depth - e.state.chain.length
  omega

/-- As many calls as are nested in one another have had room for it. -/
theorem length_le_of_nested {es : List Entry} (h : List.IsChain (Enters loader rules) (e :: es)) :
    es = [] ∨ e.state.chain.length + es.length ≤ rules.depth := by
  induction es generalizing e with
  | nil => exact .inl rfl
  | cons e' es ih =>
      rw [List.isChain_cons_cons] at h
      have hlength := h.1.length_eq
      have hroom := h.1.chain_eq.2
      right
      rw [List.length_cons]
      rcases ih h.2 with rfl | hle
      · rw [List.length_nil]
        omega
      · omega

/-- **Resolving partials comes to an end**, for every loader. Wherever a partial is resolved, the
chain has no name twice and none that is kept, and it is within the limit together with all calls
that are nested further. A text is expanded with one name more on the chain, on which the partials
that it refers to are resolved. So no calls are nested without end, and the recursion determines
one function, which with no partial open is the registry's. -/
theorem resolution_terminates (loader : Loader) (rules : Rules) :
    (∀ e, Reached loader rules e → e.state.WellNested rules ∧
      ∀ es, List.IsChain (Enters loader rules) (e :: es) →
        e.state.chain.length + es.length ≤ rules.depth) ∧
    (∀ e t s, Opens loader rules e t s → s.chain = e.state.chain ++ [e.name]) ∧
    (∀ t s e, Meets loader rules t s e → e.state.chain = s.chain) ∧
    (WellFounded fun e' e => Enters loader rules e e') ∧
    (∀ f, State.Recurs loader rules f ↔ f = State.answer loader rules) ∧
    ∀ r,
      (∀ name, State.answer loader rules name ⟨r, []⟩ =
        State.beside [] (Registry.resolve loader rules name r)) ∧
      ∀ t, State.expandWith rules.policy (State.answer loader rules) t ⟨r, []⟩ =
        State.beside [] (Registry.expand loader rules t r) := by
  refine ⟨fun e he => ⟨he.wellNested, fun es hes => ?_⟩, fun _ _ _ h => h.chain_eq,
    fun _ _ _ h => h.chain_eq.1, wellFounded_enters loader rules, fun _ => State.recurs_iff,
    fun r => ⟨fun _ => rfl, fun t => State.expandWith_answer t r⟩⟩
  rcases length_le_of_nested hes with rfl | hle
  · exact he.wellNested.length_le
  · exact hle

/-- A partial that includes itself by another one, reached again with both of them open. -/
theorem resolution_terminates_of_ring :
    let rules : Rules := ⟨.strict, 2⟩
    ∃ e, e.name = "a".toList ∧ e.state.chain = ["a".toList, "b".toList] ∧
      Reached Registry.ring.loader rules e ∧ e.state.WellNested rules := by
  intro rules
  let loader := Registry.ring.loader
  let a := "\x7b\x7b>c\x7d\x7d\x7b\x7b>b\x7d\x7d".toList
  let b := "\x7b\x7b>c\x7d\x7d\x7b\x7b>a\x7d\x7d".toList
  -- both texts refer to `c` first, which is resolved before the other reference is met
  let front := [((⟨0, 6⟩ : Span), "c".toList)]
  let done := [((⟨0, 6⟩ : Span), "x".toList)]
  let behind (name : Text) (s : State) : State :=
    (State.contents (State.answer loader rules) front ((s.asked ⟨.fragment, name⟩).push name)).2
  let first := behind "a".toList .fresh
  let second := behind "b".toList first
  have hfirst : Enters loader rules ⟨"a".toList, .fresh⟩ ⟨"b".toList, first⟩ :=
    ⟨a, _, .mk rfl (by decide) (by decide) (by decide +kernel),
      @Meets.mk loader rules a _ ⟨6, 12⟩ front [] done _ _ (by decide +kernel) (by decide +kernel)
        (Prod.ext (by decide +kernel) rfl)⟩
  have hsecond : Enters loader rules ⟨"b".toList, first⟩ ⟨"a".toList, second⟩ :=
    ⟨b, _, .mk (by decide +kernel) (by decide +kernel) (by decide +kernel) (by decide +kernel),
      @Meets.mk loader rules b _ ⟨6, 12⟩ front [] done _ _ (by decide +kernel) (by decide +kernel)
        (Prod.ext (by decide +kernel) rfl)⟩
  have hreached : Reached loader rules ⟨"a".toList, second⟩ :=
    ⟨.empty, _, .partial_ "a".toList, (Relation.ReflTransGen.single hfirst).tail hsecond⟩
  have hchain : second.chain = ["a".toList, "b".toList] := by decide +kernel
  exact ⟨_, rfl, hchain, hreached, ((resolution_terminates loader rules).1 _ hreached).1⟩

end TagTemplate.Inclusion
