import TagTemplate.Proofs.Inclusion.Basic

/-!
# The chain as state

An expansion in progress can also be told with a single state: the registry and
the chain of the partials that are being expanded. A partial is pushed on the
chain before its text is expanded and popped off behind that, whether or not
the expansion succeeded; the limit is compared with the length of the chain.
Told in this way `resolve` is `Inclusion.resolve`, which has the chain as an
argument, and it leaves the chain as it was: `State.resolve_eq`.
-/

namespace TagTemplate.Inclusion

/-- A registry in use, with the partials that are being expanded, outermost first. -/
structure State where
  registry : Registry
  chain : List Text
  deriving Repr

namespace State

/-- A registry without partials that is not in use. -/
def fresh : State := ⟨.empty, []⟩

/-- The content that a partial is kept with. -/
def content? (s : State) (name : Text) : Option Text := s.registry.expanded.find? name

/-- The state after a request. -/
def asked (s : State) (request : Request) : State := { s with registry := s.registry.asked request }

/-- The state with one partial more that is kept. -/
def remember (s : State) (name content : Text) : State :=
  { s with registry := s.registry.remember name content }

/-- The state in which a partial begins to be expanded. -/
def push (s : State) (name : Text) : State := { s with chain := s.chain ++ [name] }

/-- The state in which the innermost partial is no longer expanded. -/
def pop (s : State) : State := { s with chain := s.chain.dropLast }

/-- The contents of some references, one after the other. -/
def contents (resolve : Text → State → Except Error Text × State) :
    List (Span × Text) → State → Except Error (List (Span × Text)) × State
  | [], s => (.ok [], s)
  | (span, name) :: refs, s =>
    match resolve name s with
    | (.error e, s) => (.error e, s)
    | (.ok content, s) =>
      match contents resolve refs s with
      | (.error e, s) => (.error e, s)
      | (.ok edits, s) => (.ok ((span, content) :: edits), s)

/-- A text with its references replaced, given how a name is resolved. -/
def expandWith (policy : Policy) (resolve : Text → State → Except Error Text × State)
    (text : Text) (s : State) : Except Error Text × State :=
  match reportMalformed policy [.inclusion] text (Tag.lex text) with
  | .error e => (.error e, s)
  | .ok () =>
    match contents resolve (references text) s with
    | (.error e, s) => (.error e, s)
    | (.ok edits, s) => (.ok (Text.splice text edits), s)

/-- The expanded content of a partial. The depth is that of the chain; `room` only says how often
the definition may call itself. -/
def resolve (loader : Loader) (rules : Rules) (room : Nat) (name : Text) (s : State) :
    Except Error Text × State :=
  match s.content? name with
  | some content => (.ok content, s)
  | none =>
    if name ∈ s.chain then (.error (.cyclic (s.chain ++ [name])), s)
    else if rules.depth ≤ s.chain.length then (.error (.tooDeep name rules.depth), s)
    else
      match room with
      | 0 => (.error (.tooDeep name rules.depth), s)
      | room + 1 =>
        let request : Request := ⟨.fragment, name⟩
        let s := s.asked request
        match loader.ask request with
        | .error e => (.error e, s)
        | .ok raw =>
          match expandWith rules.policy (resolve loader rules room) raw (s.push name) with
          | (.error e, s) => (.error e, s.pop)
          | (.ok content, s) => (.ok content, s.pop.remember name content)

/-- Without room a partial is one that is kept, one that is being expanded or one too deep. -/
theorem resolve_zero (loader : Loader) (rules : Rules) (name : Text) (s : State) :
    resolve loader rules 0 name s =
      match s.content? name with
      | some content => (.ok content, s)
      | none =>
        if name ∈ s.chain then (.error (.cyclic (s.chain ++ [name])), s)
        else (.error (.tooDeep name rules.depth), s) := by
  -- The room is known and what is kept is not: a call opens by its definition alone.
  delta resolve
  show (match s.content? name with
    | some content => (.ok content, s)
    | none => if name ∈ s.chain then _ else if rules.depth ≤ s.chain.length then _ else _ :
    Except Error Text × State) = _
  simp only [ite_self]

/-- With room the text of a partial is asked for and expanded with the partial on the chain. -/
theorem resolve_succ (loader : Loader) (rules : Rules) (room : Nat) (name : Text) (s : State) :
    resolve loader rules (room + 1) name s =
      match s.content? name with
      | some content => (.ok content, s)
      | none =>
        if name ∈ s.chain then (.error (.cyclic (s.chain ++ [name])), s)
        else if rules.depth ≤ s.chain.length then (.error (.tooDeep name rules.depth), s)
        else
          match loader.ask ⟨.fragment, name⟩ with
          | .error e => (.error e, s.asked ⟨.fragment, name⟩)
          | .ok raw =>
            match expandWith rules.policy (resolve loader rules room) raw
                ((s.asked ⟨.fragment, name⟩).push name) with
            | (.error e, s) => (.error e, s.pop)
            | (.ok content, s) => (.ok content, s.pop.remember name content) := by
  delta resolve
  rfl

/-! ## The chain is left as it was -/

/-- What a computation on a registry comes to beside a chain that it does not touch. -/
def beside {α : Type} (chain : List Text) (x : Except Error α × Registry) :
    Except Error α × State := (x.1, ⟨x.2, chain⟩)

section

variable {on : Text → State → Except Error Text × State}
  {resolve : Text → Registry → Except Error Text × Registry} {chain : List Text}
  (h : ∀ name r, on name ⟨r, chain⟩ = beside chain (resolve name r))

include h

theorem contents_eq (refs : List (Span × Text)) (r : Registry) :
    contents on refs ⟨r, chain⟩ = beside chain (Inclusion.contents resolve refs r) := by
  induction refs generalizing r with
  | nil => rfl
  | cons ref refs ih =>
      obtain ⟨span, name⟩ := ref
      rw [contents, h, contents_cons]
      obtain ⟨e | content, r₁⟩ := resolve name r
      · rfl
      · rw [andThen_ok]
        dsimp only [beside]
        rw [ih]
        obtain ⟨e | edits, r₂⟩ := Inclusion.contents resolve refs r₁ <;> rfl

theorem expandWith_eq (policy : Policy) (text : Text) (r : Registry) :
    expandWith policy on text ⟨r, chain⟩ =
      beside chain (Inclusion.expandWith policy resolve text r) := by
  rw [expandWith, Inclusion.expandWith_eq]
  cases reportMalformed policy [.inclusion] text (Tag.lex text) with
  | error e => rfl
  | ok _ =>
      rw [andThen_ok]
      dsimp only
      rw [contents_eq h]
      obtain ⟨e | edits, r₁⟩ := Inclusion.contents resolve (references text) r <;> rfl

end

/-- What a partial comes to that is neither kept nor being expanded, with room for it. -/
def opened (loader : Loader) (rules : Rules) (nested : Text → State → Except Error Text × State)
    (name : Text) (s : State) : Except Error Text × State :=
  match loader.ask ⟨.fragment, name⟩ with
  | .error e => (.error e, s.asked ⟨.fragment, name⟩)
  | .ok raw =>
    match expandWith rules.policy nested raw ((s.asked ⟨.fragment, name⟩).push name) with
    | (.error e, s) => (.error e, s.pop)
    | (.ok content, s) => (.ok content, s.pop.remember name content)

/-- A partial is popped off the chain in the state in which its text was expanded. -/
theorem opened_eq {loader : Loader} {rules : Rules}
    {nested : Text → State → Except Error Text × State} {room : Nat} {chain : List Text}
    {name : Text} {r : Registry}
    (h : ∀ name' r', nested name' ⟨r', chain ++ [name]⟩ =
      beside (chain ++ [name]) (Inclusion.resolve loader rules room (chain ++ [name]) name' r'))
    (hfind : r.expanded.find? name = none) (hmem : name ∉ chain) :
    opened loader rules nested name ⟨r, chain⟩ =
      beside chain (Inclusion.resolve loader rules (room + 1) chain name r) := by
  rw [opened, Inclusion.resolve_succ hfind hmem]
  cases loader.ask ⟨.fragment, name⟩ with
  | error e => rfl
  | ok raw =>
      rw [andThen_ok]
      dsimp only [asked, push]
      rw [expandWith_eq h]
      obtain ⟨e | content, r₁⟩ := Inclusion.expandWith rules.policy
        (Inclusion.resolve loader rules room (chain ++ [name])) raw (r.asked ⟨.fragment, name⟩)
      · simp [beside, pop]
      · simp [beside, pop, remember]

/-- **The chain is restored**, by success and failure alike. The induction is on the room, which
is what the chain leaves of the limit. -/
theorem resolve_eq (loader : Loader) {rules : Rules} {room : Nat} {chain : List Text}
    (h : room + chain.length = rules.depth) (name : Text) (r : Registry) :
    resolve loader rules room name ⟨r, chain⟩ =
      beside chain (Inclusion.resolve loader rules room chain name r) := by
  induction room generalizing chain name r with
  | zero =>
      rw [resolve_zero, content?, Inclusion.resolve]
      cases r.expanded.find? name with
      | some content => rfl
      | none =>
          by_cases hmem : name ∈ chain
          · simp only [if_pos hmem]
            rfl
          · simp only [if_neg hmem]
            rfl
  | succ room ih =>
      have hpushed : ∀ name' r', resolve loader rules room name' ⟨r', chain ++ [name]⟩ =
          beside (chain ++ [name])
            (Inclusion.resolve loader rules room (chain ++ [name]) name' r') := by
        refine ih ?_
        rw [List.length_append, List.length_singleton]
        omega
      rw [resolve_succ, content?]
      cases hfind : r.expanded.find? name with
      | some content =>
          rw [resolve_of_expanded hfind]
          rfl
      | none =>
          by_cases hmem : name ∈ chain
          · rw [resolve_of_mem_chain hfind hmem]
            simp only [if_pos hmem]
            rfl
          · simp only [if_neg hmem, if_neg (show ¬ rules.depth ≤ chain.length by omega)]
            exact opened_eq hpushed hfind hmem

end State

end TagTemplate.Inclusion
