import TagTemplate.Inclusion

/-!
# The recursion of inclusion

Resolving a partial and expanding a text hand the registry on from call to
call, also from one that fails. `andThen` is that hand-over; the equations here
write the steps of an expansion with it.
-/

namespace TagTemplate.Inclusion

variable {α β : Type}

/-- Goes on with the result and the registry of a computation, unless it failed. -/
def andThen (x : Except Error α × Registry) (f : α → Registry → Except Error β × Registry) :
    Except Error β × Registry :=
  match x.1 with
  | .error e => (.error e, x.2)
  | .ok a => f a x.2

@[simp] theorem andThen_error (e : Error) (r : Registry)
    (f : α → Registry → Except Error β × Registry) :
    andThen (.error e, r) f = (.error e, r) := rfl

@[simp] theorem andThen_ok (a : α) (r : Registry)
    (f : α → Registry → Except Error β × Registry) : andThen (.ok a, r) f = f a r := rfl

theorem andThen_eq_ok {r' : Registry} {x : Except Error α × Registry}
    {f : α → Registry → Except Error β × Registry} {b : β} (h : andThen x f = (.ok b, r')) :
    ∃ a r₁, x = (.ok a, r₁) ∧ f a r₁ = (.ok b, r') := by
  obtain ⟨e | a, r₁⟩ := x
  · rw [andThen_error] at h
    cases h
  · exact ⟨a, r₁, rfl, h⟩

theorem andThen_of_error {e : Error} {x : Except Error α × Registry}
    {f : α → Registry → Except Error β × Registry} (h : x.1 = .error e) :
    andThen x f = (.error e, x.2) := by
  rw [andThen, h]

theorem andThen_of_ok {a : α} {x : Except Error α × Registry}
    {f : α → Registry → Except Error β × Registry} (h : x.1 = .ok a) :
    andThen x f = f a x.2 := by
  rw [andThen, h]

/-- A computation fails in its first part or, after that has succeeded, in its second. -/
theorem andThen_eq_error {e : Error} {x : Except Error α × Registry}
    {f : α → Registry → Except Error β × Registry} (h : (andThen x f).1 = .error e) :
    x.1 = .error e ∨ ∃ a, x.1 = .ok a ∧ (f a x.2).1 = .error e := by
  obtain ⟨e' | a, r₁⟩ := x
  · rw [andThen_error] at h
    cases h
    exact .inl rfl
  · exact .inr ⟨a, rfl, h⟩

/-- What both parts of a computation keep true of the registry. -/
theorem andThen_registry {P : Registry → Prop} {x : Except Error α × Registry}
    {f : α → Registry → Except Error β × Registry} (hx : P x.2)
    (hf : ∀ a, x.1 = .ok a → P (f a x.2).2) : P (andThen x f).2 := by
  obtain ⟨e | a, r₁⟩ := x
  · exact hx
  · exact hf a rfl

theorem contents_cons (resolve : Text → Registry → Except Error Text × Registry) (s : Span)
    (name : Text) (refs : List (Span × Text)) (r : Registry) :
    contents resolve ((s, name) :: refs) r =
      andThen (resolve name r) fun content r =>
        andThen (contents resolve refs r) fun edits r => (.ok ((s, content) :: edits), r) := by
  rw [contents]
  rcases resolve name r with ⟨e | content, r⟩
  · rfl
  · rw [andThen_ok]
    dsimp only
    rcases contents resolve refs r with ⟨e | edits, r⟩ <;> rfl

theorem expandWith_eq (policy : Policy) (resolve : Text → Registry → Except Error Text × Registry)
    (text : Text) (r : Registry) :
    expandWith policy resolve text r =
      andThen (reportMalformed policy [.inclusion] text (Tag.lex text), r) fun _ r =>
        andThen (contents resolve (references text) r) fun edits r =>
          (.ok (Text.splice text edits), r) := by
  rw [expandWith]
  cases reportMalformed policy [.inclusion] text (Tag.lex text) with
  | error e => rfl
  | ok _ =>
      rw [andThen_ok]
      dsimp only
      rcases contents resolve (references text) r with ⟨e | edits, r⟩ <;> rfl

variable {loader : Loader} {rules : Rules} {room : Nat} {chain : List Text} {name : Text}
  {r : Registry}

theorem resolve_of_expanded {content : Text} (h : r.expanded.find? name = some content) :
    resolve loader rules room chain name r = (.ok content, r) := by
  cases room <;> simp [resolve, h]

theorem resolve_of_mem_chain (h : r.expanded.find? name = none) (hmem : name ∈ chain) :
    resolve loader rules room chain name r = (.error (.cyclic (chain ++ [name])), r) := by
  cases room <;> simp [resolve, h, hmem]

theorem resolve_zero (h : r.expanded.find? name = none) (hmem : name ∉ chain) :
    resolve loader rules 0 chain name r = (.error (.tooDeep name rules.depth), r) := by
  simp [resolve, h, hmem]

/-- A partial that is neither expanded nor open, with room for it, is read and expanded. -/
theorem resolve_succ (h : r.expanded.find? name = none) (hmem : name ∉ chain) :
    resolve loader rules (room + 1) chain name r =
      andThen (loader.ask ⟨.fragment, name⟩, r.asked ⟨.fragment, name⟩) fun raw r =>
        andThen (expandWith rules.policy (resolve loader rules room (chain ++ [name])) raw r)
          fun content r => (.ok content, r.remember name content) := by
  rw [resolve]
  simp only [h, hmem, if_false]
  cases loader.ask ⟨.fragment, name⟩ with
  | error e => rfl
  | ok raw =>
      rw [andThen_ok]
      dsimp only
      rcases expandWith rules.policy (resolve loader rules room (chain ++ [name])) raw
        (r.asked ⟨.fragment, name⟩) with ⟨e | content, r⟩ <;> rfl

/-- A partial is kept, or it is open or there is no room for it, so that it cannot be resolved as
long as it is not kept, or it is read and expanded. -/
theorem resolve_cases (loader : Loader) (rules : Rules) (room : Nat) (chain : List Text)
    (name : Text) (r : Registry) :
    (∃ content, r.expanded.find? name = some content) ∨ r.expanded.find? name = none ∧
      ((∃ e, (name ∈ chain ∧ e = .cyclic (chain ++ [name]) ∨
            name ∉ chain ∧ room = 0 ∧ e = .tooDeep name rules.depth) ∧
          ∀ r' : Registry, r'.expanded.find? name = none →
            resolve loader rules room chain name r' = (.error e, r')) ∨
        name ∉ chain ∧ ∃ room', room = room' + 1) := by
  cases hfind : r.expanded.find? name with
  | some content => exact .inl ⟨content, rfl⟩
  | none =>
      refine .inr ⟨rfl, ?_⟩
      by_cases hmem : name ∈ chain
      · exact .inl ⟨_, .inl ⟨hmem, rfl⟩, fun _ hnone => resolve_of_mem_chain hnone hmem⟩
      · cases room with
        | zero => exact .inl ⟨_, .inr ⟨hmem, rfl, rfl⟩, fun _ hnone => resolve_zero hnone hmem⟩
        | succ room => exact .inr ⟨hmem, room, rfl⟩

theorem ask_eq_ok_iff {raw : Text} :
    loader.ask ⟨.fragment, name⟩ = .ok raw ↔ loader .fragment name = .ok raw := by
  rw [Loader.ask]
  cases loader .fragment name <;> simp

/-- A partial that is resolved was expanded before, or there was room and it is read and expanded
now. -/
theorem resolve_eq_ok {content : Text} {r' : Registry}
    (h : resolve loader rules room chain name r = (.ok content, r')) :
    (r.expanded.find? name = some content ∧ r' = r) ∨
      ∃ room' raw r₁, room = room' + 1 ∧ loader .fragment name = .ok raw ∧
        expandWith rules.policy (resolve loader rules room' (chain ++ [name])) raw
          (r.asked ⟨.fragment, name⟩) = (.ok content, r₁) ∧ r' = r₁.remember name content := by
  rcases resolve_cases loader rules room chain name r with
    ⟨kept, hfind⟩ | ⟨hfind, ⟨e, -, herror⟩ | ⟨hmem, room, rfl⟩⟩
  · rw [resolve_of_expanded hfind] at h
    cases h
    exact .inl ⟨hfind, rfl⟩
  · rw [herror r hfind] at h
    cases h
  · rw [resolve_succ hfind hmem] at h
    obtain ⟨raw, r₁, hasked, h⟩ := andThen_eq_ok h
    obtain ⟨hask, rfl⟩ := Prod.mk.inj hasked
    obtain ⟨content', r₂, hexpand, h⟩ := andThen_eq_ok h
    cases h
    exact .inr ⟨room, raw, r₂, rfl, ask_eq_ok_iff.1 hask, hexpand, rfl⟩

end TagTemplate.Inclusion
