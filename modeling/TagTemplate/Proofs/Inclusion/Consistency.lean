import TagTemplate.Proofs.Inclusion.Expansion
import TagTemplate.Proofs.Inclusion.Stack

/-!
# A registry over many calls

A registry may be asked for partials and for the expansion of texts any number
of times, and some of these calls may fail. `Advances` lists what a computation
does to the registry it is handed, whether it fails or not: it asks the loader
for partials that are neither kept nor open, each once, it changes nothing that
is kept, and what it keeps in addition are expansions. Both levels of the
recursion, names and texts, advance the registry: `orderly_resolve`.

A call that failed has left behind the partials that it could expand. When it
is repeated it finds these, comes to the same place and fails there again:
`repeats_resolve`.
-/

namespace TagTemplate.Inclusion

variable {loader : Loader} {policy : Policy} {rules : Rules} {name : Text} {room : Nat}
  {chain asked asked' : List Text} {r r' r'' : Registry}

/-! ## What a computation does to a registry -/

/-- Every one of some partials is kept. -/
def Kept (names : List Text) (r : Registry) : Prop :=
  ∀ name ∈ names, ∃ content, r.expanded.find? name = some content

/-- What a computation that asks for some partials, while those on the chain are open, does to a
registry. -/
structure Advances (loader : Loader) (policy : Policy) (chain asked : List Text)
    (r r' : Registry) : Prop where
  requests : r'.requests = r.requests ++ asked.map (Request.mk .fragment)
  nodup : asked.Nodup
  unkept : ∀ name ∈ asked, r.expanded.find? name = none
  unopened : ∀ name ∈ asked, name ∉ chain
  keeps : ∀ name content, r.expanded.find? name = some content →
    r'.expanded.find? name = some content
  opened : ∀ name ∈ chain, r'.expanded.find? name = r.expanded.find? name
  sound : Sound loader policy r → Sound loader policy r'

theorem kept_nil (r : Registry) : Kept [] r := fun _ h => absurd h List.not_mem_nil

theorem Advances.refl (r : Registry) : Advances loader policy chain [] r r where
  requests := (List.append_nil _).symm
  nodup := List.nodup_nil
  unkept := fun _ h => absurd h List.not_mem_nil
  unopened := fun _ h => absurd h List.not_mem_nil
  keeps := fun _ _ h => h
  opened := fun _ _ => rfl
  sound := fun h => h

theorem Advances.kept {names : List Text} (h : Advances loader policy chain asked r r')
    (hk : Kept names r) : Kept names r' := by
  intro name hname
  obtain ⟨content, hcontent⟩ := hk name hname
  exact ⟨content, h.keeps name content hcontent⟩

/-- Two computations, of which the first has succeeded and so keeps what it asked for. -/
theorem Advances.trans (h : Advances loader policy chain asked r r') (hk : Kept asked r')
    (h' : Advances loader policy chain asked' r' r'') :
    Advances loader policy chain (asked ++ asked') r r'' where
  requests := by rw [h'.requests, h.requests, List.map_append, List.append_assoc]
  nodup := by
    refine List.nodup_append.2 ⟨h.nodup, h'.nodup, ?_⟩
    intro name hname name' hname' heq
    obtain ⟨content, hcontent⟩ := hk name hname
    rw [heq, h'.unkept name' hname'] at hcontent
    cases hcontent
  unkept := by
    intro name hname
    rcases List.mem_append.1 hname with hname | hname
    · exact h.unkept name hname
    · cases hfind : r.expanded.find? name with
      | none => rfl
      | some content =>
          rw [← h'.unkept name hname, h.keeps name content hfind]
  unopened := by
    intro name hname
    rcases List.mem_append.1 hname with hname | hname
    · exact h.unopened name hname
    · exact h'.unopened name hname
  keeps := fun name content hfind => h'.keeps name content (h.keeps name content hfind)
  opened := fun name hname => (h'.opened name hname).trans (h.opened name hname)
  sound := fun hr => h'.sound (h.sound hr)

/-- A partial that is asked for and not expanded. -/
theorem Advances.ask (hfind : r.expanded.find? name = none) (hmem : name ∉ chain) :
    Advances loader policy chain [name] r (r.asked ⟨.fragment, name⟩) where
  requests := rfl
  nodup := List.nodup_cons.2 ⟨List.not_mem_nil, List.nodup_nil⟩
  unkept := by
    intro name' hname'
    rw [List.mem_singleton.1 hname']
    exact hfind
  unopened := by
    intro name' hname'
    rw [List.mem_singleton.1 hname']
    exact hmem
  keeps := fun _ _ h => h
  opened := fun _ _ => rfl
  sound := fun h => h

/-- A partial that is asked for, with what is done while it is open. -/
theorem Advances.open_ (hfind : r.expanded.find? name = none) (hmem : name ∉ chain)
    (h : Advances loader policy (chain ++ [name]) asked (r.asked ⟨.fragment, name⟩) r') :
    Advances loader policy chain (name :: asked) r r' where
  requests := by
    rw [h.requests]
    exact List.append_assoc r.requests [_] _
  nodup := List.nodup_cons.2 ⟨fun hname => h.unopened name hname (by simp), h.nodup⟩
  unkept := by
    intro name' hname'
    rcases List.mem_cons.1 hname' with rfl | hname'
    · exact hfind
    · exact h.unkept name' hname'
  unopened := by
    intro name' hname'
    rcases List.mem_cons.1 hname' with rfl | hname'
    · exact hmem
    · exact fun hchain => h.unopened name' hname' (List.mem_append_left _ hchain)
  keeps := h.keeps
  opened := fun name' hname' => h.opened name' (List.mem_append_left _ hname')
  sound := h.sound

/-- A partial that is not on the chain is kept from now on. -/
theorem Advances.remember {content : Text} (h : Advances loader policy chain asked r r')
    (hfind : r.expanded.find? name = none) (hmem : name ∉ chain)
    (hc : Sound loader policy r → Approved loader policy name content) :
    Advances loader policy chain asked r (r'.remember name content) where
  requests := h.requests
  nodup := h.nodup
  unkept := h.unkept
  unopened := h.unopened
  keeps := by
    intro name' content' hfind'
    have hne : name ≠ name' := by
      rintro rfl
      rw [hfind] at hfind'
      cases hfind'
    rw [Registry.remember, Bindings.find?_insert, if_neg hne]
    exact h.keeps name' content' hfind'
  opened := by
    intro name' hname'
    have hne : name ≠ name' := fun heq => hmem (heq ▸ hname')
    rw [Registry.remember, Bindings.find?_insert, if_neg hne]
    exact h.opened name' hname'
  sound := fun hr => (h.sound hr).remember (hc hr)

theorem find?_remember (r : Registry) (name content : Text) :
    (r.remember name content).expanded.find? name = some content := by
  rw [Registry.remember, Bindings.find?_insert, if_pos rfl]

/-! ## Every call advances the registry -/

section

variable {α β : Type} {x : Except Error α × Registry}
  {resolve : Text → Registry → Except Error Text × Registry}

/-- What a computation on `r` comes to is accounted for: it has advanced the registry, and if it
has succeeded, all that it asked for is kept. -/
def Accounted (loader : Loader) (policy : Policy) (chain : List Text) (r : Registry)
    (x : Except Error α × Registry) : Prop :=
  ∃ asked, Advances loader policy chain asked r x.2 ∧ ∀ a, x.1 = .ok a → Kept asked x.2

theorem Accounted.refl (result : Except Error α) (r : Registry) :
    Accounted loader policy chain r (result, r) := ⟨[], .refl r, fun _ _ => kept_nil r⟩

theorem Accounted.andThen {f : α → Registry → Except Error β × Registry}
    (hx : Accounted loader policy chain r x)
    (hf : ∀ a, x.1 = .ok a → Accounted loader policy chain x.2 (f a x.2)) :
    Accounted loader policy chain r (andThen x f) := by
  obtain ⟨asked, hadvances, hkept⟩ := hx
  obtain ⟨e | a, r₁⟩ := x
  · exact ⟨asked, hadvances, fun _ herror => nomatch herror⟩
  · obtain ⟨asked', hrest, hkept'⟩ := hf a rfl
    refine ⟨asked ++ asked', hadvances.trans (hkept a rfl) hrest, fun b hb name hname => ?_⟩
    rcases List.mem_append.1 hname with hname | hname
    · exact hrest.kept (hkept a rfl) name hname
    · exact hkept' b hb name hname

/-- A partial that is asked for, expanded while it is open, and kept if that has succeeded. -/
theorem Accounted.open_ {x : Except Error Text × Registry}
    (hfind : r.expanded.find? name = none) (hmem : name ∉ chain)
    (hx : Accounted loader policy (chain ++ [name]) (r.asked ⟨.fragment, name⟩) x)
    (happroved : ∀ content, x.1 = .ok content → Sound loader policy r →
      Approved loader policy name content) :
    let y := Inclusion.andThen x fun content r => (.ok content, r.remember name content)
    Accounted loader policy chain r y ∧
      ∀ content, y.1 = .ok content → y.2.expanded.find? name = some content := by
  obtain ⟨asked, hadvances, hkept⟩ := hx
  have hopened := hadvances.open_ hfind hmem
  obtain ⟨e | content, r₁⟩ := x
  · exact ⟨⟨name :: asked, hopened, fun _ herror => nomatch herror⟩, fun _ herror => nomatch herror⟩
  · have hgiven : (r₁.remember name content).expanded.find? name = some content :=
      find?_remember r₁ name content
    refine ⟨⟨name :: asked, hopened.remember hfind hmem (happroved content rfl),
      fun _ _ name' hname' => ?_⟩, fun _ hok => hgiven.trans (congrArg some (Except.ok.inj hok))⟩
    by_cases heq : name = name'
    · exact ⟨content, heq ▸ hgiven⟩
    · have hname := (List.mem_cons.1 hname').resolve_left fun h => heq h.symm
      obtain ⟨kept, hkept⟩ := hkept content rfl name' hname
      refine ⟨kept, ?_⟩
      show (r₁.remember name content).expanded.find? name' = some kept
      rw [Registry.remember, Bindings.find?_insert, if_neg heq]
      exact hkept

/-- A way of resolving names that advances registries, and keeps what it gives. -/
def Orderly (loader : Loader) (policy : Policy) (chain : List Text)
    (resolve : Text → Registry → Except Error Text × Registry) : Prop :=
  ∀ name r, Accounted loader policy chain r (resolve name r) ∧
    ∀ content, (resolve name r).1 = .ok content →
      (resolve name r).2.expanded.find? name = some content

theorem Orderly.contents (h : Orderly loader policy chain resolve) (refs : List (Span × Text))
    (r : Registry) : Accounted loader policy chain r (Inclusion.contents resolve refs r) := by
  induction refs generalizing r with
  | nil => exact .refl _ r
  | cons ref refs ih =>
      obtain ⟨span, name⟩ := ref
      rw [contents_cons]
      exact (h name r).1.andThen fun _ _ => (ih _).andThen fun _ _ => .refl _ _

theorem Orderly.expandWith (h : Orderly loader policy chain resolve) (text : Text) (r : Registry) :
    Accounted loader policy chain r (Inclusion.expandWith policy resolve text r) := by
  rw [expandWith_eq]
  exact (Accounted.refl _ r).andThen fun _ _ =>
    (h.contents (references text) r).andThen fun _ _ => .refl _ _

end

/-- **Resolving a partial advances the registry**, by success and failure alike. -/
theorem orderly_resolve (loader : Loader) (rules : Rules) (room : Nat) (chain : List Text) :
    Orderly loader rules.policy chain (resolve loader rules room chain) := by
  induction room using Nat.strongRecOn generalizing chain with
  | ind room ih =>
  intro name r
  rcases resolve_cases loader rules room chain name r with
    ⟨kept, hfind⟩ | ⟨hfind, ⟨e, -, herror⟩ | ⟨hmem, room, rfl⟩⟩
  · rw [resolve_of_expanded hfind]
    exact ⟨.refl _ r, fun _ hok => hfind.trans (congrArg some (Except.ok.inj hok))⟩
  · rw [herror r hfind]
    exact ⟨.refl _ r, fun _ h => nomatch h⟩
  · rw [resolve_succ hfind hmem]
    cases hask : loader.ask ⟨.fragment, name⟩ with
    | error e => exact ⟨⟨[name], .ask hfind hmem, fun _ h => nomatch h⟩, fun _ h => nomatch h⟩
    | ok raw =>
        have hexpanded := (ih room (Nat.lt_succ_self room) (chain ++ [name])).expandWith raw
          (r.asked ⟨.fragment, name⟩)
        rw [andThen_ok]
        refine hexpanded.open_ hfind hmem fun content hok hr => ?_
        obtain ⟨hexpands, hreferred, -⟩ :=
          (resolves_resolve loader rules room _).expandWith (hr.asked _) (Prod.ext hok rfl)
        exact ⟨raw, ask_eq_ok_iff.1 hask, hexpands, hreferred⟩

/-! ## Repeating a call that failed -/

/-- A failed computation fails again in the same way, on every registry that keeps the same, and
keeps nothing more. -/
def Repeats {α : Type} (f : Registry → Except Error α × Registry) : Prop :=
  ∀ r e, (f r).1 = .error e → ∀ r', r'.expanded = (f r).2.expanded →
    (f r').1 = .error e ∧ (f r').2.expanded = r'.expanded

section

variable {α β : Type} {f : Registry → Except Error α × Registry}
  {resolve : Text → Registry → Except Error Text × Registry}

/-- What cannot fail does not matter. -/
theorem Repeats.andThen_ok (h : Repeats f) (g : α → Registry → β) (k : α → Registry → Registry) :
    Repeats fun r => andThen (f r) fun a r => (.ok (g a r), k a r) := by
  intro r e herror r' hr'
  rcases andThen_eq_error herror with hfails | ⟨_, -, hok⟩
  · change r'.expanded = (andThen (f r) _).2.expanded at hr'
    rw [andThen_of_error hfails] at hr'
    obtain ⟨hagain, hsame⟩ := h r e hfails r' hr'
    show (andThen (f r') _).1 = _ ∧ (andThen (f r') _).2.expanded = _
    rw [andThen_of_error hagain]
    exact ⟨rfl, hsame⟩
  · cases hok

/-- Names that are kept are resolved to what they are kept with. -/
def Recalls (resolve : Text → Registry → Except Error Text × Registry) : Prop :=
  ∀ name r content, r.expanded.find? name = some content → resolve name r = (.ok content, r)

theorem repeats_contents (hres : ∀ name, Repeats (resolve name)) (hrecalls : Recalls resolve)
    (horderly : Orderly loader policy chain resolve) (refs : List (Span × Text)) :
    Repeats (contents resolve refs) := by
  induction refs with
  | nil =>
      intro r e herror
      cases herror
  | cons ref refs ih =>
      obtain ⟨span, name⟩ := ref
      intro r e herror r' hr'
      rw [contents_cons] at herror hr' ⊢
      rcases andThen_eq_error herror with hfails | ⟨content, hok, hrest⟩
      · rw [andThen_of_error hfails] at hr'
        obtain ⟨hagain, hsame⟩ := hres name r e hfails r' hr'
        rw [andThen_of_error hagain]
        exact ⟨rfl, hsame⟩
      · -- the name is kept since, and the failure is further behind
        rw [andThen_of_ok hok] at hr'
        obtain ⟨_, hadvances, -⟩ := (horderly.contents refs (resolve name r).2).andThen
          (f := fun edits r => (.ok ((span, content) :: edits), r)) fun _ _ => .refl _ _
        have hfound : r'.expanded.find? name = some content := by
          rw [hr']
          exact hadvances.keeps name content ((horderly name r).2 content hok)
        rw [hrecalls name r' content hfound, andThen_ok]
        exact ih.andThen_ok (fun edits _ => (span, content) :: edits) (fun _ r => r) _ e hrest
          r' hr'

theorem repeats_expandWith (hres : ∀ name, Repeats (resolve name)) (hrecalls : Recalls resolve)
    (horderly : Orderly loader policy chain resolve) (policy' : Policy) (text : Text) :
    Repeats (expandWith policy' resolve text) := by
  have hcontents := (repeats_contents hres hrecalls horderly (references text)).andThen_ok
    (fun edits _ => Text.splice text edits) fun _ r => r
  intro r e herror r' hr'
  rw [expandWith_eq] at herror hr' ⊢
  cases hreport : reportMalformed policy' [.inclusion] text (Tag.lex text) with
  | error e₁ =>
      rw [hreport] at herror
      exact ⟨herror, rfl⟩
  | ok _ =>
      rw [hreport] at herror hr'
      exact hcontents r e herror r' hr'

end

theorem recalls_resolve (loader : Loader) (rules : Rules) (room : Nat) (chain : List Text) :
    Recalls (resolve loader rules room chain) := fun _ _ _ => resolve_of_expanded

/-- **A partial that could not be resolved** cannot be resolved again, for the same reason. -/
theorem repeats_resolve (loader : Loader) (rules : Rules) (room : Nat) (chain : List Text)
    (name : Text) : Repeats (resolve loader rules room chain name) := by
  induction room using Nat.strongRecOn generalizing chain name with
  | ind room ih =>
  intro r e herror r' hr'
  rcases resolve_cases loader rules room chain name r with
    ⟨kept, hfind⟩ | ⟨hfind, ⟨e', -, hfails⟩ | ⟨hmem, room, rfl⟩⟩
  · rw [resolve_of_expanded hfind] at herror
    cases herror
  · rw [hfails r hfind] at herror hr'
    rw [hfails r' (by rw [hr']; exact hfind)]
    exact ⟨herror, rfl⟩
  · rw [resolve_succ hfind hmem] at herror hr'
    have horderly := orderly_resolve loader rules room (chain ++ [name])
    cases hask : loader.ask ⟨.fragment, name⟩ with
    | error e₁ =>
        rw [hask] at herror hr'
        rw [resolve_succ (by rw [hr']; exact hfind) hmem, hask]
        exact ⟨herror, rfl⟩
    | ok raw =>
        have hexpand := (repeats_expandWith (ih room (Nat.lt_succ_self room) (chain ++ [name]))
          (recalls_resolve loader rules room _) horderly rules.policy raw).andThen_ok
          (fun content _ => content) fun content r => r.remember name content
        rw [hask, andThen_ok] at herror hr'
        -- the partial was open at the failure, so it is not kept
        have hopened : r'.expanded.find? name = none := by
          rcases andThen_eq_error herror with hfails | ⟨_, -, hok⟩
          · obtain ⟨_, hadvances, -⟩ := horderly.expandWith raw (r.asked ⟨.fragment, name⟩)
            rw [hr', andThen_of_error hfails]
            exact (hadvances.opened name (by simp)).trans hfind
          · cases hok
        rw [resolve_succ hopened hmem, hask, andThen_ok]
        exact hexpand _ e herror (r'.asked ⟨.fragment, name⟩) hr'

/-! ## Calls -/

/-- What a registry can be asked for. -/
inductive Call where
  | partial_ (name : Text)
  | text (t : Text)
  deriving DecidableEq, Repr

namespace Call

/-- What a call comes to, and the registry afterwards. -/
def answer (loader : Loader) (rules : Rules) : Call → Registry → Except Error Text × Registry
  | partial_ name => Registry.resolve loader rules name
  | text t => Registry.expand loader rules t

/-- What a call comes to, with the chain as state. -/
def run (loader : Loader) (rules : Rules) : Call → State → Except Error Text × State
  | partial_ name => State.resolve loader rules rules.depth name
  | text t => State.expandWith rules.policy (State.resolve loader rules rules.depth) t

/-- The state after some calls, one after the other. -/
def after (loader : Loader) (rules : Rules) (calls : List Call) : State :=
  calls.foldl (fun s call => (call.run loader rules s).2) .fresh

theorem run_eq (call : Call) (r : Registry) :
    call.run loader rules ⟨r, []⟩ = State.beside [] (call.answer loader rules r) := by
  cases call with
  | partial_ name => exact State.resolve_eq loader (Nat.add_zero _) name r
  | text t =>
      exact State.expandWith_eq (State.resolve_eq loader (Nat.add_zero _)) rules.policy t r

theorem advances (loader : Loader) (rules : Rules) (call : Call) (r : Registry) :
    ∃ asked, Advances loader rules.policy [] asked r (call.answer loader rules r).2 := by
  have horderly := orderly_resolve loader rules rules.depth []
  cases call with
  | partial_ name =>
      obtain ⟨asked, h, -⟩ := (horderly name r).1
      exact ⟨asked, h⟩
  | text t =>
      obtain ⟨asked, h, -⟩ := horderly.expandWith t r
      exact ⟨asked, h⟩

theorem repeats (call : Call) : Repeats (call.answer loader rules) := by
  have hres := repeats_resolve loader rules rules.depth []
  cases call with
  | partial_ name => exact hres name
  | text t =>
      exact repeats_expandWith hres (recalls_resolve loader rules rules.depth [])
        (orderly_resolve loader rules rules.depth []) rules.policy t

/-- Between calls no partial is open, and every partial that is kept is kept with its expansion. -/
theorem exists_after (loader : Loader) (rules : Rules) (calls : List Call) :
    ∃ r, after loader rules calls = ⟨r, []⟩ ∧ Sound loader rules.policy r := by
  suffices h : ∀ r, Sound loader rules.policy r → ∃ r',
      calls.foldl (fun s call => (call.run loader rules s).2) ⟨r, []⟩ = ⟨r', []⟩ ∧
        Sound loader rules.policy r' from h .empty sound_empty
  induction calls with
  | nil => exact fun r hr => ⟨r, rfl, hr⟩
  | cons call calls ih =>
      intro r hr
      obtain ⟨_, hadvances⟩ := call.advances loader rules r
      rw [List.foldl_cons, run_eq]
      exact ih _ (hadvances.sound hr)

/-- **A registry stays consistent.** After any calls, some of which may have failed, one more call
is the one on the registry alone and leaves no partial open. It changes nothing that is kept, and
what is kept are expansions. It asks the loader for partials that are not kept, for each once. If
it fails, it fails in the same way when it is repeated, which keeps nothing more. -/
theorem run_consistent (loader : Loader) (rules : Rules) (calls : List Call) (call : Call) :
    let before := after loader rules calls
    let result := (call.run loader rules before).1
    let state := (call.run loader rules before).2
    (result, state.registry) = call.answer loader rules before.registry ∧
      before.chain = [] ∧ state.chain = [] ∧
      (∀ name content, before.content? name = some content →
        state.content? name = some content) ∧
      (∀ name content, state.content? name = some content → Stands loader name content) ∧
      (∃ asked : List Text,
        state.registry.requests =
          before.registry.requests ++ asked.map (Request.mk .fragment) ∧
        asked.Nodup ∧ ∀ name ∈ asked, before.content? name = none) ∧
      ∀ e, result = .error e →
        (call.run loader rules state).1 = .error e ∧
        (call.run loader rules state).2.registry.expanded = state.registry.expanded := by
  intro before result state
  obtain ⟨r, hbefore, hr⟩ := exists_after loader rules calls
  have hrun : call.run loader rules before = State.beside [] (call.answer loader rules r) := by
    rw [← run_eq, ← hbefore]
  have hresult : result = (call.answer loader rules r).1 := congrArg Prod.fst hrun
  have hstate : state = ⟨(call.answer loader rules r).2, []⟩ := congrArg Prod.snd hrun
  obtain ⟨asked, hadvances⟩ := call.advances loader rules r
  rw [show before = ⟨r, []⟩ from hbefore, hresult, hstate]
  refine ⟨rfl, rfl, rfl, hadvances.keeps, ?_, ?_, ?_⟩
  · exact fun name content hfind => (hadvances.sound hr name content hfind).stands
  · exact ⟨asked, hadvances.requests, hadvances.nodup, hadvances.unkept⟩
  · intro e herror
    obtain ⟨hagain, hsame⟩ := call.repeats r e herror _ rfl
    rw [run_eq]
    exact ⟨hagain, hsame⟩

end Call

end TagTemplate.Inclusion
