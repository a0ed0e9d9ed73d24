import TagTemplate.Proofs.Inclusion.Graph

/-!
# Partials are expanded by substitution

The registry makes no difference to what an expansion is: each partial that it
keeps stands for its expansion, so a partial that is found in it might as well
be expanded again. With this invariant `resolve` is shown to give expansions
only (soundness), and to give one wherever the graph of what a text includes
has no cycle, no gap, no malformed reference and no chain that is too long
(completeness). Both are inductions on the room that is left.
-/

namespace TagTemplate.Inclusion

variable {loader : Loader} {policy : Policy} {rules : Rules} {t s : Text} {name : Text}
  {room : Nat} {chain : List Text} {r r' : Registry}

/-- The content is the expansion of the partial, whose text has no malformed reference to reject. -/
def Approved (loader : Loader) (policy : Policy) (name content : Text) : Prop :=
  ∃ raw, loader .fragment name = .ok raw ∧ Expands loader raw content ∧
    WellReferred loader policy raw

/-- Every partial that a registry keeps is kept with its expansion. -/
def Sound (loader : Loader) (policy : Policy) (r : Registry) : Prop :=
  ∀ name content, r.expanded.find? name = some content → Approved loader policy name content

theorem Approved.stands {content : Text} (h : Approved loader policy name content) :
    Stands loader name content := by
  obtain ⟨raw, hraw, hexpands, -⟩ := h
  exact ⟨raw, hraw, hexpands⟩

theorem sound_empty : Sound loader policy Registry.empty :=
  fun _ _ h => nomatch h

theorem Sound.asked (h : Sound loader policy r) (request : Request) :
    Sound loader policy (r.asked request) := h

theorem Sound.remember {content : Text} (h : Sound loader policy r)
    (hc : Approved loader policy name content) : Sound loader policy (r.remember name content) := by
  intro name' content' hfind
  rw [Registry.remember, Bindings.find?_insert] at hfind
  split at hfind
  next heq =>
    cases hfind
    exact heq ▸ hc
  · exact h name' content' hfind

/-! ## Soundness -/

section

variable {resolve : Text → Registry → Except Error Text × Registry}

/-- A way of resolving names gives expansions and keeps registries sound. -/
def Resolves (loader : Loader) (policy : Policy)
    (resolve : Text → Registry → Except Error Text × Registry) : Prop :=
  ∀ name r content r', Sound loader policy r → resolve name r = (.ok content, r') →
    Approved loader policy name content ∧ Sound loader policy r'

theorem Resolves.contents (hres : Resolves loader policy resolve) {refs edits : List (Span × Text)}
    (hr : Sound loader policy r) (h : Inclusion.contents resolve refs r = (.ok edits, r')) :
    List.Forall₂ (fun ref edit => ref.1 = edit.1 ∧ Approved loader policy ref.2 edit.2)
      refs edits ∧ Sound loader policy r' := by
  induction refs generalizing r edits with
  | nil =>
      cases h
      exact ⟨.nil, hr⟩
  | cons ref refs ih =>
      obtain ⟨s, name⟩ := ref
      rw [contents_cons] at h
      obtain ⟨content, r₁, hname, h⟩ := andThen_eq_ok h
      obtain ⟨rest, r₂, hrest, h⟩ := andThen_eq_ok h
      cases h
      obtain ⟨hcontent, hr₁⟩ := hres _ _ _ _ hr hname
      obtain ⟨hedits, hr₂⟩ := ih hr₁ hrest
      exact ⟨.cons ⟨rfl, hcontent⟩ hedits, hr₂⟩

/-- What a text is expanded to is its expansion, if names are resolved to theirs. -/
theorem Resolves.expandWith (hres : Resolves loader policy resolve) (hr : Sound loader policy r)
    (h : Inclusion.expandWith policy resolve t r = (.ok s, r')) :
    Expands loader t s ∧ WellReferred loader policy t ∧ Sound loader policy r' := by
  rw [expandWith_eq] at h
  obtain ⟨_, r₁, hreported, h⟩ := andThen_eq_ok h
  obtain ⟨hreport, rfl⟩ := Prod.mk.inj hreported
  obtain ⟨edits, r₂, hedits, h⟩ := andThen_eq_ok h
  cases h
  obtain ⟨hall, hr'⟩ := hres.contents hr hedits
  refine ⟨expands_of_forall₂ (hall.imp fun ref edit he => ⟨he.1, he.2.stands⟩), ?_, hr'⟩
  refine wellReferred_iff.2 ⟨reportMalformed_eq_ok_iff.1 hreport, ?_⟩
  intro u hex
  obtain ⟨name, hm, hu⟩ := hex
  obtain ⟨ref, href, rfl⟩ := mentions_iff_mem.1 hm
  obtain ⟨edit, -, raw, hraw, -, hreferred⟩ := exists_of_forall₂ hall href
  rw [hu] at hraw
  cases hraw
  exact hreferred

end

/-- **Resolving a partial is sound**: it gives the expansion of the partial. -/
theorem resolves_resolve (loader : Loader) (rules : Rules) (room : Nat) (chain : List Text) :
    Resolves loader rules.policy (resolve loader rules room chain) := by
  induction room generalizing chain with
  | zero =>
      intro name r content r' hr h
      rcases resolve_eq_ok h with ⟨hfind, rfl⟩ | ⟨room', _, _, hroom, -⟩
      · exact ⟨hr name content hfind, hr⟩
      · cases hroom
  | succ room ih =>
      intro name r content r' hr h
      rcases resolve_eq_ok h with ⟨hfind, rfl⟩ | ⟨room', raw, r₁, hroom, hraw, hexpand, rfl⟩
      · exact ⟨hr name content hfind, hr⟩
      · cases hroom
        obtain ⟨hexpands, hreferred, hr₁⟩ := (ih (chain ++ [name])).expandWith (hr.asked _) hexpand
        have happroved : Approved loader rules.policy name content :=
          ⟨raw, hraw, hexpands, hreferred⟩
        exact ⟨happroved, hr₁.remember happroved⟩

/-! ## Completeness -/

/-- What the graph of a text has to be like for an expansion with some room. -/
structure Expandable (loader : Loader) (policy : Policy) (room : Nat) (t : Text) : Prop where
  acyclic : Acyclic loader t
  readable : Readable loader t
  within : ∀ ps, Chain loader t ps → ps.length ≤ room
  referred : WellReferred loader policy t

/-- One partial further there is room for one partial less. -/
theorem Expandable.step (h : Expandable loader policy room t) (hm : Mentions t name) :
    ∃ room' raw, room = room' + 1 ∧ loader .fragment name = .ok raw ∧
      Expandable loader policy room' raw := by
  obtain ⟨raw, hraw⟩ := h.readable name (.of_mentions hm)
  have hreads : Reads loader t raw := ⟨name, hm, hraw⟩
  have hchain : ∀ ps, Chain loader raw ps → ps.length + 1 ≤ room := by
    intro ps hboth
    obtain ⟨hhead, hps⟩ := hboth
    refine h.within (name :: ps) ⟨?_, List.isChain_cons.2 ⟨?_, hps⟩⟩
    · intro p hp
      cases hp
      exact hm
    · exact fun p hp => ⟨raw, hraw, hhead p hp⟩
  have hpos : 1 ≤ room := hchain [] ⟨fun _ hp => (nomatch hp), .nil⟩
  obtain ⟨room', rfl⟩ : ∃ room', room = room' + 1 := ⟨room - 1, by omega⟩
  refine ⟨room', raw, rfl, hraw, ?_, ?_, ?_, h.referred.of_reads hreads⟩
  · exact fun p hp => h.acyclic p (.of_reads hreads hp)
  · exact fun p hp => h.readable p (.of_reads hreads hp)
  · intro ps hps
    have := hchain ps hps
    omega

theorem contents_complete {resolve : Text → Registry → Except Error Text × Registry}
    (hres : Resolves loader policy resolve) {refs : List (Span × Text)}
    (hok : ∀ ref ∈ refs, ∀ r, Sound loader policy r →
      ∃ content r', resolve ref.2 r = (.ok content, r'))
    (hr : Sound loader policy r) : ∃ edits r', contents resolve refs r = (.ok edits, r') := by
  induction refs generalizing r with
  | nil => exact ⟨[], r, rfl⟩
  | cons ref refs ih =>
      obtain ⟨s, name⟩ := ref
      obtain ⟨content, r₁, hname⟩ := hok (s, name) (by simp) r hr
      obtain ⟨edits, r₂, hrest⟩ :=
        ih (fun ref href => hok ref (by simp [href])) (hres _ _ _ _ hr hname).2
      refine ⟨(s, content) :: edits, r₂, ?_⟩
      rw [contents_cons, hname, andThen_ok, hrest, andThen_ok]

theorem expandWith_complete {resolve : Text → Registry → Except Error Text × Registry}
    (hres : Resolves loader policy resolve) (ht : WellReferred loader policy t)
    (hok : ∀ name, Mentions t name → ∀ r, Sound loader policy r →
      ∃ content r', resolve name r = (.ok content, r'))
    (hr : Sound loader policy r) : ∃ s r', expandWith policy resolve t r = (.ok s, r') := by
  have hrefs : ∀ ref ∈ references t, ∀ r, Sound loader policy r →
      ∃ content r', resolve ref.2 r = (.ok content, r') :=
    fun ref href => hok ref.2 (mentions_of_mem href)
  obtain ⟨edits, r', hedits⟩ := contents_complete hres hrefs hr
  refine ⟨Text.splice t edits, r', ?_⟩
  have hreport : reportMalformed policy [.inclusion] t (Tag.lex t) = .ok () :=
    reportMalformed_eq_ok_iff.2 (wellReferred_iff.1 ht).1
  rw [expandWith_eq, hreport, andThen_ok, hedits, andThen_ok]

/-- **Resolving a partial is complete**: it succeeds where the graph allows it. The partials on
the chain include the one to be resolved, which therefore is not among them. -/
theorem resolve_complete (ht : Expandable loader rules.policy room t) (hm : Mentions t name)
    (hchain : ∀ c ∈ chain, Relation.TransGen (Includes loader) c name)
    (hr : Sound loader rules.policy r) :
    ∃ content r', resolve loader rules room chain name r = (.ok content, r') := by
  induction room generalizing t chain name r with
  | zero =>
      obtain ⟨room', -, hroom, -⟩ := ht.step hm
      omega
  | succ room ih =>
      obtain ⟨_, raw, hroom, hraw, hexpandable⟩ := ht.step hm
      cases hroom
      cases hfind : r.expanded.find? name with
      | some kept => exact ⟨kept, r, resolve_of_expanded hfind⟩
      | none =>
          have hmem : name ∉ chain := fun hmem =>
            ht.acyclic name (.of_mentions hm) (hchain name hmem)
          have hok : ∀ q, Mentions raw q → ∀ r, Sound loader rules.policy r →
              ∃ content r',
                resolve loader rules room (chain ++ [name]) q r = (.ok content, r') := by
            intro q hq r hr
            have hincludes : Includes loader name q := ⟨raw, hraw, hq⟩
            refine ih hexpandable hq (fun c hc => ?_) hr
            rcases List.mem_append.1 hc with hc | hc
            · exact (hchain c hc).tail hincludes
            · rw [List.mem_singleton.1 hc]
              exact .single hincludes
          obtain ⟨content, r', hexpand⟩ :=
            expandWith_complete (resolves_resolve loader rules room _) hexpandable.referred hok
              (hr.asked ⟨.fragment, name⟩)
          refine ⟨content, r'.remember name content, ?_⟩
          rw [resolve_succ hfind hmem, ask_eq_ok_iff.2 hraw, andThen_ok, hexpand, andThen_ok]

end TagTemplate.Inclusion

namespace TagTemplate.Registry

open Inclusion

theorem resolves (loader : Loader) (rules : Rules) :
    Resolves loader rules.policy (Registry.resolve loader rules) :=
  resolves_resolve loader rules rules.depth []

/-- A text that can be expanded within the limit is expanded to its expansion. -/
theorem expand_of_expandable {loader : Loader} {rules : Rules} {t : Text}
    (h : Expandable loader rules.policy rules.depth t) :
    ∃ s, Expands loader t s ∧ (Registry.empty.expand loader rules t).1 = .ok s := by
  obtain ⟨s, r', hs⟩ := expandWith_complete (resolves loader rules) h.referred
    (fun name hm r hr => resolve_complete h hm (fun c hc => nomatch hc) hr) sound_empty
  exact ⟨s, ((resolves loader rules).expandWith sound_empty hs).1, congrArg Prod.fst hs⟩

/-- **Expansion is substitution.** A text whose graph of partials has no cycle, no gap, no chain
longer than the limit and, under the strict policy, no malformed reference is expanded to its
expansion; and if an expansion succeeds, the graph has no cycle, no gap and no malformed reference
that the policy rejects, and the result is the expansion, the only one there is. -/
theorem expand_correct (loader : Loader) (rules : Rules) (t : Text) :
    (Acyclic loader t → Readable loader t →
      (∀ ps, Chain loader t ps → ps.length ≤ rules.depth) → WellReferred loader rules.policy t →
      ∃ s, Expands loader t s ∧ (Registry.empty.expand loader rules t).1 = .ok s) ∧
    ∀ s, (Registry.empty.expand loader rules t).1 = .ok s →
      Acyclic loader t ∧ Readable loader t ∧ WellReferred loader rules.policy t ∧
        Expands loader t s ∧ ∀ s', Expands loader t s' → s' = s := by
  constructor
  · intro hacyclic hreadable hwithin hreferred
    exact expand_of_expandable ⟨hacyclic, hreadable, hwithin, hreferred⟩
  · intro s hs
    obtain ⟨hexpands, hreferred, -⟩ :=
      (resolves loader rules).expandWith sound_empty (Prod.ext hs rfl)
    exact ⟨hexpands.acyclic, hexpands.readable, hreferred, hexpands,
      fun s' hs' => hs'.unique hexpands⟩

/-- A partial that refers to another, which the text refers to as well. -/
theorem expand_correct_of_two :
    let p := "p".toList
    let loader : Loader := fun _ name =>
      .ok (if name = p then "<\x7b\x7b>q\x7d\x7d>".toList else "hi".toList)
    let t : Text := "a\x7b\x7b>p\x7d\x7d-\x7b\x7b>q\x7d\x7d".toList
    let s : Text := "a<hi>-hi".toList
    (Acyclic loader t ∧ Readable loader t ∧ (∀ ps, Chain loader t ps → ps.length ≤ 2) ∧
      WellReferred loader .strict t) ∧
      Expands loader t s ∧ (Registry.empty.expand loader ⟨.strict, 2⟩ t).1 = .ok s ∧
        ∀ s', Expands loader t s' → s' = s := by
  intro p loader t s
  let level : Text → Nat := fun name => if name = p then 1 else 0
  have hlevelled : Levelled loader level := by
    intro name name' hincludes
    obtain ⟨raw, hraw, hm⟩ := hincludes
    cases hraw
    by_cases hname : name = p
    · rw [if_pos hname] at hm
      rw [show level name = 1 from if_pos hname]
      exact forall_mentions (P := fun q => level q < 1) (by decide +kernel) name' hm
    · rw [if_neg hname] at hm
      exact absurd hm (not_mentions (by decide))
  have hacyclic : Acyclic loader t := hlevelled.acyclic
  have hreadable : Readable loader t := fun _ _ => ⟨_, rfl⟩
  have hwithin : ∀ ps, Chain loader t ps → ps.length ≤ 2 := fun ps =>
    hlevelled.length_le (forall_mentions (by decide +kernel))
  have hreferred : WellReferred loader .strict t := by
    intro _ u hu
    rcases Relation.ReflTransGen.cases_tail hu with rfl | ⟨v, -, name, -, hraw⟩
    · decide +kernel
    · cases hraw
      by_cases hname : name = p
      · rw [if_pos hname]
        decide +kernel
      · rw [if_neg hname]
        decide +kernel
  obtain ⟨s', hexpands, hs'⟩ :=
    (expand_correct loader ⟨.strict, 2⟩ t).1 hacyclic hreadable hwithin hreferred
  have hs : (Registry.empty.expand loader ⟨.strict, 2⟩ t).1 = .ok s := by decide +kernel
  obtain rfl : s = s' := Except.ok.inj (hs.symm.trans hs')
  obtain ⟨-, -, -, -, hunique⟩ := (expand_correct loader ⟨.strict, 2⟩ t).2 s hs
  exact ⟨⟨hacyclic, hreadable, hwithin, hreferred⟩, hexpands, hs, hunique⟩

end TagTemplate.Registry
