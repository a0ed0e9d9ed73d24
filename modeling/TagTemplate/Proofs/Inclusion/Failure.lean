import TagTemplate.Proofs.Inclusion.Graph
import TagTemplate.Source.Store
import Mathlib.Data.List.Nodup

/-!
# Why an expansion fails

An expansion that fails does so in one of its calls: the partials that are open
there form a path in the graph, from the text to the partial that the call is
about, and the error tells of that path. `Blocked` lists why a call fails by
itself; `exists_blocked` finds the call, whatever was expanded before it.
`Witnessed` is what an error says about the graph, without calls.
-/

namespace TagTemplate.Inclusion

variable {loader : Loader} {policy : Policy} {rules : Rules} {t name : Text} {room : Nat}
  {chain : List Text} {r : Registry} {e : Error}

section

variable {resolve : Text → Registry → Except Error Text × Registry}

theorem contents_eq_error {refs : List (Span × Text)}
    (h : (contents resolve refs r).1 = .error e) :
    ∃ ref ∈ refs, ∃ r₁, (resolve ref.2 r₁).1 = .error e := by
  induction refs generalizing r with
  | nil => cases h
  | cons ref refs ih =>
      obtain ⟨span, name⟩ := ref
      rw [contents_cons] at h
      rcases andThen_eq_error h with hname | ⟨content, -, h⟩
      · exact ⟨(span, name), by simp, r, hname⟩
      · rcases andThen_eq_error h with hrest | ⟨_, -, h⟩
        · obtain ⟨ref, href, hfails⟩ := ih hrest
          exact ⟨ref, by simp [href], hfails⟩
        · cases h

/-- An expansion fails with a malformed reference of the text or like a partial of the text. -/
theorem expandWith_eq_error {text : Text} (h : (expandWith policy resolve text r).1 = .error e) :
    reportMalformed policy [.inclusion] text (Tag.lex text) = .error e ∨
      ∃ name, Mentions text name ∧ ∃ r₁, (resolve name r₁).1 = .error e := by
  rw [expandWith_eq] at h
  rcases andThen_eq_error h with hreport | ⟨_, -, h⟩
  · exact .inl hreport
  · rcases andThen_eq_error h with hcontents | ⟨_, -, h⟩
    · obtain ⟨ref, href, hfails⟩ := contents_eq_error hcontents
      exact .inr ⟨ref.2, mentions_of_mem href, hfails⟩
    · cases h

end

/-- What the error about a malformed reference of a text tells. -/
inductive Misrefers (policy : Policy) (u : Text) : Error → Prop where
  | intro {tag : Tag} {fault : Fault} (hstrict : policy = .strict) (htag : tag ∈ Tag.lex u)
      (hkind : tag.kind = .malformed .inclusion fault) :
      Misrefers policy u
        (.malformed (Text.positionAt u tag.span.start) (.badTag .inclusion fault))

theorem misrefers_of_reportMalformed
    (h : reportMalformed policy [.inclusion] t (Tag.lex t) = .error e) : Misrefers policy t e := by
  obtain ⟨hstrict, tag, htag, form, hform, fault, hkind, rfl⟩ := reportMalformed_eq_error h
  cases List.mem_singleton.1 hform
  exact .intro hstrict htag hkind

theorem ask_eq_error (h : loader.ask ⟨.fragment, name⟩ = .error e) :
    ∃ reason, loader .fragment name = .error reason ∧ e = .notFound .fragment name reason := by
  rw [Loader.ask] at h
  cases hraw : loader .fragment name with
  | ok raw =>
      simp only [hraw] at h
      cases h
  | error reason =>
      simp only [hraw] at h
      cases h
      exact ⟨reason, rfl, rfl⟩

/-! ## The call that fails -/

/-- Why a partial cannot be resolved while those on the chain are open, apart from what it
includes. -/
inductive Blocked (loader : Loader) (rules : Rules) (chain : List Text) (name : Text) :
    Error → Prop where
  | cyclic (hmem : name ∈ chain) : Blocked loader rules chain name (.cyclic (chain ++ [name]))
  | tooDeep (hmem : name ∉ chain) (hlength : chain.length = rules.depth) :
      Blocked loader rules chain name (.tooDeep name rules.depth)
  | absent {reason : Absence} (hlength : chain.length < rules.depth)
      (habsent : loader .fragment name = .error reason) :
      Blocked loader rules chain name (.notFound .fragment name reason)
  | malformed {raw : Text} {e : Error} (hraw : loader .fragment name = .ok raw)
      (hrefers : Misrefers rules.policy raw e) : Blocked loader rules chain name e

/-- **A resolution fails in a call** that is blocked, and the partials that are open there are a
chain from the text. The induction is on the room, which is what the chain leaves of the limit. -/
theorem exists_blocked (hroom : chain.length + room = rules.depth)
    (hchain : Chain loader t (chain ++ [name]))
    (h : (resolve loader rules room chain name r).1 = .error e) :
    ∃ opened q, Chain loader t (opened ++ [q]) ∧ (chain.Nodup → opened.Nodup) ∧
      Blocked loader rules opened q e := by
  induction room using Nat.strongRecOn generalizing chain name r with
  | ind room ih =>
  rcases resolve_cases loader rules room chain name r with
    ⟨kept, hfind⟩ | ⟨hfind, ⟨e', he, herror⟩ | ⟨hmem, room, rfl⟩⟩
  · rw [resolve_of_expanded hfind] at h
    cases h
  · rw [herror r hfind] at h
    cases h
    refine ⟨chain, name, hchain, id, ?_⟩
    rcases he with ⟨hmem, rfl⟩ | ⟨hmem, hnoroom, rfl⟩
    · exact .cyclic hmem
    · exact .tooDeep hmem (by omega)
  · rw [resolve_succ hfind hmem] at h
    rcases andThen_eq_error h with hask | ⟨raw, hask, h⟩
    · obtain ⟨reason, habsent, rfl⟩ := ask_eq_error hask
      exact ⟨chain, name, hchain, id, .absent (by omega) habsent⟩
    · have hraw := ask_eq_ok_iff.1 hask
      rcases andThen_eq_error h with hexpand | ⟨_, -, h⟩
      · rcases expandWith_eq_error hexpand with hreport | ⟨q, hq, r₁, hfails⟩
        · exact ⟨chain, name, hchain, id, .malformed hraw (misrefers_of_reportMalformed hreport)⟩
        · have hroom' : (chain ++ [name]).length + room = rules.depth := by
            rw [List.length_append, List.length_singleton]
            omega
          obtain ⟨opened, q', hopened, hnodup, hblocked⟩ :=
            ih room (Nat.lt_succ_self room) hroom' (hchain.snoc ⟨raw, hraw, hq⟩) hfails
          refine ⟨opened, q', hopened, fun hc => hnodup ?_, hblocked⟩
          rw [← List.concat_eq_append]
          exact (List.nodup_concat chain name).2 ⟨hmem, hc⟩
      · cases h

/-! ## What an error says about the graph -/

/-- What the error of a failed expansion says about the text and the partials: which chain it has
come upon, and what is wrong at its end. -/
inductive Witnessed (loader : Loader) (rules : Rules) (t : Text) : Error → Prop where
  | cyclic {ps : List Text} {q : Text} (hchain : Chain loader t (ps ++ [q])) (hnodup : ps.Nodup)
      (hmem : q ∈ ps) : Witnessed loader rules t (.cyclic (ps ++ [q]))
  | tooDeep {ps : List Text} {name : Text} (hchain : Chain loader t (ps ++ [name]))
      (hnodup : ps.Nodup) (hlength : ps.length = rules.depth) (hmem : name ∉ ps) :
      Witnessed loader rules t (.tooDeep name rules.depth)
  | notFound {ps : List Text} {name : Text} {reason : Absence}
      (hchain : Chain loader t (ps ++ [name])) (hlength : ps.length < rules.depth)
      (hreadable : ∀ p ∈ ps, ∃ raw, loader .fragment p = .ok raw)
      (habsent : loader .fragment name = .error reason) :
      Witnessed loader rules t (.notFound .fragment name reason)
  | malformed {u : Text} {e : Error} (hreads : Relation.ReflTransGen (Reads loader) t u)
      (hrefers : Misrefers rules.policy u e) : Witnessed loader rules t e

theorem Blocked.witnessed {q : Text} (h : Blocked loader rules chain q e)
    (hchain : Chain loader t (chain ++ [q])) (hnodup : chain.Nodup) :
    Witnessed loader rules t e := by
  cases h with
  | cyclic hmem => exact .cyclic hchain hnodup hmem
  | tooDeep hmem hlength => exact .tooDeep hchain hnodup hlength hmem
  | absent hlength habsent => exact .notFound hchain hlength hchain.readable habsent
  | malformed hraw hrefers => exact .malformed (hchain.reads hraw) hrefers

end TagTemplate.Inclusion

namespace TagTemplate.Registry

open Inclusion

/-- **A failed expansion names a witness.** Its error is a chain of different partials from the
text that comes back to one of them, or a partial behind a chain that has used up the limit, or
one that cannot be read, behind a chain within the limit, or a malformed reference in a text that
is read. -/
theorem witnessed_of_expand_eq_error {loader : Loader} {rules : Rules} {t : Text} {e : Error}
    (h : (Registry.empty.expand loader rules t).1 = .error e) : Witnessed loader rules t e := by
  rcases expandWith_eq_error h with hreport | ⟨name, hname, r, hfails⟩
  · exact .malformed .refl (misrefers_of_reportMalformed hreport)
  · obtain ⟨opened, q, hchain, hnodup, hblocked⟩ :=
      exists_blocked (Nat.zero_add _) (chain_singleton hname) hfails
    exact hblocked.witnessed hchain (hnodup List.nodup_nil)

/-- Two partials that include each other, and a third one that both include before. -/
def ring : Store :=
  ((Store.empty.add .fragment "a".toList "\x7b\x7b>c\x7d\x7d\x7b\x7b>b\x7d\x7d".toList).add
    .fragment "b".toList "\x7b\x7b>c\x7d\x7d\x7b\x7b>a\x7d\x7d".toList).add
    .fragment "c".toList "x".toList

/-- The errors of three expansions that succeed in part: for a cycle, for the limit and for a
partial that is not there. -/
theorem witnessed_of_expand_eq_error_of_ring :
    let t := "\x7b\x7b>c\x7d\x7d\x7b\x7b>a\x7d\x7d".toList
    let u := "\x7b\x7b>c\x7d\x7d\x7b\x7b>d\x7d\x7d".toList
    let cyclic := Error.cyclic ["a".toList, "b".toList, "a".toList]
    let tooDeep := Error.tooDeep "b".toList 1
    let notFound := Error.notFound .fragment "d".toList .noSuchSource
    ((Registry.empty.expand ring.loader ⟨.strict, 2⟩ t).1 = .error cyclic ∧
      Witnessed ring.loader ⟨.strict, 2⟩ t cyclic) ∧
    ((Registry.empty.expand ring.loader ⟨.strict, 1⟩ t).1 = .error tooDeep ∧
      Witnessed ring.loader ⟨.strict, 1⟩ t tooDeep) ∧
    (Registry.empty.expand ring.loader ⟨.strict, 1⟩ u).1 = .error notFound ∧
      Witnessed ring.loader ⟨.strict, 1⟩ u notFound := by
  intro t u cyclic tooDeep notFound
  have hcyclic : (Registry.empty.expand ring.loader ⟨.strict, 2⟩ t).1 = .error cyclic := by
    decide +kernel
  have htooDeep : (Registry.empty.expand ring.loader ⟨.strict, 1⟩ t).1 = .error tooDeep := by
    decide +kernel
  have hnotFound : (Registry.empty.expand ring.loader ⟨.strict, 1⟩ u).1 = .error notFound := by
    decide +kernel
  exact ⟨⟨hcyclic, witnessed_of_expand_eq_error hcyclic⟩,
    ⟨htooDeep, witnessed_of_expand_eq_error htooDeep⟩,
    hnotFound, witnessed_of_expand_eq_error hnotFound⟩

end TagTemplate.Registry
