import TagTemplate.Proofs.Check
import TagTemplate.Proofs.Inclusion.Basic
import TagTemplate.Proofs.Marked.Filling
import TagTemplate.Proofs.Text.Replacing
import Mathlib.Data.List.Chain
import Mathlib.Data.List.Forall2
import Mathlib.Logic.Relation

/-!
# What a text includes

The partials that a text reaches are the nodes of a graph: a partial includes
the names that its text refers to. `Expands` says what the expansion of a text
is, without an order, a registry or a limit: what stands between the references
is kept, and in the place of each reference stands the expansion of the partial
it names. It is a function, and it is defined only where the graph is acyclic
and every partial can be read, since it is a finite tree of replacements.
-/

namespace TagTemplate.Inclusion

variable {loader : Loader} {policy : Policy} {t u s name p q : Text} {chain : List Text}

/-- A text refers to a partial. -/
def Mentions (t name : Text) : Prop := ∃ tag ∈ Tag.lex t, tag.kind = .inclusion name

/-- What stands in the place of a tag, given the contents of partials. Only a reference is
replaced. -/
@[simp] def including (content : Text → Text) : Tag.Kind → Option Text
  | .inclusion name => some (content name)
  | _ => none

/-- The ranges of the references of a text, each with what stands in its place. -/
def inclusions (content : Text → Text) (t : Text) : List (Span × Text) :=
  (Tag.lex t).filterMap fun tag => (including content tag.kind).map (tag.span, ·)

/-- One text refers to a partial whose text is the other. -/
def Reads (loader : Loader) (t u : Text) : Prop :=
  ∃ name, Mentions t name ∧ loader .fragment name = .ok u

/-- The partial is read in the expansion of the text. -/
def Reaches (loader : Loader) (t name : Text) : Prop :=
  ∃ u, Relation.ReflTransGen (Reads loader) t u ∧ Mentions u name

/-- The text of one partial refers to the other. -/
def Includes (loader : Loader) (p q : Text) : Prop :=
  ∃ raw, loader .fragment p = .ok raw ∧ Mentions raw q

/-- No partial that the text reaches includes itself, through others or not. -/
def Acyclic (loader : Loader) (t : Text) : Prop :=
  ∀ p, Reaches loader t p → ¬ Relation.TransGen (Includes loader) p p

/-- Every partial that the text reaches can be read. -/
def Readable (loader : Loader) (t : Text) : Prop :=
  ∀ p, Reaches loader t p → ∃ raw, loader .fragment p = .ok raw

/-- Partials of which the text refers to the first and each includes the next. -/
def Chain (loader : Loader) (t : Text) (ps : List Text) : Prop :=
  (∀ p ∈ ps.head?, Mentions t p) ∧ ps.IsChain (Includes loader)

/-- Neither the text nor one it reaches has a malformed reference, if the policy asks for it. -/
def WellReferred (loader : Loader) (policy : Policy) (t : Text) : Prop :=
  policy = .strict →
    ∀ u, Relation.ReflTransGen (Reads loader) t u → Faultless [.inclusion] (Tag.lex u)

/-- The expansion of a text: each reference is replaced by the expansion of the partial. -/
inductive Expands (loader : Loader) : Text → Text → Prop where
  | intro (t s : Text) (raw content : Text → Text)
      (read : ∀ name, Mentions t name → loader .fragment name = .ok (raw name))
      (expands : ∀ name, Mentions t name → Expands loader (raw name) (content name))
      (replaced : Text.Replaced 0 (inclusions content t) t s) : Expands loader t s

/-- The expansion of a partial. -/
def Stands (loader : Loader) (name content : Text) : Prop :=
  ∃ raw, loader .fragment name = .ok raw ∧ Expands loader raw content

/-! ## References -/

/-- The references that are looked up, with the contents of their partials. -/
theorem references_map (content : Text → Text) (t : Text) :
    (references t).map (fun ref => (ref.1, content ref.2)) = inclusions content t := by
  rw [references, List.map_filterMap]
  apply List.filterMap_congr
  intro tag _
  rw [reference?]
  cases tag.kind <;> rfl

theorem mentions_iff_mem : Mentions t name ↔ ∃ ref ∈ references t, ref.2 = name := by
  constructor
  · intro hm
    obtain ⟨tag, htag, hkind⟩ := hm
    exact ⟨(tag.span, name), List.mem_filterMap.2 ⟨tag, htag, by rw [reference?, hkind]⟩, rfl⟩
  · intro hex
    obtain ⟨ref, href, rfl⟩ := hex
    obtain ⟨tag, htag, hsome⟩ := List.mem_filterMap.1 href
    refine ⟨tag, htag, ?_⟩
    rw [reference?] at hsome
    cases hkind : tag.kind <;> rw [hkind] at hsome <;> cases hsome
    rfl

theorem mentions_of_mem {ref : Span × Text} (h : ref ∈ references t) : Mentions t ref.2 :=
  mentions_iff_mem.2 ⟨ref, h, rfl⟩

/-- What holds of the references that are looked up holds of all partials that are referred to. -/
theorem forall_mentions {P : Text → Prop} (h : ∀ ref ∈ references t, P ref.2) :
    ∀ name, Mentions t name → P name := by
  intro name hm
  obtain ⟨ref, href, rfl⟩ := mentions_iff_mem.1 hm
  exact h ref href

theorem not_mentions (h : references t = []) : ¬ Mentions t name := by
  intro hm
  obtain ⟨ref, href, -⟩ := mentions_iff_mem.1 hm
  rw [h] at href
  cases href

/-- What stands in the place of references depends on the partials that the text refers to. -/
theorem inclusions_congr {content content' : Text → Text}
    (h : ∀ name, Mentions t name → content name = content' name) :
    inclusions content t = inclusions content' t := by
  rw [← references_map, ← references_map]
  apply List.map_congr_left
  intro ref href
  rw [h ref.2 (mentions_of_mem href)]

theorem replaced_inclusions (content : Text → Text) (t : Text) :
    Text.Replaced 0 (inclusions content t) t (Text.splice t (inclusions content t)) :=
  Text.replaced_splice (Text.spansFit_lex (including content) t)

/-! ## Reaching -/

theorem Reaches.of_mentions (h : Mentions t name) : Reaches loader t name := ⟨t, .refl, h⟩

theorem Reaches.of_reads (h : Reads loader t u) (hu : Reaches loader u name) :
    Reaches loader t name := by
  obtain ⟨v, hv, hm⟩ := hu
  exact ⟨v, .head h hv, hm⟩

theorem WellReferred.of_reads (h : WellReferred loader policy t) (hu : Reads loader t u) :
    WellReferred loader policy u :=
  fun hp v hv => h hp v (.head hu hv)

theorem wellReferred_iff :
    WellReferred loader policy t ↔
      (policy = .strict → Faultless [.inclusion] (Tag.lex t)) ∧
        ∀ u, Reads loader t u → WellReferred loader policy u := by
  constructor
  · exact fun h => ⟨fun hp => h hp t .refl, fun u hu => h.of_reads hu⟩
  · intro hboth hp u hu
    obtain ⟨hself, hreads⟩ := hboth
    rcases Relation.ReflTransGen.cases_head hu with rfl | ⟨v, hv, hvu⟩
    · exact hself hp
    · exact hreads v hv hp u hvu

/-! ## Chains -/

theorem chain_singleton (h : Mentions t name) : Chain loader t [name] := by
  refine ⟨?_, .singleton name⟩
  intro p hp
  cases hp
  exact h

/-- A chain goes on with what its last partial includes. -/
theorem Chain.snoc (h : Chain loader t (chain ++ [p])) (hpq : Includes loader p q) :
    Chain loader t (chain ++ [p] ++ [q]) := by
  obtain ⟨hhead, hchain⟩ := h
  constructor
  · intro c hc
    refine hhead c ?_
    have hne : chain ++ [p] ≠ [] :=
      List.append_ne_nil_of_right_ne_nil chain (List.cons_ne_nil p [])
    rwa [List.head?_append_of_ne_nil _ hne] at hc
  · refine hchain.append (.singleton q) ?_
    intro c hc d hd
    rw [List.getLast?_concat] at hc
    cases hc
    cases hd
    exact hpq

/-- A chain of two partials or more goes on from the text of its first. -/
theorem Chain.cons_cons (h : Chain loader t (p :: q :: chain)) :
    ∃ raw, Mentions t p ∧ loader .fragment p = .ok raw ∧ Chain loader raw (q :: chain) := by
  obtain ⟨hhead, hchain⟩ := h
  obtain ⟨hpq, hrest⟩ := List.isChain_cons_cons.1 hchain
  obtain ⟨raw, hraw, hm⟩ := hpq
  refine ⟨raw, hhead p rfl, hraw, ?_, hrest⟩
  intro c hc
  cases hc
  exact hm

/-- All partials of a chain but the last one have been read. -/
theorem Chain.readable (h : Chain loader t (chain ++ [name])) :
    ∀ p ∈ chain, ∃ raw, loader .fragment p = .ok raw := by
  induction chain generalizing t with
  | nil => exact fun _ hp => absurd hp List.not_mem_nil
  | cons c chain ih =>
      obtain ⟨q, rest, hrest⟩ : ∃ q rest, chain ++ [name] = q :: rest :=
        List.exists_cons_of_ne_nil (List.append_ne_nil_of_right_ne_nil chain (List.cons_ne_nil _ _))
      rw [List.cons_append, hrest] at h
      obtain ⟨raw, -, hraw, hchain⟩ := h.cons_cons
      intro p hp
      rcases List.mem_cons.1 hp with rfl | hp
      · exact ⟨raw, hraw⟩
      · exact ih (hrest ▸ hchain) p hp

/-- The text of the last partial of a chain is read. -/
theorem Chain.reads (h : Chain loader t (chain ++ [name])) (hu : loader .fragment name = .ok u) :
    Relation.ReflTransGen (Reads loader) t u := by
  induction chain generalizing t with
  | nil => exact .single ⟨name, h.1 name rfl, hu⟩
  | cons c chain ih =>
      obtain ⟨q, rest, hrest⟩ : ∃ q rest, chain ++ [name] = q :: rest :=
        List.exists_cons_of_ne_nil (List.append_ne_nil_of_right_ne_nil chain (List.cons_ne_nil _ _))
      rw [List.cons_append, hrest] at h
      obtain ⟨raw, hm, hraw, hchain⟩ := h.cons_cons
      exact .head ⟨c, hm, hraw⟩ (ih (hrest ▸ hchain))

/-! ## Expanding -/

theorem Expands.unique {s' : Text} (h : Expands loader t s) (h' : Expands loader t s') :
    s = s' := by
  induction h generalizing s' with
  | intro t s raw content read _ hreplaced ih =>
      cases h' with
      | intro _ _ raw' content' read' expands' hreplaced' =>
          have hsame : ∀ name, Mentions t name → content name = content' name := by
            intro name hm
            have hraw : raw name = raw' name :=
              Except.ok.inj ((read name hm).symm.trans (read' name hm))
            exact ih name hm (hraw ▸ expands' name hm)
          rw [inclusions_congr hsame] at hreplaced
          exact hreplaced.unique hreplaced'

theorem Stands.unique {c c' : Text} (h : Stands loader name c) (h' : Stands loader name c') :
    c = c' := by
  obtain ⟨raw, hraw, hc⟩ := h
  obtain ⟨raw', hraw', hc'⟩ := h'
  rw [hraw] at hraw'
  cases hraw'
  exact hc.unique hc'

theorem exists_of_forall₂ {α β : Type} {R : α → β → Prop} {l : List α} {l' : List β}
    (h : List.Forall₂ R l l') {a : α} (ha : a ∈ l) : ∃ b, R a b := by
  induction h with
  | nil => cases ha
  | cons hab _ ih =>
      rcases List.mem_cons.1 ha with rfl | ha
      · exact ⟨_, hab⟩
      · exact ih ha

/-- The expansion of a text is made from those of the partials that it refers to. -/
theorem expands_of_forall₂ {edits : List (Span × Text)}
    (h : List.Forall₂ (fun ref edit => ref.1 = edit.1 ∧ Stands loader ref.2 edit.2)
      (references t) edits) : Expands loader t (Text.splice t edits) := by
  have hstands : ∀ name, Mentions t name → ∃ content raw,
      loader .fragment name = .ok raw ∧ Expands loader raw content := by
    intro name hm
    obtain ⟨ref, href, rfl⟩ := mentions_iff_mem.1 hm
    obtain ⟨edit, -, hstand⟩ := exists_of_forall₂ h href
    exact ⟨edit.2, hstand⟩
  choose! content raw hread hexpands using hstands
  have hedits : edits = inclusions content t := by
    have hmention : ∀ ref ∈ references t, Mentions t ref.2 := fun ref => mentions_of_mem
    rw [← references_map]
    revert hmention
    generalize references t = refs at h ⊢
    intro hmention
    induction h with
    | nil => rfl
    | @cons ref edit refs edits he _ ih =>
        have hm := hmention ref (by simp)
        obtain ⟨hs, hstand⟩ := he
        rw [List.map_cons, ← ih fun ref' href' => hmention ref' (by simp [href']), hs,
          ← hstand.unique ⟨_, hread _ hm, hexpands _ hm⟩]
  rw [hedits]
  exact .intro t _ raw content hread hexpands (replaced_inclusions content t)

theorem Expands.stands (h : Expands loader t s) (hm : Mentions t name) :
    ∃ content, Stands loader name content := by
  cases h with
  | intro _ _ raw content read expands _ => exact ⟨content name, raw name, read _ hm, expands _ hm⟩

/-- Every text that is read has an expansion. -/
theorem Expands.of_reads_star (h : Expands loader t s)
    (hu : Relation.ReflTransGen (Reads loader) t u) : ∃ s', Expands loader u s' := by
  induction hu with
  | refl => exact ⟨s, h⟩
  | tail _ hread ih =>
      obtain ⟨s', hs'⟩ := ih
      obtain ⟨name, hm, hraw⟩ := hread
      obtain ⟨content, raw, hraw', hcontent⟩ := hs'.stands hm
      rw [hraw] at hraw'
      cases hraw'
      exact ⟨content, hcontent⟩

theorem Expands.readable (h : Expands loader t s) : Readable loader t := by
  intro p hreaches
  obtain ⟨u, hu, hm⟩ := hreaches
  obtain ⟨s', hs'⟩ := h.of_reads_star hu
  obtain ⟨-, raw, hraw, -⟩ := hs'.stands hm
  exact ⟨raw, hraw⟩

/-- The partials that a text with an expansion refers to include others to a finite depth. -/
theorem Expands.acc (h : Expands loader t s) (hm : Mentions t name) :
    Acc (fun q p => Includes loader p q) name := by
  induction h generalizing name with
  | intro t s raw content read _ _ ih =>
      apply Acc.intro name
      intro q hq
      obtain ⟨u, hu, hmu⟩ := hq
      rw [read _ hm] at hu
      cases hu
      exact ih _ hm hmu

theorem not_transGen_of_acc {p : Text} (h : Acc (fun q p => Includes loader p q) p) :
    ¬ Relation.TransGen (Includes loader) p p := by
  induction h with
  | intro p _ ih =>
      intro hp
      rcases Relation.TransGen.head'_iff.1 hp with ⟨q, hpq, hqp⟩
      exact ih q hpq (Relation.TransGen.tail'_iff.2 ⟨p, hqp, hpq⟩)

theorem Expands.acyclic (h : Expands loader t s) : Acyclic loader t := by
  intro p hreaches
  obtain ⟨u, hu, hm⟩ := hreaches
  obtain ⟨s', hs'⟩ := h.of_reads_star hu
  exact not_transGen_of_acc (hs'.acc hm)

/-! ## Partials in levels -/

/-- A partial includes only partials of a lower level. -/
def Levelled (loader : Loader) (level : Text → Nat) : Prop :=
  ∀ p q, Includes loader p q → level q < level p

section

variable {level : Text → Nat}

theorem Levelled.lt_of_transGen (h : Levelled loader level)
    (hpq : Relation.TransGen (Includes loader) p q) : level q < level p := by
  induction hpq with
  | single hpq => exact h _ _ hpq
  | tail _ hqr ih => exact Nat.lt_trans (h _ _ hqr) ih

theorem Levelled.acyclic (h : Levelled loader level) : Acyclic loader t :=
  fun _ _ hp => Nat.lt_irrefl _ (h.lt_of_transGen hp)

/-- A chain has no more partials than there are levels. -/
theorem Levelled.length_le {ps : List Text} {n : Nat} (h : Levelled loader level)
    (hn : ∀ name, Mentions t name → level name < n) (hps : Chain loader t ps) : ps.length ≤ n := by
  induction ps generalizing t n with
  | nil => exact Nat.zero_le n
  | cons p ps ih =>
      obtain ⟨hhead, hchain⟩ := hps
      have hp := hn p (hhead p rfl)
      cases ps with
      | nil =>
          rw [List.length_singleton]
          omega
      | cons q ps =>
          obtain ⟨raw, -, hraw, hrest⟩ := Chain.cons_cons ⟨hhead, hchain⟩
          have hlower := ih (n := level p) (fun name hm => h p name ⟨raw, hraw, hm⟩) hrest
          rw [List.length_cons]
          omega

end

end TagTemplate.Inclusion
