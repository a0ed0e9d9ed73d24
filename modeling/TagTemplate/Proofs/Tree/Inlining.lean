import TagTemplate.Proofs.Inclusion.Graph
import TagTemplate.Proofs.Inclusion.Expansion
import TagTemplate.Proofs.Tree.Items

/-!
# Inlining partials

`Inlined` is the inclusion of partials on trees: each reference is replaced by
the inlined tree of the partial, whose text is the printed tree. Printing an
inlined tree gives the expansion of the printed tree, so inclusion can be done
before anything is printed.
-/

namespace TagTemplate

open Tag (Kind)
open Inclusion (including)

/-! ## Printed trees as items -/

/-- A part of a URL that has not been filled in. -/
def Part.cell : Part → Cell
  | literal t => .literal t
  | .value key => .value key none

namespace Tree

/-- The items that a printed tree consists of. -/
def items : Tree → List Item
  | nil => []
  | text t rest => .cell (.literal t) :: rest.items
  | value key rest => .cell (.value key none) :: rest.items
  | choice key body rest =>
    .mark (Word.ifOpen key) (Word.isMark_ifOpen key) ::
      (body.items ++ .mark Word.ifClose Word.isMark_ifClose :: rest.items)
  | choiceElse key body alternative rest =>
    .mark (Word.ifOpen key) (Word.isMark_ifOpen key) ::
      (body.items ++ .mark Word.ifElse Word.isMark_ifElse ::
        (alternative.items ++ .mark Word.ifClose Word.isMark_ifClose :: rest.items))
  | loop key body rest =>
    .mark (Word.loopOpen key) (Word.isMark_loopOpen key) ::
      (body.items ++ .mark Word.loopClose Word.isMark_loopClose :: rest.items)
  | link parts rest => .link (parts.map Part.cell) :: rest.items
  | inclusion name rest => .mark (Word.inclusion name) (Word.isMark_inclusion name) :: rest.items

theorem ink_parts (parts : List Part) :
    (parts.map Part.cell).flatMap Cell.ink = Ink.ofText .template (parts.flatMap Part.print) := by
  induction parts with
  | nil => rfl
  | cons p parts ih =>
      rw [List.map_cons, List.flatMap_cons, ih, List.flatMap_cons, Ink.ofText_append]
      cases p <;> rfl

/-- The items of a tree are its print. -/
theorem ink_items (t : Tree) : t.items.flatMap Item.ink = Ink.ofText .template t.print := by
  induction t with
  | nil => rfl
  | text t rest ih => simp [items, print, ih, Item.ink, Cell.ink]
  | value key rest ih => simp [items, print, ih, Item.ink, Cell.ink]
  | choice key body rest ihb ih => simp [items, print, ihb, ih, Item.ink]
  | choiceElse key body alternative rest ihb iha ih => simp [items, print, ihb, iha, ih, Item.ink]
  | loop key body rest ihb ih => simp [items, print, ihb, ih, Item.ink]
  | link parts rest ih => simp [items, print, ih, Item.ink, Ink.link, ink_parts]
  | inclusion name rest ih => simp [items, print, ih, Item.ink]

@[simp] theorem items_append (t u : Tree) : (t.append u).items = t.items ++ u.items := by
  induction t with
  | nil => rfl
  | text t rest ih => simp [append, items, ih]
  | value key rest ih => simp [append, items, ih]
  | choice key body rest _ ih => simp [append, items, ih]
  | choiceElse key body alternative rest _ _ ih => simp [append, items, ih]
  | loop key body rest _ ih => simp [append, items, ih]
  | link parts rest ih => simp [append, items, ih]
  | inclusion name rest ih => simp [append, items, ih]

/-! ## Replacing references -/

/-- The names of the partials that a tree refers to. -/
def names : Tree → List Text
  | nil => []
  | text _ rest => rest.names
  | value _ rest => rest.names
  | choice _ body rest => body.names ++ rest.names
  | choiceElse _ body alternative rest => body.names ++ (alternative.names ++ rest.names)
  | loop _ body rest => body.names ++ rest.names
  | link _ rest => rest.names
  | inclusion name rest => name.text :: rest.names

/-- A tree with its references replaced by trees. -/
def graft (content : Text → Tree) : Tree → Tree
  | nil => nil
  | text t rest => text t (rest.graft content)
  | value key rest => value key (rest.graft content)
  | choice key body rest => choice key (body.graft content) (rest.graft content)
  | choiceElse key body alternative rest =>
    choiceElse key (body.graft content) (alternative.graft content) (rest.graft content)
  | loop key body rest => loop key (body.graft content) (rest.graft content)
  | link parts rest => link parts (rest.graft content)
  | inclusion name rest => (content name.text).append (rest.graft content)

/-- A tree with every reference replaced by the inlined tree of the partial that it names. -/
inductive Inlined (loader : Loader) : Tree → Tree → Prop where
  | intro (t : Tree) (held inlined : Text → Tree)
      (holds : ∀ name ∈ t.names, loader .fragment name = .ok (held name).print)
      (inlines : ∀ name ∈ t.names, Inlined loader (held name) (inlined name)) :
      Inlined loader t (t.graft inlined)

end Tree

/-! ## References in print -/

/-- The characters that a tag is replaced by, given the contents of partials. -/
def includingInk (content : Text → Text) (k : Kind) : Option Ink :=
  (including content k).map (Ink.ofText .template)

theorem Ink.ofText_splicedFrom (o : Origin) (t : Text) (pos : Nat) (edits : List (Span × Text)) :
    Ink.ofText o (splicedFrom Char.utf8Size t pos edits) =
      splicedFrom Ink.weight (Ink.ofText o t) pos
        (edits.map fun e => (e.1, Ink.ofText o e.2)) := by
  induction edits generalizing pos with
  | nil =>
      rw [splicedFrom, List.map_nil, splicedFrom, Ink.excerpt_ofText, Ink.extent_ofText,
        Text.extent_eq_size]
  | cons e edits ih =>
      rw [splicedFrom, List.map_cons, splicedFrom, Ink.ofText_append, Ink.ofText_append, ih,
        Ink.excerpt_ofText]

namespace Inclusion

/-- Replacing the references of a text is a rewriting. -/
theorem ofText_splice_inclusions (content : Text → Text) (t : Text) :
    Ink.ofText .template (Text.splice t (inclusions content t)) =
      Ink.rewrite (includingInk content) (Ink.ofText .template t) := by
  rw [inclusions, Text.splice, Text.spliceFrom_eq_splicedFrom (Text.spansFit_lex _ t),
    Ink.ofText_splicedFrom, List.map_filterMap, Ink.rewrite, Ink.edits, Ink.tags_ofText_template]
  refine congrArg (splicedFrom Ink.weight _ 0) (List.filterMap_congr fun tag _ => ?_)
  rw [includingInk, Option.map_map, Option.map_map]
  rfl

theorem mentions_iff {t name : Text} :
    Mentions t name ↔ Kind.inclusion name ∈ Ink.kinds (Ink.ofText .template t) := by
  rw [Ink.kinds, Ink.tags_ofText_template, List.mem_map]
  exact Iff.rfl

end Inclusion

/-! ## References of trees -/

namespace Item

/-- The partial that an item is a reference to. -/
def inclusion? : Item → Option Text
  | mark w _ =>
    match w.kind with
    | .inclusion name => some name
    | _ => none
  | _ => none

theorem mem_kinds_iff {i : Item} {name : Text} :
    Kind.inclusion name ∈ Ink.kinds i.ink ↔ i.inclusion? = some name := by
  constructor
  · intro hk
    rcases kinds_cases hk with ⟨key, hkey⟩ | hlink | ⟨w, h, rfl, hw⟩
    · cases hkey
    · cases hlink
    · simp only [inclusion?, ← hw]
  · intro h
    cases i with
    | cell x => cases h
    | link cells => cases h
    | mark w hw =>
        show Kind.inclusion name ∈ Ink.kinds (Ink.ofText .template w.text)
        rw [Ink.kinds_of_inscribes (inscribes_mark w)]
        simp only [inclusion?] at h
        split at h
        next name' hname =>
          cases h
          rw [hname]
          exact List.mem_singleton_self _
        · cases h

/-- The characters of an item with the contents of partials. -/
def included (content : Text → Text) : Item → Ink
  | mark w _ => (includingInk content w.kind).getD (Ink.ofText .template w.text)
  | cell x => x.ink
  | link cells => Ink.link (cells.flatMap Cell.ink)

theorem rewrite_including (content : Text → Text) (i : Item) :
    Ink.rewrite (includingInk content) i.ink = i.included content := by
  cases i with
  | mark w h => exact Ink.rewrite_of_inscribes _ (inscribes_mark w)
  | cell x =>
      apply Ink.rewrite_of_kinds
      intro k hk
      rcases kinds_cases (i := cell x) hk with ⟨key, rfl⟩ | hlink | ⟨w, h, hi, -⟩
      · rfl
      · cases k <;> first | rfl | cases hlink
      · cases hi
  | link cells =>
      apply Ink.rewrite_of_kinds
      intro k hk
      rcases kinds_cases (i := link cells) hk with ⟨key, rfl⟩ | hlink | ⟨w, h, hi, -⟩
      · rfl
      · cases k <;> first | rfl | cases hlink
      · cases hi

@[simp] theorem included_cell (content : Text → Text) (x : Cell) :
    (cell x).included content = x.ink := rfl

@[simp] theorem included_link (content : Text → Text) (cells : List Cell) :
    (link cells).included content = Ink.link (cells.flatMap Cell.ink) := rfl

@[simp] theorem included_mark (content : Text → Text) (w : Word) (h : w.kind.isMark = true) :
    (mark w h).included content =
      ((including content w.kind).map (Ink.ofText .template)).getD
        (Ink.ofText .template w.text) := rfl

end Item

namespace Tree

theorem filterMap_items (t : Tree) : t.items.filterMap Item.inclusion? = t.names := by
  induction t with
  | nil => rfl
  | text t rest ih => exact ih
  | value key rest ih => exact ih
  | choice key body rest ihb ih =>
      show (body.items ++ .mark Word.ifClose Word.isMark_ifClose :: rest.items).filterMap _ = _
      rw [List.filterMap_append, ihb]
      exact congrArg (body.names ++ ·) ih
  | choiceElse key body alternative rest ihb iha ih =>
      show (body.items ++ .mark Word.ifElse Word.isMark_ifElse ::
        (alternative.items ++ .mark Word.ifClose Word.isMark_ifClose :: rest.items)).filterMap _ = _
      rw [List.filterMap_append, ihb]
      show body.names ++ (alternative.items ++
        .mark Word.ifClose Word.isMark_ifClose :: rest.items).filterMap _ = _
      rw [List.filterMap_append, iha]
      exact congrArg (fun names => body.names ++ (alternative.names ++ names)) ih
  | loop key body rest ihb ih =>
      show (body.items ++ .mark Word.loopClose Word.isMark_loopClose :: rest.items).filterMap _ = _
      rw [List.filterMap_append, ihb]
      exact congrArg (body.names ++ ·) ih
  | link parts rest ih => exact ih
  | inclusion name rest ih => exact congrArg (name.text :: ·) ih

/-- The references in the print of a tree are those of the tree. -/
theorem mentions_print {t : Tree} {name : Text} :
    Inclusion.Mentions t.print name ↔ name ∈ t.names := by
  rw [Inclusion.mentions_iff, ← ink_items, Item.kinds_items, List.mem_flatMap, ← filterMap_items,
    List.mem_filterMap]
  exact exists_congr fun i => and_congr_right fun _ => Item.mem_kinds_iff

/-- The print of a tree with its references replaced. -/
theorem included_items (content : Text → Tree) (t : Tree) :
    (t.items.flatMap fun i => i.included fun name => (content name).print) =
      Ink.ofText .template (t.graft content).print := by
  induction t with
  | nil => rfl
  | text t rest ih => simp [items, graft, print, ih, Cell.ink]
  | value key rest ih => simp [items, graft, print, ih, Cell.ink]
  | choice key body rest ihb ih => simp [items, graft, print, ihb, ih]
  | choiceElse key body alternative rest ihb iha ih => simp [items, graft, print, ihb, iha, ih]
  | loop key body rest ihb ih => simp [items, graft, print, ihb, ih]
  | link parts rest ih => simp [items, graft, print, ih, Ink.link, ink_parts]
  | inclusion name rest ih => simp [items, graft, ih]

/-- Replacing the references in the print of a tree gives the print of the tree with its references
replaced. -/
theorem splice_print (content : Text → Tree) (t : Tree) :
    Text.splice t.print (Inclusion.inclusions (fun name => (content name).print) t.print) =
      (t.graft content).print := by
  have hink := Inclusion.ofText_splice_inclusions (fun name => (content name).print) t.print
  rw [← ink_items, Item.rewrite_items _ Item.sealed_ink,
    List.flatMap_congr fun i _ => i.rewrite_including _, included_items] at hink
  have htext := congrArg Ink.text hink
  rwa [Ink.text_ofText, Ink.text_ofText] at htext

/-- **The print of an inlined tree** is the expansion of the printed tree. -/
theorem Inlined.expands {loader : Loader} {t u : Tree} (h : Inlined loader t u) :
    Inclusion.Expands loader t.print u.print := by
  induction h with
  | intro t held inlined holds _ ih =>
      have hreplaced := Inclusion.replaced_inclusions (fun name => (inlined name).print) t.print
      rw [splice_print] at hreplaced
      exact .intro t.print _ (fun name => (held name).print) (fun name => (inlined name).print)
        (fun name hm => holds name (mentions_print.1 hm))
        (fun name hm => ih name (mentions_print.1 hm)) hreplaced

theorem names_append (t u : Tree) : (t.append u).names = t.names ++ u.names := by
  rw [← filterMap_items, items_append, List.filterMap_append, filterMap_items, filterMap_items]

theorem names_graft (content : Text → Tree) (t : Tree) :
    (t.graft content).names = t.names.flatMap fun name => (content name).names := by
  induction t with
  | nil => rfl
  | text t rest ih => exact ih
  | value key rest ih => exact ih
  | choice key body rest ihb ih => simp [graft, names, ihb, ih]
  | choiceElse key body alternative rest ihb iha ih => simp [graft, names, ihb, iha, ih]
  | loop key body rest ihb ih => simp [graft, names, ihb, ih]
  | link parts rest ih => exact ih
  | inclusion name rest ih => simp [graft, names, names_append, ih]

/-- An inlined tree has no references. -/
theorem Inlined.names_eq_nil {loader : Loader} {t u : Tree} (h : Inlined loader t u) :
    u.names = [] := by
  induction h with
  | intro t held inlined _ _ ih =>
      rw [names_graft]
      exact List.flatMap_eq_nil_iff.2 ih

/-- Every partial that a text reaches holds a printed tree. -/
def Holds (loader : Loader) (t : Text) : Prop :=
  ∀ name, Inclusion.Reaches loader t name → ∃ held : Tree, loader .fragment name = .ok held.print

/-- A tree can be inlined if what it includes is acyclic to some depth and holds trees. -/
theorem exists_inlined {loader : Loader} {policy : Policy} {room : Nat} {t : Tree}
    (h : Inclusion.Expandable loader policy room t.print) (hholds : Holds loader t.print) :
    ∃ u, Inlined loader t u := by
  induction room generalizing t with
  | zero =>
      have hnone : ∀ name ∈ t.names, False := by
        intro name hname
        obtain ⟨room', -, hroom, -⟩ := h.step (mentions_print.2 hname)
        omega
      exact ⟨_, .intro t (fun _ => nil) (fun _ => nil) (fun name hname => (hnone name hname).elim)
        fun name hname => (hnone name hname).elim⟩
  | succ room ih =>
      have hparts : ∀ name, name ∈ t.names → ∃ held inlined : Tree,
          loader .fragment name = .ok held.print ∧ Inlined loader held inlined := by
        intro name hname
        have hm := mentions_print.2 hname
        obtain ⟨room', raw, hroom, hraw, hexpandable⟩ := h.step hm
        cases hroom
        obtain ⟨held, hheld⟩ := hholds name (.of_mentions hm)
        rw [hraw] at hheld
        cases hheld
        obtain ⟨inlined, hinlined⟩ := ih hexpandable fun name' hname' =>
          hholds name' (.of_reads ⟨name, hm, hraw⟩ hname')
        exact ⟨held, inlined, hraw, hinlined⟩
      choose! held inlined hheld hinlined using hparts
      exact ⟨_, .intro t held inlined hheld hinlined⟩

end Tree

end TagTemplate
