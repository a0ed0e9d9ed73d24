import TagTemplate.Proofs.Block.Steps
import TagTemplate.Proofs.Tree.Inlining

/-!
# Conditionals and loops of trees

On a tree, conditionals are resolved by choosing bodies, and loops are expanded
by writing the items of a body once for each row, filled in with the row. On
the print of the tree the two steps of a render do the same: by induction on
the tree, each of its nodes being a part of the text that the steps treat apart.
-/

namespace TagTemplate

open Tag (Kind)

variable {policy : Policy} {context : Context}

/-! ## Leaves -/

theorem Block.marks_eq_nil {family : Family} {s : Text}
    (h : ∀ k ∈ Ink.kinds (Ink.ofText .template s), role? family k = none) :
    marks family (Tag.lex s) = [] := by
  rw [Ink.kinds, Ink.tags_ofText_template] at h
  apply List.filterMap_eq_nil_iff.2
  intro tag htag
  rw [h tag.kind (List.mem_map_of_mem htag)]
  rfl

/-- A text that is an item, but no mark of the family. -/
structure Leaf (family : Family) (s : Text) : Prop where
  isSealed : Text.Sealed s
  marks : Block.marks family (Tag.lex s) = []

theorem leaf_of_item {family : Family} {s : Text} (i : Item)
    (hi : i.ink = Ink.ofText .template s)
    (hrole : ∀ w h, i = .mark w h → Block.role? family w.kind = none) : Leaf family s where
  isSealed := by
    rw [Text.Sealed, ← hi]
    exact i.sealed_ink
  marks := by
    apply Block.marks_eq_nil
    intro k hk
    rw [← hi] at hk
    rcases Item.kinds_cases hk with ⟨key, rfl⟩ | hlink | ⟨w, h, hw, rfl⟩
    · cases family <;> rfl
    · cases family <;> cases k <;> first | rfl | cases hlink | skip
      all_goals
        rename_i form fault
        cases form <;> first | rfl | cases hlink
    · exact hrole w h hw

theorem leaf_text (family : Family) (t : Plain) : Leaf family t.text :=
  leaf_of_item (.cell (.literal t)) rfl fun _ _ h => nomatch h

theorem leaf_value (family : Family) (key : Key) : Leaf family (Word.value key).text :=
  leaf_of_item (.cell (.value key none)) rfl fun _ _ h => nomatch h

theorem leaf_link (family : Family) (parts : List Part) :
    Leaf family (Tag.linkMark ++ (parts.flatMap Part.print ++ Tag.closeMark)) := by
  refine leaf_of_item (.link (parts.map Part.cell)) ?_ fun _ _ h => nomatch h
  simp [Item.ink, Ink.link, Tree.ink_parts]

theorem leaf_word {family : Family} (w : Word) (h : w.kind.isMark = true)
    (hrole : Block.role? family w.kind = none) : Leaf family w.text := by
  apply leaf_of_item (.mark w h) rfl
  intro w' h' heq
  cases heq
  exact hrole

theorem Tree.sealed_print (t : Tree) : Text.Sealed t.print := by
  rw [Text.Sealed, ← Tree.ink_items]
  exact Ink.sealed_flatMap fun i _ => i.sealed_ink

/-! ## Conditionals -/

namespace Conditional

theorem Settles.leaf {s b rb : Text} (hs : Leaf .conditional s) (hb : Settles policy context b rb) :
    Settles policy context (s ++ b) (s ++ rb) :=
  .append hs.isSealed (.of_marks hs.marks) hb

end Conditional

namespace Tree

/-- A tree with one body in the place of each conditional. -/
def choose (context : Context) : Tree → Tree
  | nil => nil
  | text t rest => text t (rest.choose context)
  | value key rest => value key (rest.choose context)
  | choice key body rest =>
    (if context.isTruthy key.text then body.choose context else nil).append (rest.choose context)
  | choiceElse key body alternative rest =>
    (if context.isTruthy key.text then body.choose context else alternative.choose context).append
      (rest.choose context)
  | loop key body rest => loop key (body.choose context) (rest.choose context)
  | link parts rest => link parts (rest.choose context)
  | inclusion name rest => inclusion name (rest.choose context)

/-- **The conditionals in a print** are resolved to the print of the chosen bodies. -/
theorem settles_print (policy : Policy) (context : Context) (t : Tree) :
    Conditional.Settles policy context t.print (t.choose context).print := by
  induction t with
  | nil => exact .of_marks rfl
  | text t rest ih => exact .leaf (leaf_text _ t) ih
  | value key rest ih => exact .leaf (leaf_value _ key) ih
  | choice key body rest ihb ih =>
      have hwhole := Conditional.Settles.whole (Word.ifOpen key).spells Word.ifClose.spells
        body.sealed_print ihb
      have hsealed := (Text.sealed_of_spells (Word.ifOpen key).spells).append
        (body.sealed_print.append (Text.sealed_of_spells Word.ifClose.spells))
      have hboth := Conditional.Settles.append hsealed hwhole ih
      rw [print, choose, print_append]
      rw [List.append_assoc, List.append_assoc] at hboth
      by_cases h : context.isTruthy key.text = true
      · rwa [if_pos h] at hboth ⊢
      · rwa [if_neg h] at hboth ⊢
  | choiceElse key body alternative rest ihb iha ih =>
      have hwhole := Conditional.Settles.wholeElse (Word.ifOpen key).spells Word.ifElse.spells
        Word.ifClose.spells body.sealed_print alternative.sealed_print ihb iha
      have hsealed := (Text.sealed_of_spells (Word.ifOpen key).spells).append
        (body.sealed_print.append ((Text.sealed_of_spells Word.ifElse.spells).append
          (alternative.sealed_print.append (Text.sealed_of_spells Word.ifClose.spells))))
      have hboth := Conditional.Settles.append hsealed hwhole ih
      rw [print, choose, print_append]
      rw [List.append_assoc, List.append_assoc, List.append_assoc, List.append_assoc] at hboth
      by_cases h : context.isTruthy key.text = true
      · rwa [if_pos h] at hboth ⊢
      · rwa [if_neg h] at hboth ⊢
  | loop key body rest ihb ih =>
      have hclose := Conditional.Settles.leaf (leaf_word _ Word.isMark_loopClose rfl) ih
      exact .leaf (leaf_word _ (Word.isMark_loopOpen key) rfl)
        (.append body.sealed_print ihb hclose)
  | link parts rest ih =>
      have hlink := Conditional.Settles.leaf (leaf_link _ parts) ih
      rw [List.append_assoc, List.append_assoc, List.append_assoc, List.append_assoc] at hlink
      exact hlink
  | inclusion name rest ih => exact .leaf (leaf_word _ (Word.isMark_inclusion name) rfl) ih

end Tree

/-! ## Loops -/

/-- A line feed, as template text. -/
def Plain.newline : Plain := ⟨['\n'], by decide, by decide⟩

/-- Items for each row, with a line feed between each two rows. -/
def betweenRows (g : Row → List Item) : List Row → List Item
  | [] => []
  | [row] => g row
  | row :: rows => g row ++ .cell (.literal Plain.newline) :: betweenRows g rows

namespace Loop

theorem Unrolls.leaf {s b : Text} (i : Item) (hi : i.ink = Ink.ofText .template s)
    (hs : Leaf .loop s) {items : List Item} (hb : Unrolls context b (items.flatMap Item.ink)) :
    Unrolls context (s ++ b) ((i :: items).flatMap Item.ink) := by
  rw [List.flatMap_cons, hi]
  exact .append hs.isSealed (.of_marks hs.marks) hb

/-- The copies of a printed body are its items, filled in with each row. -/
theorem marks_copies (body : Tree) (rows : List Row) :
    (copies body.print rows).flatMap Piece.marks =
      (betweenRows (fun row => body.items.map (Item.fill row.value)) rows).flatMap Item.ink := by
  have hcopy : ∀ row : Row, (copy body.print row).flatMap Piece.marks =
      (body.items.map (Item.fill row.value)).flatMap Item.ink := by
    intro row
    rw [copy_eq_fill, marks_fill, ← Tree.ink_items, Item.rewrite_filling_items]
  induction rows with
  | nil => rfl
  | cons row rows ih =>
      cases rows with
      | nil => exact hcopy row
      | cons row' rows =>
          show (copy body.print row ++
            .template ['\n'] :: copies body.print (row' :: rows)).flatMap Piece.marks =
            (body.items.map (Item.fill row.value) ++ .cell (.literal Plain.newline) ::
              betweenRows _ (row' :: rows)).flatMap Item.ink
          rw [List.flatMap_append, List.flatMap_append, List.flatMap_cons, List.flatMap_cons,
            hcopy, ih]
          rfl

end Loop

namespace Tree

/-- The items of a tree with the outermost loops written out row by row. -/
def unroll (context : Context) : Tree → List Item
  | nil => []
  | text t rest => .cell (.literal t) :: rest.unroll context
  | value key rest => .cell (.value key none) :: rest.unroll context
  | choice key body rest =>
    .mark (Word.ifOpen key) (Word.isMark_ifOpen key) ::
      (body.unroll context ++ .mark Word.ifClose Word.isMark_ifClose :: rest.unroll context)
  | choiceElse key body alternative rest =>
    .mark (Word.ifOpen key) (Word.isMark_ifOpen key) ::
      (body.unroll context ++ .mark Word.ifElse Word.isMark_ifElse ::
        (alternative.unroll context ++ .mark Word.ifClose Word.isMark_ifClose ::
          rest.unroll context))
  | loop key body rest =>
    betweenRows (fun row => body.items.map (Item.fill row.value)) (context.rows key.text) ++
      rest.unroll context
  | link parts rest => .link (parts.map Part.cell) :: rest.unroll context
  | inclusion name rest =>
    .mark (Word.inclusion name) (Word.isMark_inclusion name) :: rest.unroll context

@[simp] theorem unroll_append (context : Context) (t u : Tree) :
    (t.append u).unroll context = t.unroll context ++ u.unroll context := by
  induction t with
  | nil => rfl
  | text t rest ih => simp [append, unroll, ih]
  | value key rest ih => simp [append, unroll, ih]
  | choice key body rest _ ih => simp [append, unroll, ih]
  | choiceElse key body alternative rest _ _ ih => simp [append, unroll, ih]
  | loop key body rest _ ih => simp [append, unroll, ih]
  | link parts rest ih => simp [append, unroll, ih]
  | inclusion name rest ih => simp [append, unroll, ih]

/-- **The loops in a print** are expanded to the items of their bodies, row by row. -/
theorem unrolls_print (context : Context) (t : Tree) :
    Loop.Unrolls context t.print ((t.unroll context).flatMap Item.ink) := by
  induction t with
  | nil => exact .of_marks rfl
  | text t rest ih => exact .leaf (.cell (.literal t)) rfl (leaf_text _ t) ih
  | value key rest ih => exact .leaf (.cell (.value key none)) rfl (leaf_value _ key) ih
  | choice key body rest ihb ih =>
      have hclose := Loop.Unrolls.leaf (.mark _ Word.isMark_ifClose) rfl
        (leaf_word _ Word.isMark_ifClose rfl) ih
      have hbody := Loop.Unrolls.append body.sealed_print ihb hclose
      rw [← List.flatMap_append] at hbody
      exact .leaf (.mark _ (Word.isMark_ifOpen key)) rfl
        (leaf_word _ (Word.isMark_ifOpen key) rfl) hbody
  | choiceElse key body alternative rest ihb iha ih =>
      have hclose := Loop.Unrolls.leaf (.mark _ Word.isMark_ifClose) rfl
        (leaf_word _ Word.isMark_ifClose rfl) ih
      have halternative := Loop.Unrolls.append alternative.sealed_print iha hclose
      rw [← List.flatMap_append] at halternative
      have helse := Loop.Unrolls.leaf (.mark _ Word.isMark_ifElse) rfl
        (leaf_word _ Word.isMark_ifElse rfl) halternative
      have hbody := Loop.Unrolls.append body.sealed_print ihb helse
      rw [← List.flatMap_append] at hbody
      exact .leaf (.mark _ (Word.isMark_ifOpen key)) rfl
        (leaf_word _ (Word.isMark_ifOpen key) rfl) hbody
  | loop key body rest ihb ih =>
      have hwhole := Loop.Unrolls.whole (Word.loopOpen key).spells Word.loopClose.spells
        body.sealed_print ihb
      have hsealed := (Text.sealed_of_spells (Word.loopOpen key).spells).append
        (body.sealed_print.append (Text.sealed_of_spells Word.loopClose.spells))
      have hboth := Loop.Unrolls.append hsealed hwhole ih
      rw [List.append_assoc, List.append_assoc, Loop.marks_copies, ← List.flatMap_append] at hboth
      exact hboth
  | link parts rest ih =>
      have hlink := Loop.Unrolls.leaf (.link (parts.map Part.cell))
        (by simp [Item.ink, Ink.link, ink_parts]) (leaf_link _ parts) ih
      rw [List.append_assoc, List.append_assoc] at hlink
      exact hlink
  | inclusion name rest ih =>
      exact .leaf (.mark _ (Word.isMark_inclusion name)) rfl
        (leaf_word _ (Word.isMark_inclusion name) rfl) ih

end Tree

/-! ## The text that the items stand for -/

/-- An item filled in with a row, if there is one, and with the context. -/
def Item.settle (context : Context) : Option Row → Item → Item
  | none, i => i.fill context.value
  | some row, i => (i.fill row.value).fill context.value

section Settle

variable (pretty : Bool) (context : Context) (row : Option Row)

@[simp] theorem Item.settle_mark (w : Word) (h : w.kind.isMark = true) :
    (Item.mark w h).settle context row = .mark w h := by
  cases row <;> rfl

theorem Item.settle_link (cells : List Cell) : ∃ cells',
    (Item.link cells).settle context row = .link cells' ∧
      ∀ parts : List Part, cells = parts.map Part.cell →
        cells'.map Cell.text? = parts.map (Part.text? (context.valueIn row)) := by
  rw [Context.valueIn_eq]
  cases row with
  | none =>
      refine ⟨_, rfl, ?_⟩
      intro parts heq
      subst heq
      rw [List.map_map, List.map_map]
      apply List.map_congr_left
      intro p _
      cases p <;> rfl
  | some row =>
      refine ⟨_, rfl, ?_⟩
      intro parts heq
      subst heq
      rw [List.map_map, List.map_map, List.map_map]
      apply List.map_congr_left
      intro p _
      cases p <;> rfl

@[simp] theorem Item.eval_settle_literal (t : Plain) :
    ((Item.cell (.literal t)).settle context row).eval pretty = t.text := by
  cases row <;> rfl

@[simp] theorem Item.eval_settle_value (key : Key) :
    ((Item.cell (.value key none)).settle context row).eval pretty =
      (context.valueIn row key.text).getD [] := by
  rw [Context.valueIn_eq]
  cases row <;> rfl

@[simp] theorem Item.eval_settle_link (parts : List Part) :
    ((Item.link (parts.map Part.cell)).settle context row).eval pretty =
      evalLink pretty (parts.map (Part.text? (context.valueIn row))) := by
  obtain ⟨cells, hcells, htexts⟩ := Item.settle_link context row (parts.map Part.cell)
  rw [hcells, Item.eval, htexts parts rfl]

@[simp] theorem Item.isBlank_settle_cell (x : Cell) :
    ((Item.cell x).settle context row).isBlank = false := by
  cases row <;> rfl

@[simp] theorem Item.isBlank_settle_link (parts : List Part) :
    ((Item.link (parts.map Part.cell)).settle context row).isBlank =
      isBlankUrl (parts.map (Part.text? (context.valueIn row))) := by
  obtain ⟨cells, hcells, htexts⟩ := Item.settle_link context row (parts.map Part.cell)
  rw [hcells, Item.isBlank, htexts parts rfl]

end Settle

namespace Tree

variable (pretty : Bool)

/-- Inside the body of a loop the items stand for the text of the tree with the row. -/
theorem eval_items (context : Context) (row : Row) (t : Tree) :
    (((t.choose context).items.map (Item.settle context (some row))).flatMap (Item.eval pretty)) =
      t.eval pretty context (some row) := by
  induction t with
  | nil => rfl
  | text t rest ih => simp [choose, items, eval, ih]
  | value key rest ih => simp [choose, items, eval, ih]
  | choice key body rest ihb ih =>
      by_cases h : context.isTruthy key.text = true <;> simp [choose, items, eval, ihb, ih, h]
  | choiceElse key body alternative rest ihb iha ih =>
      by_cases h : context.isTruthy key.text = true <;> simp [choose, eval, ihb, iha, ih, h]
  | loop key body rest ihb ih => simp [choose, items, eval, ihb, ih, Item.eval]
  | link parts rest ih => simp [choose, items, eval, ih]
  | inclusion name rest ih => simp [choose, items, eval, ih, Item.eval]

theorem isBlank_items (context : Context) (row : Row) (t : Tree) :
    (((t.choose context).items.map (Item.settle context (some row))).any Item.isBlank) =
      t.hasBlankLink context (some row) := by
  induction t with
  | nil => rfl
  | text t rest ih => simp [choose, items, hasBlankLink, ← ih]
  | value key rest ih => simp [choose, items, hasBlankLink, ← ih]
  | choice key body rest ihb ih =>
      by_cases h : context.isTruthy key.text = true <;>
        simp [choose, items, hasBlankLink, ← ihb, ← ih, h]
  | choiceElse key body alternative rest ihb iha ih =>
      by_cases h : context.isTruthy key.text = true <;>
        simp [choose, hasBlankLink, ← ihb, ← iha, ← ih, h]
  | loop key body rest ihb ih => simp [choose, items, hasBlankLink, ← ihb, ← ih, Item.isBlank]
  | link parts rest ih => simp [choose, items, hasBlankLink, ← ih]
  | inclusion name rest ih => simp [choose, items, hasBlankLink, ← ih, Item.isBlank]

theorem eval_betweenRows (context : Context) (body : Tree) (rows : List Row) :
    ((betweenRows (fun row => (body.choose context).items.map (Item.fill row.value)) rows).map
      (Item.settle context none)).flatMap (Item.eval pretty) =
      Text.joinWith ['\n'] (rows.map fun row => body.eval pretty context (some row)) := by
  have hrow : ∀ row : Row, (((body.choose context).items.map (Item.fill row.value)).map
      (Item.settle context none)).flatMap (Item.eval pretty) =
      body.eval pretty context (some row) := by
    intro row
    rw [← eval_items, List.map_map]
    rfl
  induction rows with
  | nil => rfl
  | cons row rows ih =>
      cases rows with
      | nil => exact hrow row
      | cons row' rows =>
          show (((body.choose context).items.map (Item.fill row.value) ++
            .cell (.literal Plain.newline) :: betweenRows _ (row' :: rows)).map _).flatMap _ =
            body.eval pretty context (some row) ++ ['\n'] ++ Text.joinWith ['\n'] (_ :: _)
          rw [List.map_append, List.flatMap_append, hrow, List.map_cons, List.flatMap_cons, ih,
            List.append_assoc]
          rfl

theorem isBlank_betweenRows (context : Context) (body : Tree) (rows : List Row) :
    ((betweenRows (fun row => (body.choose context).items.map (Item.fill row.value)) rows).map
      (Item.settle context none)).any Item.isBlank =
      rows.any fun row => body.hasBlankLink context (some row) := by
  have hrow : ∀ row : Row, (((body.choose context).items.map (Item.fill row.value)).map
      (Item.settle context none)).any Item.isBlank = body.hasBlankLink context (some row) := by
    intro row
    rw [← isBlank_items, List.map_map]
    rfl
  induction rows with
  | nil => rfl
  | cons row rows ih =>
      cases rows with
      | nil =>
          rw [List.any_cons, List.any_nil, Bool.or_false]
          exact hrow row
      | cons row' rows =>
          show (((body.choose context).items.map (Item.fill row.value) ++
            .cell (.literal Plain.newline) :: betweenRows _ (row' :: rows)).map _).any _ = _
          rw [List.map_append, List.any_append, hrow, List.map_cons, List.any_cons, ih]
          rfl

/-- **The items of a tree** stand for the text of the tree. -/
theorem eval_unroll (context : Context) (t : Tree) :
    ((((t.choose context).unroll context).map (Item.settle context none)).flatMap
      (Item.eval pretty)) = t.eval pretty context none := by
  induction t with
  | nil => rfl
  | text t rest ih => simp [choose, unroll, eval, ih]
  | value key rest ih => simp [choose, unroll, eval, ih]
  | choice key body rest ihb ih =>
      by_cases h : context.isTruthy key.text = true <;> simp [choose, unroll, eval, ihb, ih, h]
  | choiceElse key body alternative rest ihb iha ih =>
      by_cases h : context.isTruthy key.text = true <;> simp [choose, eval, ihb, iha, ih, h]
  | loop key body rest _ ih =>
      rw [choose, unroll, List.map_append, List.flatMap_append, eval_betweenRows, ih, eval_loop]
  | link parts rest ih => simp [choose, unroll, eval, ih]
  | inclusion name rest ih => simp [choose, unroll, eval, ih, Item.eval]

theorem isBlank_unroll (context : Context) (t : Tree) :
    ((((t.choose context).unroll context).map (Item.settle context none)).any Item.isBlank) =
      t.hasBlankLink context none := by
  induction t with
  | nil => rfl
  | text t rest ih => simp [choose, unroll, hasBlankLink, ← ih]
  | value key rest ih => simp [choose, unroll, hasBlankLink, ← ih]
  | choice key body rest ihb ih =>
      by_cases h : context.isTruthy key.text = true <;>
        simp [choose, unroll, hasBlankLink, ← ihb, ← ih, h]
  | choiceElse key body alternative rest ihb iha ih =>
      by_cases h : context.isTruthy key.text = true <;>
        simp [choose, hasBlankLink, ← ihb, ← iha, ← ih, h]
  | loop key body rest _ ih =>
      rw [choose, unroll, List.map_append, List.any_append, isBlank_betweenRows, ih,
        hasBlankLink_loop]
  | link parts rest ih => simp [choose, unroll, hasBlankLink, ← ih]
  | inclusion name rest ih => simp [choose, unroll, hasBlankLink, ← ih, Item.isBlank]

end Tree

end TagTemplate
