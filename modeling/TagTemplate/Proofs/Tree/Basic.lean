import TagTemplate.Link
import TagTemplate.Proofs.Marked.Sealed

/-!
# Template trees

A template that is well formed by construction: a list of nodes, each of them
text without braces, a placeholder, a conditional, a loop, a link or a reference
to a partial, with trees as the bodies of blocks. `print` writes a tree with
tags; every tag that it writes comes with the proof that it is one.

`eval` says what a tree means, by recursion on the tree: nothing is printed and
nothing is read again.
-/

namespace TagTemplate

open Tag (Kind Spells)

/-! ## Words -/

/-- A text without braces. -/
structure Plain where
  text : Text
  noOpen : '{' ∉ text
  noClose : '}' ∉ text

/-- A key of conditions, loops and values. -/
structure Key where
  text : Text
  ne_nil : text ≠ []
  allowed : text.all Tag.isKeyChar = true

/-- A name of a partial. -/
structure Name where
  text : Text
  ne_nil : text ≠ []
  allowed : text.all Tag.isNameChar = true

/-- A tag as it is written. -/
structure Word where
  kind : Kind
  text : Text
  spells : Spells kind text

theorem Tag.spells_of_classify {k : Kind} {i : Text} (hclose : '}' ∉ i)
    (h : Tag.classify i = some k) : Spells k (Tag.openMark ++ i ++ Tag.closeMark) :=
  ⟨i, rfl, h, Tag.closes_of_not_mem hclose⟩

theorem Tag.not_contains_openMark {t : Text} (h : '{' ∉ t) :
    Text.contains Tag.openMark t = false := by
  rw [Bool.eq_false_iff]
  intro hc
  obtain ⟨a, b, rfl⟩ := Text.contains_iff.1 hc
  simp [Tag.openMark] at h

theorem Tag.not_mem_of_all {allowed : Char → Bool} {t : Text} (h : t.all allowed = true) {c : Char}
    (hc : allowed c = false) : c ∉ t := by
  intro hmem
  rw [List.all_eq_true.1 h c hmem] at hc
  cases hc

theorem Tag.named_eq {form : Form} {allowed : Char → Bool} {make : Text → Kind} {name : Text}
    (hne : name ≠ []) (h : name.all allowed = true) :
    Tag.named form allowed make name = make name := by
  rw [Tag.named, if_neg (by simpa using hne), if_pos h]

namespace Key

theorem not_mem (k : Key) {c : Char} (hc : Tag.isKeyChar c = false) : c ∉ k.text :=
  Tag.not_mem_of_all k.allowed hc

theorem classify_value (k : Key) : Tag.classify k.text = some (.value k.text) := by
  unfold Tag.classify
  rw [if_neg (by rw [Tag.not_contains_openMark (k.not_mem (by decide))]; simp)]
  split
  next name h => exact absurd (by rw [h]; simp) (k.not_mem (c := '>') (by decide))
  next rest h => exact absurd (by rw [h]; simp) (k.not_mem (c := '#') (by decide))
  next => rw [if_pos (by simp [k.ne_nil, k.allowed])]

theorem classify_ifOpen (k : Key) :
    Tag.classify ("#if:".toList ++ k.text) = some (.ifOpen k.text) := by
  have hopen : '{' ∉ "#if:".toList ++ k.text := by
    have := k.not_mem (c := '{') (by decide)
    simp [this]
  unfold Tag.classify
  rw [if_neg (by rw [Tag.not_contains_openMark hopen]; simp)]
  show some (Tag.named .condition Tag.isKeyChar .ifOpen k.text) = _
  rw [Tag.named_eq k.ne_nil k.allowed]

theorem classify_loopOpen (k : Key) :
    Tag.classify ("#foreach:".toList ++ k.text) = some (.loopOpen k.text) := by
  have hopen : '{' ∉ "#foreach:".toList ++ k.text := by
    have := k.not_mem (c := '{') (by decide)
    simp [this]
  unfold Tag.classify
  rw [if_neg (by rw [Tag.not_contains_openMark hopen]; simp)]
  show some (Tag.named .loop Tag.isKeyChar .loopOpen k.text) = _
  rw [Tag.named_eq k.ne_nil k.allowed]

end Key

theorem Name.classify_inclusion (n : Name) :
    Tag.classify ('>' :: n.text) = some (.inclusion n.text) := by
  have hopen : '{' ∉ '>' :: n.text := by
    have := Tag.not_mem_of_all n.allowed (c := '{') (by decide)
    simp [this]
  unfold Tag.classify
  rw [if_neg (by rw [Tag.not_contains_openMark hopen]; simp)]
  show some (Tag.named .inclusion Tag.isNameChar .inclusion n.text) = _
  rw [Tag.named_eq n.ne_nil n.allowed]

namespace Word

/-- The word with some interior between its braces. -/
def ofInterior (i : Text) (k : Kind) (hclose : '}' ∉ i) (h : Tag.classify i = some k) : Word :=
  ⟨k, Tag.openMark ++ i ++ Tag.closeMark, Tag.spells_of_classify hclose h⟩

/-- A placeholder. -/
def value (k : Key) : Word :=
  ofInterior k.text (.value k.text) (k.not_mem (by decide)) k.classify_value

/-- The opening tag of a conditional. -/
def ifOpen (k : Key) : Word :=
  ofInterior ("#if:".toList ++ k.text) (.ifOpen k.text)
    (by have := k.not_mem (c := '}') (by decide); simp [this]) k.classify_ifOpen

/-- The tag that divides a conditional. -/
def ifElse : Word := ofInterior "#else".toList .ifElse (by decide) (by decide)

/-- The closing tag of a conditional. -/
def ifClose : Word := ofInterior "#endif".toList .ifClose (by decide) (by decide)

/-- The opening tag of a loop. -/
def loopOpen (k : Key) : Word :=
  ofInterior ("#foreach:".toList ++ k.text) (.loopOpen k.text)
    (by have := k.not_mem (c := '}') (by decide); simp [this]) k.classify_loopOpen

/-- The closing tag of a loop. -/
def loopClose : Word := ofInterior "#endforeach".toList .loopClose (by decide) (by decide)

/-- A reference to a partial. -/
def inclusion (n : Name) : Word :=
  ofInterior ('>' :: n.text) (.inclusion n.text)
    (by have := Tag.not_mem_of_all n.allowed (c := '}') (by decide); simp [this])
    n.classify_inclusion

@[simp] theorem kind_value (k : Key) : (value k).kind = .value k.text := rfl

@[simp] theorem kind_ifOpen (k : Key) : (ifOpen k).kind = .ifOpen k.text := rfl

@[simp] theorem kind_ifElse : ifElse.kind = .ifElse := rfl

@[simp] theorem kind_ifClose : ifClose.kind = .ifClose := rfl

@[simp] theorem kind_loopOpen (k : Key) : (loopOpen k).kind = .loopOpen k.text := rfl

@[simp] theorem kind_loopClose : loopClose.kind = .loopClose := rfl

@[simp] theorem kind_inclusion (n : Name) : (inclusion n).kind = .inclusion n.text := rfl

end Word

/-! ## Marks -/

/-- Tags that are neither placeholders nor links, and not malformed. -/
def Tag.Kind.isMark : Kind → Bool
  | .inclusion _ | .ifOpen _ | .ifElse | .ifClose | .loopOpen _ | .loopClose => true
  | _ => false

namespace Word

theorem isMark_ifOpen (k : Key) : (ifOpen k).kind.isMark = true := rfl

theorem isMark_ifElse : ifElse.kind.isMark = true := rfl

theorem isMark_ifClose : ifClose.kind.isMark = true := rfl

theorem isMark_loopOpen (k : Key) : (loopOpen k).kind.isMark = true := rfl

theorem isMark_loopClose : loopClose.kind.isMark = true := rfl

theorem isMark_inclusion (n : Name) : (inclusion n).kind.isMark = true := rfl

end Word

/-! ## Trees -/

/-- A part of the URL of a link. -/
inductive Part where
  | literal (t : Plain)
  | value (key : Key)

/-- A list of nodes; each constructor but `nil` has the nodes behind it as its last argument. -/
inductive Tree where
  | nil
  | text (t : Plain) (rest : Tree)
  | value (key : Key) (rest : Tree)
  | choice (key : Key) (body rest : Tree)
  | choiceElse (key : Key) (body alternative rest : Tree)
  | loop (key : Key) (body rest : Tree)
  | link (parts : List Part) (rest : Tree)
  | inclusion (name : Name) (rest : Tree)

instance : Inhabited Tree := ⟨.nil⟩

/-- A part of a URL as it is written. -/
def Part.print : Part → Text
  | literal t => t.text
  | value key => (Word.value key).text

namespace Tree

/-- A tree written with tags. -/
def print : Tree → Text
  | nil => []
  | text t rest => t.text ++ rest.print
  | value key rest => (Word.value key).text ++ rest.print
  | choice key body rest =>
    (Word.ifOpen key).text ++ (body.print ++ (Word.ifClose.text ++ rest.print))
  | choiceElse key body alternative rest =>
    (Word.ifOpen key).text ++ (body.print ++ (Word.ifElse.text ++
      (alternative.print ++ (Word.ifClose.text ++ rest.print))))
  | loop key body rest =>
    (Word.loopOpen key).text ++ (body.print ++ (Word.loopClose.text ++ rest.print))
  | link parts rest =>
    Tag.linkMark ++ (parts.flatMap Part.print ++ (Tag.closeMark ++ rest.print))
  | inclusion name rest => (Word.inclusion name).text ++ rest.print

/-- The nodes of one tree and then those of another. -/
def append : Tree → Tree → Tree
  | nil, u => u
  | text t rest, u => text t (rest.append u)
  | value key rest, u => value key (rest.append u)
  | choice key body rest, u => choice key body (rest.append u)
  | choiceElse key body alternative rest, u => choiceElse key body alternative (rest.append u)
  | loop key body rest, u => loop key body (rest.append u)
  | link parts rest, u => link parts (rest.append u)
  | inclusion name rest, u => inclusion name (rest.append u)

@[simp] theorem print_append (t u : Tree) : (t.append u).print = t.print ++ u.print := by
  induction t with
  | nil => rfl
  | text t rest ih => simp [append, print, ih]
  | value key rest ih => simp [append, print, ih]
  | choice key body rest _ ih => simp [append, print, ih]
  | choiceElse key body alternative rest _ _ ih => simp [append, print, ih]
  | loop key body rest _ ih => simp [append, print, ih]
  | link parts rest ih => simp [append, print, ih]
  | inclusion name rest ih => simp [append, print, ih]

end Tree

end TagTemplate
