import TagTemplate.Proofs.Tree.Basic

/-!
# The meaning of trees

`eval` is what rendering a tree comes to, before blank lines are joined and the
ends are trimmed. A conditional stands for one of its bodies. A loop stands for
its body once for each row that its key is bound to, with line feeds in between,
and inside the body of a loop for its body once. A placeholder stands for the
field of the row or else for the scalar of the context, and for nothing if there
is neither. All of this asks the context only for what a key is bound to.

A link stands for its URL as it is to be written. If a value of the URL is
missing, or if the URL opens or closes braces, the link is no tag, and stays as
it is but for the placeholders in it.
-/

namespace TagTemplate

namespace Context

/-- Whether a condition on a key holds: the key is bound to a scalar that is true, or to rows. -/
def holds (context : Context) (key : Text) : Bool :=
  match context.find? key with
  | some (.scalar s) => s.isTruthy
  | some (.rows rows) => !rows.isEmpty
  | none => false

/-- The value of a key: the field of the row, else the scalar of the context. -/
def valueIn (context : Context) (row : Option Row) (key : Text) : Option Text :=
  match row.bind fun r => r.find? key, context.find? key with
  | some field, _ => some field.render
  | none, some (.scalar s) => some s.render
  | none, _ => none

@[simp] theorem holds_eq (context : Context) (key : Text) :
    context.holds key = context.isTruthy key := by
  rw [holds, isTruthy]
  rcases context.find? key with _ | _ | _ <;> rfl

/-- The row fills in a placeholder before the context does. -/
theorem valueIn_eq (context : Context) (row : Option Row) :
    context.valueIn row = fun key => (row.bind fun r => r.value key).or (context.value key) := by
  funext key
  rw [valueIn, value, scalar?]
  cases row with
  | none => rcases context.find? key with _ | _ | _ <;> rfl
  | some row =>
      simp only [Option.bind_some, Row.value]
      rcases row.find? key with _ | field
      · rcases context.find? key with _ | _ | _ <;> rfl
      · rfl

end Context

/-- The text of a part of a URL, if it has one. -/
def Part.text? (value : Text → Option Text) : Part → Option Text
  | literal t => some t.text
  | .value key => value key.text

/-- The URL that the parts of a link make, those without a text left out. -/
def urlText (parts : List (Option Text)) : Text := parts.flatMap fun part => part.getD []

/-- Whether the parts of a link have their texts and make one URL between the link's braces. -/
def isUrl (parts : List (Option Text)) : Bool :=
  parts.all Option.isSome && Tag.encloses (urlText parts)

/-- Whether the parts of a link have their texts and these are empty. -/
def isBlankUrl (parts : List (Option Text)) : Bool :=
  parts.all Option.isSome && (urlText parts).isEmpty

/-- A link, given the texts of its parts. -/
def evalLink (pretty : Bool) (parts : List (Option Text)) : Text :=
  if isUrl parts then
    if (urlText parts).isEmpty then [] else Link.write pretty (urlText parts)
  else Tag.linkMark ++ (urlText parts ++ Tag.closeMark)

namespace Tree

/-- The text that a tree stands for. A reference to a partial stands for nothing: an inlined tree
has none. -/
def eval (pretty : Bool) (context : Context) : Option Row → Tree → Text
  | _, nil => []
  | row, text t rest => t.text ++ rest.eval pretty context row
  | row, value key rest =>
    (context.valueIn row key.text).getD [] ++ rest.eval pretty context row
  | row, choice key body rest =>
    (if context.holds key.text then body.eval pretty context row else []) ++
      rest.eval pretty context row
  | row, choiceElse key body alternative rest =>
    (if context.holds key.text then body.eval pretty context row
      else alternative.eval pretty context row) ++ rest.eval pretty context row
  | none, loop key body rest =>
    (match context.find? key.text with
      | some (.rows rows) =>
        List.intercalate ['\n'] (rows.map fun r => body.eval pretty context (some r))
      | _ => []) ++ rest.eval pretty context none
  | some r, loop _ body rest =>
    body.eval pretty context (some r) ++ rest.eval pretty context (some r)
  | row, link parts rest =>
    evalLink pretty (parts.map (Part.text? (context.valueIn row))) ++ rest.eval pretty context row
  | row, inclusion _ rest => rest.eval pretty context row

/-- Whether a link that `eval` comes to has an empty URL. -/
def hasBlankLink (context : Context) : Option Row → Tree → Bool
  | _, nil => false
  | row, text _ rest => rest.hasBlankLink context row
  | row, value _ rest => rest.hasBlankLink context row
  | row, choice key body rest =>
    (context.holds key.text && body.hasBlankLink context row) || rest.hasBlankLink context row
  | row, choiceElse key body alternative rest =>
    (if context.holds key.text then body.hasBlankLink context row
      else alternative.hasBlankLink context row) || rest.hasBlankLink context row
  | none, loop key body rest =>
    (match context.find? key.text with
      | some (.rows rows) => rows.any fun r => body.hasBlankLink context (some r)
      | _ => false) || rest.hasBlankLink context none
  | some r, loop _ body rest =>
    body.hasBlankLink context (some r) || rest.hasBlankLink context (some r)
  | row, link parts rest =>
    isBlankUrl (parts.map (Part.text? (context.valueIn row))) || rest.hasBlankLink context row
  | row, inclusion _ rest => rest.hasBlankLink context row

/-- A loop stands for its body once for each of the rows over which it is run. -/
theorem eval_loop (pretty : Bool) (context : Context) (key : Key) (body rest : Tree) :
    (loop key body rest).eval pretty context none =
      Text.joinWith ['\n'] ((context.rows key.text).map fun r =>
        body.eval pretty context (some r)) ++ rest.eval pretty context none := by
  rw [eval, Context.rows, Text.joinWith_eq_intercalate]
  rcases context.find? key.text with _ | _ | _ <;> rfl

theorem hasBlankLink_loop (context : Context) (key : Key) (body rest : Tree) :
    (loop key body rest).hasBlankLink context none =
      (((context.rows key.text).any fun r => body.hasBlankLink context (some r)) ||
        rest.hasBlankLink context none) := by
  rw [hasBlankLink, Context.rows]
  rcases context.find? key.text with _ | _ | _ <;> rfl

end Tree

end TagTemplate
