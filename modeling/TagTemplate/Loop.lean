import TagTemplate.Block
import TagTemplate.Context
import TagTemplate.Marked.Basic

/-!
# Loops

A loop is replaced by a copy of its body for each row of its key, one line feed
between each two copies. In a copy the placeholders of the row's fields are
replaced by their values, which are data from then on; other placeholders are
left for later. A key that has no rows removes the loop. Loops inside the body
of a loop are not expanded.
-/

namespace TagTemplate.Loop

/-- A placeholder of a field of a row: its bytes and the value. -/
def field? (row : Row) (tag : Tag) : Option (Span × Text) :=
  match tag.kind with
  | .value key => (row.find? key).map fun s => (tag.span, s.render)
  | _ => none

/-- The body from byte `pos` on with placeholders replaced. -/
def fillFrom (body : Text) (pos : Nat) : List (Span × Text) → List Piece
  | [] => [.template (Text.slice body ⟨pos, Text.size body⟩)]
  | (s, value) :: fields =>
    .template (Text.slice body ⟨pos, s.start⟩) :: .data value :: fillFrom body s.stop fields

/-- A copy of the body for one row. -/
def copy (body : Text) (row : Row) : List Piece :=
  fillFrom body 0 ((Tag.lex body).filterMap (field? row))

/-- The copies of the body for some rows. -/
def copies (body : Text) : List Row → List Piece
  | [] => []
  | [row] => copy body row
  | row :: rows => copy body row ++ .template ['\n'] :: copies body rows

/-- The text from byte `pos` on with its loops expanded. -/
def expandFrom (context : Context) (text : Text) (pos : Nat) : List Block → List Piece
  | [] => [.template (Text.slice text ⟨pos, Text.size text⟩)]
  | b :: blocks =>
    .template (Text.slice text ⟨pos, b.span.start⟩) ::
      (copies (Text.slice text b.body) (context.rows b.key) ++
        expandFrom context text b.span.stop blocks)

/-- The text with its loops expanded. -/
def expand (policy : Policy) (context : Context) (text : Text) : Except Error Marked :=
  (Block.find .loop policy text).map fun blocks =>
    Marked.ofPieces (expandFrom context text 0 blocks)

end TagTemplate.Loop
