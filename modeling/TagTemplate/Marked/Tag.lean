import TagTemplate.Check
import TagTemplate.Context
import TagTemplate.Link
import TagTemplate.Marked.Basic
import TagTemplate.Text.LineBreak

/-!
# The tags of marked text

Only tags that the template wrote count. A tag that holds data is plain text,
but a link may hold data in its URL, if its opening and closing marks are
template text. On these tags work the last three steps of a render: values are
filled in, links are written, and the tags that are left are removed.
-/

namespace TagTemplate.Marked

/-- Whether a tag of the joined text was written by the template. -/
def wrote (m : Marked) (tag : Tag) : Bool :=
  if tag.kind.isLink then
    m.isTemplate ⟨tag.span.start, tag.span.start + Text.size Tag.linkMark⟩ &&
      m.isTemplate ⟨tag.span.stop - Text.size Tag.closeMark, tag.span.stop⟩
  else m.isTemplate tag.span

/-- The tags that the template wrote. -/
def tags (m : Marked) : List Tag := (Tag.lex m.text).filter m.wrote

/-- The value of a placeholder whose key is bound to a scalar. -/
def value? (context : Context) (tag : Tag) : Option (Span × Piece) :=
  match tag.kind with
  | .value key => (context.scalar? key).map fun s => (tag.span, .data s.render)
  | _ => none

/-- The text with the values of its placeholders filled in. Other placeholders stay. -/
def fillValues (context : Context) (m : Marked) : Marked :=
  m.splice (m.tags.filterMap (value? context))

/-- A link as it is written. -/
def link? (pretty : Bool) (tag : Tag) : Option (Span × Piece) :=
  match tag.kind with
  | .link url => some (tag.span, .data (Link.write pretty url))
  | _ => none

/-- The text with its links written. -/
def writeLinks (policy : Policy) (pretty : Bool) (m : Marked) : Except Error Marked :=
  (reportMalformed policy [.link] m.text m.tags).map fun _ =>
    m.splice (m.tags.filterMap (link? pretty))

/-- The text without the tags that the template wrote. -/
def strip (m : Marked) : Marked := m.splice (m.tags.map fun tag => (tag.span, .template []))

/-- The text in the end: no tags, and no more than one blank line in a row. -/
def clean (m : Marked) : Text := Text.collapseBreaks m.strip.text

end TagTemplate.Marked
