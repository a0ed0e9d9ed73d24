import TagTemplate.Text.Basic

/-!
# Tags

A tag is a construct between double braces: a reference to a partial, the
markers of conditionals and loops, a value placeholder or a link. A tag whose
form is recognisable but whose argument is empty or holds a character that the
form does not allow is kept as `malformed`, so that it can be reported.
-/

namespace TagTemplate

/-- The forms that take an argument. -/
inductive Form where
  | inclusion
  | condition
  | loop
  | link
  deriving DecidableEq, Repr

/-- The name of a form in messages. -/
def Form.word : Form → String
  | inclusion => "partial"
  | condition => "if"
  | loop => "foreach"
  | link => "link"

/-- What is wrong with the argument of a malformed tag. -/
inductive Fault where
  | emptyName
  | badCharacter
  | emptyUrl
  deriving DecidableEq, Repr

/-- A fault as messages put it. -/
def Fault.reason : Fault → String
  | emptyName => "empty name"
  | badCharacter => "invalid character in name"
  | emptyUrl => "empty URL"

/-- What a tag stands for. -/
inductive Tag.Kind where
  | inclusion (name : Text)
  | ifOpen (key : Text)
  | ifElse
  | ifClose
  | loopOpen (key : Text)
  | loopClose
  | value (key : Text)
  | link (url : Text)
  | malformed (form : Form) (fault : Fault)
  deriving DecidableEq, Repr

/-- A tag and the bytes it takes up, its braces among them. -/
structure Tag where
  kind : Tag.Kind
  span : Span
  deriving DecidableEq, Repr

namespace Tag

/-- The braces that open every tag. -/
def openMark : Text := ['{', '{']

/-- The braces that close every tag. -/
def closeMark : Text := ['}', '}']

/-- What stands before the URL of a link. -/
def linkMark : Text := openMark ++ "#link:".toList

/-- Tags that stand for themselves, not for one end of a block. -/
def Kind.isInline : Kind → Bool
  | inclusion _ | value _ | link _ => true
  | _ => false

/-- Links, malformed ones among them. -/
def Kind.isLink : Kind → Bool
  | link _ | malformed .link _ => true
  | _ => false

/-- The inline tags among some tags. -/
def inline (tags : List Tag) : List Tag := tags.filter (·.kind.isInline)

/-- The tag moved `n` bytes to the right. -/
def shift (t : Tag) (n : Nat) : Tag := ⟨t.kind, t.span.shift n⟩

end Tag

end TagTemplate
