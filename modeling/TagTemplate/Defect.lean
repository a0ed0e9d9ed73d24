import TagTemplate.Tag

/-!
# Defects of a template

What can be wrong with the tags of a template, and what is done about it. The
strict policy fails; the other leaves the tag where it is, as text.
-/

namespace TagTemplate

/-- Whether defects are errors. -/
inductive Policy where
  | strict
  | passThrough
  deriving DecidableEq, Repr

/-- The two kinds of block. -/
inductive Family where
  | conditional
  | loop
  deriving DecidableEq, Repr

namespace Family

/-- The form of the tags that open blocks of a family. -/
def form : Family → Form
  | conditional => .condition
  | loop => .loop

/-- An opening tag of a family, its key left out. -/
def opener (f : Family) : String := "\x7b\x7b#" ++ f.form.word ++ ":...\x7d\x7d"

/-- The closing tag of a family. -/
def closer : Family → String
  | conditional => "\x7b\x7b#endif\x7d\x7d"
  | loop => "\x7b\x7b#endforeach\x7d\x7d"

end Family

/-- A tag that stands for nothing, or a marker that belongs to no block. -/
inductive Defect where
  | badTag (form : Form) (fault : Fault)
  | badOpener (family : Family) (fault : Fault)
  | secondElse
  | strayElse
  | strayCloser (family : Family)
  | unterminated (family : Family)
  deriving DecidableEq, Repr

/-- The wording of a defect. -/
def Defect.message : Defect → String
  | badTag form fault => form.word ++ " directive with " ++ fault.reason
  | badOpener family fault => family.opener ++ " with " ++ fault.reason
  | secondElse => "second \x7b\x7b#else\x7d\x7d in one conditional"
  | strayElse => "\x7b\x7b#else\x7d\x7d outside of a conditional"
  | strayCloser family => family.closer ++ " without a matching opener"
  | unterminated family =>
    "unterminated " ++ family.opener ++ " block (missing " ++ family.closer ++ ")"

end TagTemplate
