import TagTemplate.Block

/-!
# Checking a template

A check reports the first defect of a text without rendering it: the first
malformed partial or link tag, else the first defect among the conditionals,
else the first among the loops. Partials are not followed.
-/

namespace TagTemplate

/-- Reports the first malformed tag of one of some forms. -/
def reportMalformed (policy : Policy) (forms : List Form) (text : Text) :
    List Tag → Except Error Unit
  | [] => .ok ()
  | tag :: tags =>
    match tag.kind with
    | .malformed form fault =>
      if form ∈ forms then
        match report policy text tag.span.start (.badTag form fault) with
        | .error e => .error e
        | .ok () => reportMalformed policy forms text tags
      else reportMalformed policy forms text tags
    | _ => reportMalformed policy forms text tags

/-- The first defect of a template text. -/
def check (text : Text) : Except Error Unit := do
  reportMalformed .strict [.inclusion, .link] text (Tag.lex text)
  let _ ← Block.find .conditional .strict text
  let _ ← Block.find .loop .strict text
  pure ()

end TagTemplate
