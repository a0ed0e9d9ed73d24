import TagTemplate.Yaml.TagName

/-!
# YAML directives

A directive stands on a line of its own behind a percent sign. One names the
version of YAML, the other says which beginning a handle of tags stands for.
Blanks and a comment may follow.
-/

namespace TagTemplate.Yaml

/-- What a directive says. -/
inductive Directive where
  | version (major minor : Nat)
  | handle (handle : Text) (beginning : Octets)
  deriving DecidableEq, Repr

namespace Directive

/-- The longest number in a version. -/
def digitLimit : Nat := 9

/-- The text without the blanks at its start. -/
def skipBlanks (t : Text) : Text := t.dropWhile isBlank

/-- The number at the start of a text, and the rest. -/
def number? (t : Text) : Option (Nat × Text) := do
  let (ds, rest) ← Text.digits? t
  if digitLimit < ds.length then none else pure (Text.decimalNumber 0 ds, rest)

/-- The version at the start of a text, and the rest. -/
def version? (t : Text) : Option (Directive × Text) := do
  let (major, t) ← number? t
  match t with
  | '.' :: t => do
    let (minor, t) ← number? t
    pure (version major minor, t)
  | _ => none

/-- The handle and its beginning at the start of a text, and the rest. A word has to stand between
two exclamation marks. -/
def handle? (t : Text) : Option (Directive × Text) := do
  let name := TagName.handleOf t
  let rest := t.drop name.length
  if !name.isPrefixOf t || !rest.head?.any isBlank then none
  else do
    let (beginning, rest) ← TagName.suffix? true (skipBlanks rest)
    if atGap rest then pure (handle name beginning, rest) else none

/-- The directive on a line, behind the percent sign. -/
def read? (line : Text) : Option Directive := do
  let name := line.takeWhile isWord
  let rest := line.dropWhile isWord
  let value := skipBlanks rest
  let (directive, rest) ←
    if !atGap rest then none
    else if name = "YAML".toList then version? value
    else if name = "TAG".toList then handle? value
    else none
  match skipBlanks rest with
  | [] => pure directive
  | c :: _ => if c = '#' then pure directive else none

example : read? "YAML 1.2 # newest".toList = some (version 1 2) := by
  decide +kernel

example : read? "YAML 1.0000000002".toList = none := by
  decide +kernel

end Directive

end TagTemplate.Yaml
