import TagTemplate.Yaml.Directive

/-!
# YAML tokens

The words of YAML text. The nesting that indentation gives has tokens of its
own: a block starts where its first entry is indented further than what stands
around it, and ends before the first entry that is indented less.
-/

namespace TagTemplate.Yaml

/-- A word of YAML text. -/
inductive Token where
  | directive (d : Directive)
  | documentStart
  | documentEnd
  | sequenceStart
  | mappingStart
  | blockEnd
  | openSequence
  | closeSequence
  | openMapping
  | closeMapping
  | comma
  | entry
  | key
  | value
  | reference (name : Text)
  | anchor (name : Text)
  | tag (name : TagName)
  | scalar (plain : Bool) (t : Text)
  deriving DecidableEq, Repr

end TagTemplate.Yaml
