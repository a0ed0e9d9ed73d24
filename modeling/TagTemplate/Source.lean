import TagTemplate.Text.Search
import TagTemplate.Files.Fault

/-!
# Sources of template text

Templates and partials are two namespaces of named texts. A loader answers a
name of a namespace with its text or says why there is none; an empty text
counts as none. The names of a source with and without the file extension
mean the same source.
-/

namespace TagTemplate

/-- The two kinds of named text. -/
inductive Namespace where
  | template
  | fragment
  deriving DecidableEq, Repr

/-- The name of a namespace in messages. -/
def Namespace.word : Namespace → String
  | template => "template"
  | fragment => "partial"

/-- Why a loader has no text for a name. -/
inductive Absence where
  | noSuchSource
  | emptySource
  | unreadable (path : Text) (fault : Files.Fault)
  | emptyFile (path : Text)
  deriving DecidableEq, Repr

/-- The wording of an absence. -/
def Absence.reason : Absence → String
  | noSuchSource => "no such source"
  | emptySource => "source is empty"
  | unreadable path fault => String.ofList path ++ ": " ++ fault.message
  | emptyFile path => String.ofList path ++ " is empty"

/-- What answers the names of each namespace. -/
abbrev Loader := Namespace → Text → Except Absence Text

/-- One question put to a loader. -/
structure Request where
  space : Namespace
  name : Text
  deriving DecidableEq, Repr

/-- The extension of template files. -/
def templateExtension : Text := ".template".toList

/-- The name with the extension at its end, unless it holds the extension already, after its
first character. -/
def withExtension (name extension : Text) : Text :=
  match Text.cut? extension name with
  | some (_ :: _, _) => name
  | _ => name ++ extension

/-- The name without the extension at its end, unless nothing else is left. -/
def stripExtension (name extension : Text) : Text :=
  match extension.isSuffixOf? name with
  | some (c :: stem) => c :: stem
  | _ => name

end TagTemplate
