import TagTemplate.Files.Tree
import TagTemplate.Source

/-!
# Sources in files

Where the files of templates and partials lie, and how they are read.
-/

namespace TagTemplate

/-- The directory of each namespace and the extension of the files. -/
structure Layout where
  templates : Text := "templates".toList
  fragments : Text := "partials".toList
  extension : Text := templateExtension
  deriving DecidableEq, Repr

namespace Layout

/-- The directory of a namespace. -/
def directory (l : Layout) : Namespace → Text
  | .template => l.templates
  | .fragment => l.fragments

/-- The file of a name below a root directory. -/
def pathFor (l : Layout) (root : Text) (space : Namespace) (name : Text) : Text :=
  Files.join (Files.join root (l.directory space)) (withExtension name l.extension)

/-- What the files below a root directory answer. An empty file counts as none. -/
def loader (l : Layout) (root : Text) (read : Files.Reader) : Loader := fun space name =>
  let path := l.pathFor root space name
  match read.text path with
  | .error fault => .error (.unreadable path fault)
  | .ok [] => .error (.emptyFile path)
  | .ok text => .ok text

end Layout

end TagTemplate
