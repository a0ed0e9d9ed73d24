import TagTemplate.Bindings
import TagTemplate.Source

/-!
# A store of sources

Texts kept in memory under the names of each namespace, the extension of
template files left out of the names.
-/

namespace TagTemplate

/-- The texts of each namespace. -/
structure Store where
  templates : Bindings Text
  fragments : Bindings Text
  deriving Repr

namespace Store

/-- A store without texts. -/
def empty : Store := ⟨.empty, .empty⟩

/-- The name under which a source is kept. -/
def keyOf (name : Text) : Text := stripExtension name templateExtension

/-- The texts of a namespace. -/
def space (s : Store) : Namespace → Bindings Text
  | .template => s.templates
  | .fragment => s.fragments

/-- The store with one text more, which replaces a text of the same name. -/
def add (s : Store) (space : Namespace) (name text : Text) : Store :=
  match space with
  | .template => { s with templates := s.templates.insert (keyOf name) text }
  | .fragment => { s with fragments := s.fragments.insert (keyOf name) text }

/-- What the store answers. -/
def loader (s : Store) : Loader := fun space name =>
  match (s.space space).find? (keyOf name) with
  | none => .error .noSuchSource
  | some [] => .error .emptySource
  | some text => .ok text

end Store

end TagTemplate
