import TagTemplate.Context

/-!
# Site settings

Settings that hold for every template of a site. They decide the form of links
and can be bound as a context.
-/

namespace TagTemplate

/-- The settings of a site. -/
structure Settings where
  title : Text := []
  description : Text := []
  colophon : Text := []
  prettyLinks : Bool := false
  postsPerPage : Nat := 1
  deriving DecidableEq, Repr

namespace Settings

/-- The names of the settings with their values, in order. -/
def entries (s : Settings) : List (Text × Scalar) :=
  [("title".toList, .text s.title),
   ("description".toList, .text s.description),
   ("colophon".toList, .text s.colophon),
   ("pretty_links".toList, .bool s.prettyLinks),
   ("posts_per_page".toList, .number (.integer s.postsPerPage))]

/-- The setting of a name. -/
def get? (s : Settings) (name : Text) : Option Scalar := Bindings.lookup name s.entries

/-- The settings as a context. -/
def toContext (s : Settings) : Context :=
  Bindings.ofList (s.entries.map fun (name, value) => (name, .scalar value))

end Settings

end TagTemplate
