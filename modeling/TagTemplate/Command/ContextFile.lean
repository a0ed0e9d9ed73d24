import TagTemplate.Command.Failure
import TagTemplate.Context.OfJson
import TagTemplate.Files.Tree
import TagTemplate.Json.Reader
import TagTemplate.Yaml.Resolve

/-!
# Context files

The data of a render is read from a file, whose extension tells its format.
-/

namespace TagTemplate.Command

/-- The format of a file: YAML by its extension, else JSON. -/
def Format.ofPath (path : Text) : Format :=
  match Files.extension? path with
  | none => json
  | some e => if e = "yaml".toList ∨ e = "yml".toList then yaml else json

/-- The value that a text is in a format. -/
def Format.read? : Format → Text → Option Json
  | json => Json.read?
  | yaml => Yaml.read?

/-- The context that a file holds. -/
def loadContext (read : Files.Reader) (path : Text) : Except Failure Context :=
  match read.text path with
  | .error fault => .error (.readContext path fault)
  | .ok text =>
    match (Format.ofPath path).read? text with
    | none => .error (.parseContext path (Format.ofPath path))
    | some value =>
      match Context.ofJson value with
      | .error why => .error (.context path why)
      | .ok context => .ok context

end TagTemplate.Command
