import TagTemplate.Render
import TagTemplate.Settings
import TagTemplate.Source.Layout
import TagTemplate.Toml.Reader

/-!
# Configuration

The configuration of the engine is read from TOML. Every field has a default, a
field that is not known is refused, and the fields of the site settings among
them that are not known mean nothing. A relative root directory is counted from
the directory of the file.
-/

namespace TagTemplate

/-- The configuration of the engine. -/
structure Config where
  root : Text := ['.']
  layout : Layout := {}
  rules : Rules := {}
  settings : Settings := {}
  deriving DecidableEq, Repr

namespace Config

/-- The name of the configuration file of a directory. -/
def fileName : Text := "braceview.toml".toList

/-- The text that a value is. -/
def textOf? : Toml → Option Text
  | .text t => some t
  | _ => none

/-- The truth value that a value is. -/
def boolOf? : Toml → Option Bool
  | .bool b => some b
  | _ => none

/-- The number below a bound that a value is. -/
def countOf? (bound : Nat) : Toml → Option Nat
  | .integer (.ofNat n) => if n < bound then some n else none
  | _ => none

/-- The policy of a name. -/
def policyOfName? (name : Text) : Option Policy :=
  if name = "strict".toList then some .strict
  else if name = "pass-through".toList then some .passThrough
  else none

/-- The policy that a value is: its name, or a table with its name alone and nothing under it. -/
def policyOf? : Toml → Option Policy
  | .text name => policyOfName? name
  | .table [(name, .table [])] => policyOfName? name
  | .table [(name, .array [])] => policyOfName? name
  | _ => none

/-- A field, which has a default. -/
def fieldOf? {α : Type} (of? : Toml → Option α) (default : α) : Option Toml → Option α
  | none => some default
  | some v => of? v

/-- The site settings whose fields are found by number and name. -/
def settingsOfFields? (field : Nat → String → Option Toml) : Option Settings := do
  let title ← fieldOf? textOf? [] (field 0 "title")
  let description ← fieldOf? textOf? [] (field 1 "description")
  let colophon ← fieldOf? textOf? [] (field 2 "colophon")
  let prettyLinks ← fieldOf? boolOf? false (field 3 "pretty_links")
  let postsPerPage ← fieldOf? (countOf? (Nat.pow 2 32)) 1 (field 4 "posts_per_page")
  pure { title, description, colophon, prettyLinks, postsPerPage }

/-- The site settings that a value is: a table, or an array of the fields in their order. A date or
time counts as a table without any of the fields. -/
def settingsOf? : Toml → Option Settings
  | .table members => settingsOfFields? fun _ name => Bindings.lookup name.toList members
  | .array items => settingsOfFields? fun n _ => items[n]?
  | .moment _ => some {}
  | _ => none

/-- The names of the fields. -/
def fieldNames : List Text :=
  ["root", "extension", "templates_dir", "partials_dir", "max_partial_depth", "malformed",
    "settings"].map String.toList

/-- The configuration that the members of a document make. -/
def ofMembers? (members : List (Text × Toml)) : Option Config := do
  guard (members.all fun (name, _) => fieldNames.contains name)
  let field (name : String) := Bindings.lookup name.toList members
  let root ← fieldOf? textOf? ['.'] (field "root")
  let extension ← fieldOf? textOf? templateExtension (field "extension")
  let templates ← fieldOf? textOf? "templates".toList (field "templates_dir")
  let fragments ← fieldOf? textOf? "partials".toList (field "partials_dir")
  let depth ← fieldOf? (countOf? (Nat.pow 2 64)) 32 (field "max_partial_depth")
  let policy ← fieldOf? policyOf? .strict (field "malformed")
  let settings ← fieldOf? settingsOf? {} (field "settings")
  pure { root, layout := { templates, fragments, extension }, rules := { policy, depth }, settings }

/-- The configuration that a text is. -/
def ofToml (text : Text) : Except ConfigFault Config :=
  match (Toml.read? text).bind ofMembers? with
  | none => .error .notToml
  | some c =>
    if c.rules.depth = 0 then .error .noDepth
    else if c.layout.extension.isEmpty then .error .emptyExtension
    else .ok c

/-- The configuration with its root counted from the directory of a file. -/
def locate (c : Config) (path : Text) : Config :=
  if Files.isAbsolute c.root then c
  else
    match Files.parent? path with
    | none => c
    | some directory => { c with root := Files.join directory c.root }

/-- The configuration that a file holds. -/
def load (read : Files.Reader) (path : Text) : Except Error Config :=
  match read.text path with
  | .error fault => .error (.config (some path) (.unreadable fault))
  | .ok text =>
    match ofToml text with
    | .error fault => .error (.config (some path) fault)
    | .ok c => .ok (c.locate path)

/-- The file of a name. -/
def pathFor (c : Config) (space : Namespace) (name : Text) : Text :=
  c.layout.pathFor c.root space name

/-- What the files of a configuration answer. -/
def loader (c : Config) (read : Files.Reader) : Loader := c.layout.loader c.root read

/-- How a configuration renders. -/
def renderer (c : Config) : Renderer := ⟨c.settings.prettyLinks, c.rules⟩

end Config

end TagTemplate
