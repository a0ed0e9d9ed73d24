import TagTemplate.Command.ContextFile
import TagTemplate.Command.Site

/-!
# The render command

One template of a site is rendered. What the context file binds comes first,
and the settings of the site fill in what it leaves open. The form of links is
that of the settings, whatever the context binds.
-/

namespace TagTemplate.Command

/-- What to render: a template of a site, with a context file, and where to write the result. -/
structure RenderJob where
  name : Text
  site : Site := {}
  context : Option Text := none
  prettyLinks : Bool := false
  output : Option Text := none
  deriving DecidableEq, Repr

namespace RenderJob

/-- The configuration that holds for a job: that of the site, with pretty links if asked for. -/
def config (j : RenderJob) (read : Files.Reader) : Except Failure Config :=
  (j.site.load read).map fun c =>
    let prettyLinks := j.prettyLinks || c.settings.prettyLinks
    { c with settings := { c.settings with prettyLinks } }

/-- What the context file of a job binds. -/
def given (j : RenderJob) (read : Files.Reader) : Except Failure Context :=
  match j.context with
  | none => .ok .empty
  | some file => loadContext read file

/-- A template rendered under a configuration, with what a file binds and the settings. -/
def renderWith (j : RenderJob) (read : Files.Reader) (c : Config) (given : Context) :
    Served Text :=
  c.renderer.render (c.loader read) (given.mergeMissing c.settings.toContext) j.name

/-- The result of a job. -/
def render (j : RenderJob) (read : Files.Reader) : Except Failure Text := do
  let c ← j.config read
  let given ← j.given read
  match (j.renderWith read c given).result with
  | .ok text => .ok text
  | .error why => .error (.render j.name why)

/-- The files that a job asks for. -/
def asked (j : RenderJob) (read : Files.Reader) : List Text :=
  let rendered :=
    match j.config read, j.given read with
    | .ok c, .ok given =>
      (j.renderWith read c given).requests.map fun r => c.pathFor r.space r.name
    | _, _ => []
  j.site.configuration.getD j.site.usualFile :: j.context.toList ++ rendered

end RenderJob

end TagTemplate.Command
