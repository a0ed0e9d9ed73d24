import TagTemplate.Check
import TagTemplate.Command.Site

/-!
# The check command

One template or partial of a site is read and its tags are checked.
-/

namespace TagTemplate.Command

/-- What to check: a source of a site. -/
structure CheckJob where
  name : Text
  site : Site := {}
  space : Namespace := .template
  deriving DecidableEq, Repr

namespace CheckJob

/-- The text that a job is about. -/
def source (j : CheckJob) (read : Files.Reader) : Except Failure Text := do
  let c ← j.site.load read
  match (c.loader read).ask ⟨j.space, j.name⟩ with
  | .ok text => .ok text
  | .error why => .error (.read j.space j.name why)

/-- Checks the text that a job is about. -/
def run (j : CheckJob) (read : Files.Reader) : Except Failure Unit := do
  let text ← j.source read
  match check text with
  | .ok () => .ok ()
  | .error why => .error (.malformed j.space j.name why)

/-- The files that a job asks for. -/
def asked (j : CheckJob) (read : Files.Reader) : List Text :=
  let source :=
    match j.site.load read with
    | .ok c => [c.pathFor j.space j.name]
    | .error _ => []
  j.site.configuration.getD j.site.usualFile :: source

end CheckJob

end TagTemplate.Command
