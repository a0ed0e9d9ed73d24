import TagTemplate.Command.Arguments
import TagTemplate.Command.Check
import TagTemplate.Command.Render

/-!
# Invocations

What the arguments of the program ask for: a render, a check, help or the
version. Whatever else they say is a misuse.
-/

namespace TagTemplate

/-- What a command does. -/
inductive Command where
  | render (job : Command.RenderJob)
  | check (job : Command.CheckJob)
  deriving DecidableEq, Repr

/-- What the arguments of the program ask for. -/
inductive Invocation where
  | run (c : Command)
  | help
  | version
  | misuse
  deriving DecidableEq, Repr

namespace Invocation

open Command (OptionName Arguments Site)

/-- The options that tell where a site lies. -/
def siteOptions : List OptionName :=
  [⟨"root".toList, none, true⟩, ⟨"config".toList, some 'c', true⟩]

/-- The options of a render. -/
def renderOptions : List OptionName :=
  siteOptions ++
    [⟨"context".toList, none, true⟩, ⟨"pretty-links".toList, none, false⟩,
      ⟨"output".toList, some 'o', true⟩]

/-- The options of a check. -/
def checkOptions : List OptionName := siteOptions ++ [⟨"partial".toList, none, false⟩]

/-- The site that some arguments name. -/
def site (a : Arguments) : Site := ⟨a.value? "root", a.value? "config"⟩

/-- The render that some arguments ask for. -/
def renderJob (name : Text) (a : Arguments) : Command :=
  .render
    { name, site := site a, context := a.value? "context", prettyLinks := a.has "pretty-links",
      output := a.value? "output" }

/-- The check that some arguments ask for. -/
def checkJob (name : Text) (a : Arguments) : Command :=
  .check { name, site := site a, space := if a.has "partial" then .fragment else .template }

/-- The invocation of a command with options, from the arguments behind its name. -/
def ofCommand (known : List OptionName) (job : Text → Arguments → Command) (ts : List Text) :
    Invocation :=
  match Arguments.none.read known ts with
  | .error .help => help
  | .error .misuse => misuse
  | .ok a =>
    match a.operand with
    | some name => run (job name a)
    | none => misuse

/-- The names of the commands. -/
def commandNames : List Text := ["render", "check", "help"].map String.toList

/-- What the arguments behind a call for help ask for: at most one command is explained. -/
def ofHelp : List Text → Invocation
  | [] => help
  | [name] => if commandNames.contains name then help else misuse
  | _ => misuse

/-- What the arguments of the program ask for. The first of them is a command or an option. -/
def ofArguments : List Text → Invocation
  | [] => misuse
  | t :: ts =>
    if t = "render".toList then ofCommand renderOptions renderJob ts
    else if t = "check".toList then ofCommand checkOptions checkJob ts
    else if t = "help".toList then ofHelp ts
    else if t = "--help".toList then help
    else if t = "--version".toList then version
    else
      match t with
      | '-' :: 'h' :: _ => help
      | '-' :: 'V' :: _ => version
      | _ => misuse

example : ofArguments (["render", "a", "-oout", "--root=site"].map String.toList) =
    run (.render
      { name := ['a'], site := ⟨some "site".toList, none⟩, output := some "out".toList }) := by
  decide +kernel

example : ofArguments (["check", "--partial", "--", "-a"].map String.toList) =
    run (.check { name := "-a".toList, space := .fragment }) := by
  decide +kernel

example : ofArguments (["render", "a", "--config", "--root", "b"].map String.toList) = misuse := by
  decide +kernel

end Invocation

end TagTemplate
