import TagTemplate.Error

/-!
# Why a command fails

A command that fails says what it could not do and why: a headline and the
cause below it.
-/

namespace TagTemplate.Command

/-- The format of a context file. -/
inductive Format where
  | json
  | yaml
  deriving DecidableEq, Repr

/-- The name of a format. -/
def Format.name : Format → String
  | json => "JSON"
  | yaml => "YAML"

/-- What a command could not do, and why. -/
inductive Failure where
  | load (file : Text) (why : Error)
  | readContext (file : Text) (why : Files.Fault)
  | parseContext (file : Text) (format : Format)
  | context (file : Text) (why : Error)
  | render (name : Text) (why : Error)
  | read (space : Namespace) (name : Text) (why : Error)
  | malformed (space : Namespace) (name : Text) (why : Error)
  | write (file : Text) (why : Files.Fault)
  deriving DecidableEq, Repr

namespace Failure

/-- What could not be done. -/
def headline : Failure → String
  | load file _ => "Failed to load " ++ String.ofList file
  | readContext file _ => "Failed to read context file " ++ String.ofList file
  | parseContext file format => "Invalid " ++ format.name ++ " in " ++ String.ofList file
  | context file _ => "Invalid context in " ++ String.ofList file
  | render name _ => "Failed to render " ++ String.ofList name
  | read space name _ => "Failed to read " ++ space.word ++ " " ++ String.ofList name
  | malformed space name _ => space.word ++ " " ++ String.ofList name ++ " is malformed"
  | write file _ => "Failed to write " ++ String.ofList file

/-- Why it could not be done. -/
def cause : Failure → String
  | load _ why => why.message
  | readContext _ why => why.message
  | parseContext _ format => "not a " ++ format.name ++ " document"
  | context _ why => why.message
  | render _ why => why.message
  | read _ _ why => why.message
  | malformed _ _ why => why.message
  | write _ why => why.message

end Failure

end TagTemplate.Command
