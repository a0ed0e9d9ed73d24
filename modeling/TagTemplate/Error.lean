import TagTemplate.Defect
import TagTemplate.Source
import TagTemplate.Text.Position

/-!
# Errors

Why a render, a context or a configuration fails, as causes. `Error.message`
is the one place where an error is put into words.
-/

namespace TagTemplate

/-- Why a value is no context. -/
inductive ContextFault where
  | notObject
  | notScalar (place : Text)
  | notRow (place : Text)
  | keyNotText
  deriving DecidableEq, Repr

/-- The wording of a context fault. -/
def ContextFault.message : ContextFault → String
  | notObject => "context must be a JSON object"
  | notScalar place => "value for '" ++ String.ofList place ++ "' must be a scalar"
  | notRow place => "'" ++ String.ofList place ++ "' must be an object of scalars"
  | keyNotText => "key must be a string"

/-- Why a configuration is refused. -/
inductive ConfigFault where
  | notToml
  | noDepth
  | emptyExtension
  | unreadable (fault : Files.Fault)
  deriving DecidableEq, Repr

/-- The wording of a configuration fault. -/
def ConfigFault.message : ConfigFault → String
  | notToml => "not a valid configuration"
  | noDepth => "max_partial_depth must be at least 1"
  | emptyExtension => "extension must not be empty"
  | unreadable fault => fault.message

/-- Why an operation of the template engine failed. -/
inductive Error where
  | notFound (space : Namespace) (name : Text) (reason : Absence)
  | malformed (position : Position) (defect : Defect)
  | cyclic (chain : List Text)
  | tooDeep (name : Text) (limit : Nat)
  | invalidContext (fault : ContextFault)
  | config (file : Option Text) (fault : ConfigFault)
  | sinkFull
  deriving DecidableEq, Repr

/-- The wording of an error. -/
def Error.message : Error → String
  | notFound space name reason =>
    space.word ++ " " ++ String.ofList name ++ " not found: " ++ reason.reason
  | malformed position defect =>
    "Malformed directive at line " ++ toString position.line ++ ", column " ++
      toString position.column ++ ": " ++ defect.message
  | cyclic chain =>
    "Cyclic partial inclusion: " ++ String.intercalate " -> " (chain.map String.ofList)
  | tooDeep name limit =>
    "Partial nesting deeper than " ++ toString limit ++ " levels while resolving: " ++
      String.ofList name
  | invalidContext fault => "Invalid context: " ++ fault.message
  | config none fault => "Configuration error: " ++ fault.message
  | config (some file) fault =>
    "Configuration error: " ++ String.ofList file ++ ": " ++ fault.message
  | sinkFull => "I/O error: failed to write whole buffer"

/-- An error only under the strict policy: the defect at byte `offset` of a text. -/
def report (policy : Policy) (text : Text) (offset : Nat) (defect : Defect) : Except Error Unit :=
  match policy with
  | .strict => .error (.malformed (Text.positionAt text offset) defect)
  | .passThrough => .ok ()

end TagTemplate
