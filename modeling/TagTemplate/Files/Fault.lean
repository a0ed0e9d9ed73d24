import TagTemplate.Text.Basic

/-!
# Why a file cannot be used

The causes for which reading or writing a file fails, with their wording.
-/

namespace TagTemplate.Files

/-- Why a file could not be read or written. -/
inductive Fault where
  | missing
  | notDirectory
  | isDirectory
  | notUtf8
  | other (description : Text)
  deriving DecidableEq, Repr

/-- The wording of a fault. Those that the operating system finds carry its number for them. -/
def Fault.message : Fault → String
  | missing => "No such file or directory (os error 2)"
  | notDirectory => "Not a directory (os error 20)"
  | isDirectory => "Is a directory (os error 21)"
  | notUtf8 => "stream did not contain valid UTF-8"
  | other description => String.ofList description

end TagTemplate.Files
