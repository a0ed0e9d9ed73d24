import TagTemplate.Text.Search

/-!
# Arguments of a command line

A command takes one operand and named options, some of which have a value. The
value stands in the next argument, or in the same one: behind an equals sign
after a long name, directly or behind an equals sign after a letter. Two
hyphens alone end the options. Arguments are read from left to right, and the
first that is wrong, or asks for help, decides.
-/

namespace TagTemplate.Command

/-- An option by its long name, and by a letter if it has one. -/
structure OptionName where
  long : Text
  letter : Option Char
  valued : Bool
  deriving DecidableEq, Repr

/-- Why the reading of arguments ends before their end. -/
inductive Early where
  | help
  | misuse
  deriving DecidableEq, Repr

/-- The arguments of a command as far as they are read: the operand, and the options by their long
names, with the values of those that have one. -/
structure Arguments where
  operand : Option Text
  options : List (Text × Text)
  deriving DecidableEq, Repr

namespace Arguments

/-- No arguments. -/
def none : Arguments := ⟨Option.none, []⟩

/-- The value of an option. -/
def value? (a : Arguments) (long : String) : Option Text :=
  (a.options.find? fun (name, _) => name = long.toList).map Prod.snd

/-- Whether an option is given. -/
def has (a : Arguments) (long : String) : Bool := (a.value? long).isSome

/-- One operand more, of which there is only one. -/
def addOperand (a : Arguments) (t : Text) : Except Early Arguments :=
  match a.operand with
  | some _ => .error .misuse
  | Option.none => .ok { a with operand := some t }

/-- One option more, which is given only once and whose value is not empty. -/
def addOption (a : Arguments) (o : OptionName) (value : Text) : Except Early Arguments :=
  if (a.options.any fun (name, _) => name = o.long) || (o.valued && value.isEmpty) then
    .error .misuse
  else .ok { a with options := a.options ++ [(o.long, value)] }

/-- Operands alone. -/
def addOperands (a : Arguments) : List Text → Except Early Arguments
  | [] => .ok a
  | t :: ts =>
    match a.addOperand t with
    | .ok a => addOperands a ts
    | .error early => .error early

/-- Whether an argument is read as options, and so is no value of the option before it. -/
def isOptions : Text → Bool
  | '-' :: _ :: _ => true
  | _ => false

/-- What an argument says by itself. -/
inductive Word where
  | operand (t : Text)
  | endOfOptions
  | help
  | option (o : OptionName) (value : Text)
  | pending (o : OptionName)
  | unknown
  deriving DecidableEq, Repr

/-- The word of a long name, with the value behind the equals sign if there is one. -/
def longWord (known : List OptionName) (name : Text) (value : Option Text) : Word :=
  match known.find? (·.long = name), value with
  | some o, some v => if o.valued then .option o v else .unknown
  | some o, Option.none => if o.valued then .pending o else .option o []
  | Option.none, some _ => .unknown
  | Option.none, Option.none => if name = "help".toList then .help else .unknown

/-- The word of a letter, with what stands behind it. -/
def letterWord (known : List OptionName) (letter : Char) (rest : Text) : Word :=
  match known.find? (·.letter = some letter) with
  | some o =>
    match rest with
    | [] => .pending o
    | '=' :: value => .option o value
    | value => .option o value
  | Option.none => if letter = 'h' then .help else .unknown

/-- The word of an argument. -/
def word (known : List OptionName) : Text → Word
  | ['-', '-'] => .endOfOptions
  | '-' :: '-' :: t =>
    match Text.cut? ['='] t with
    | some (name, value) => longWord known name (some value)
    | Option.none => longWord known t Option.none
  | '-' :: letter :: rest => letterWord known letter rest
  | t => .operand t

/-- Reads arguments behind those that are read. -/
def read (known : List OptionName) (a : Arguments) : List Text → Except Early Arguments
  | [] => .ok a
  | t :: ts =>
    match word known t with
    | .endOfOptions => a.addOperands ts
    | .help => .error .help
    | .unknown => .error .misuse
    | .operand t =>
      match a.addOperand t with
      | .ok a => read known a ts
      | .error early => .error early
    | .option o value =>
      match a.addOption o value with
      | .ok a => read known a ts
      | .error early => .error early
    | .pending o =>
      match ts with
      | [] => .error .misuse
      | value :: ts =>
        if isOptions value then .error .misuse
        else
          match a.addOption o value with
          | .ok a => read known a ts
          | .error early => .error early

end Arguments

end TagTemplate.Command
