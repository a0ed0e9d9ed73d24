import TagTemplate.Text.Search

/-!
# Paths

A path is text whose parts are separated by slashes; one that starts with a
slash is absolute. Empty parts and parts that are a single dot lead nowhere,
save a dot at the very start, which stands for the working directory.
-/

namespace TagTemplate.Files

/-- Whether a path starts at the root of the file system. -/
def isAbsolute (path : Text) : Bool := path.head? = some '/'

/-- A path below another. An absolute path stays as it is, and an empty one adds a slash. -/
def join (base path : Text) : Text :=
  if isAbsolute path then path
  else if base.isEmpty || base.getLast? = some '/' then base ++ path
  else base ++ '/' :: path

/-- Whether a part of a path leads somewhere. -/
def leads (part : Text) : Bool := !part.isEmpty && part != ['.']

/-- The start of a path that is not one of its parts, and the rest: the slash of an absolute path,
or a dot for the working directory. -/
def lead : Text → Text × Text
  | '/' :: rest => (['/'], rest)
  | ['.'] => (['.'], [])
  | '.' :: '/' :: rest => (['.'], '/' :: rest)
  | path => ([], path)

/-- Parts up to the last that leads somewhere. -/
def trimParts (parts : List Text) : List Text :=
  (parts.reverse.dropWhile fun part => !leads part).reverse

/-- The directory that a path names a member of, if it names one. -/
def parent? (path : Text) : Option Text :=
  let (start, rest) := lead path
  match trimParts (Text.pieces '/' rest) with
  | [] => if start = ['.'] then some [] else none
  | parts => some (start ++ Text.joinWith ['/'] (trimParts parts.dropLast))

/-- The name of what a path leads to, if it ends in one. -/
def name? (path : Text) : Option Text :=
  match (trimParts (Text.pieces '/' (lead path).2)).getLast? with
  | none => none
  | some name => if name = "..".toList then none else some name

/-- The extension of a name: what follows its last dot, unless that dot is its first character. -/
def extension? (path : Text) : Option Text := do
  let name ← name? path
  let (after, before) := (name.reverse.takeWhile (· ≠ '.'), name.reverse.dropWhile (· ≠ '.'))
  if before.length < 2 then none else some after.reverse

example : parent? "./a/../b/x.toml".toList = some "./a/../b".toList := by decide +kernel

example : parent? "x.toml".toList = some [] := by decide +kernel

end TagTemplate.Files
