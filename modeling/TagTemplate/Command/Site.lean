import TagTemplate.Command.Failure
import TagTemplate.Config

/-!
# The site of a command

A command works on the site in a directory. The configuration that is named
wins; else the one that lies in the directory is taken, else the defaults. A
configuration found in the directory says itself where its templates lie. Any
other one leaves that to the directory, if one is given.
-/

namespace TagTemplate.Command

/-- Where a site lies: its directory, and the file with its configuration. -/
structure Site where
  directory : Option Text := none
  configuration : Option Text := none
  deriving DecidableEq, Repr

namespace Site

/-- The file in the directory that a configuration is looked for in. -/
def usualFile (s : Site) : Text := Files.join (s.directory.getD ['.']) Config.fileName

/-- A configuration with the templates in the directory of the site, if one is given. -/
def settle (s : Site) (c : Config) : Config := { c with root := s.directory.getD c.root }

/-- The configuration in a file. -/
def loadFile (read : Files.Reader) (file : Text) : Except Failure Config :=
  match Config.load read file with
  | .ok c => .ok c
  | .error why => .error (.load file why)

/-- The configuration of a site. -/
def load (s : Site) (read : Files.Reader) : Except Failure Config :=
  match s.configuration with
  | some file => (loadFile read file).map s.settle
  | none => if read.isFile s.usualFile then loadFile read s.usualFile else .ok (s.settle {})

end Site

end TagTemplate.Command
