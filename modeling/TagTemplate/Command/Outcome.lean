import TagTemplate.Command.Invocation

/-!
# Outcomes

What a command leaves behind: a text that is printed, or a file that is
written, and only if nothing failed before. `Command.execute` says it of a tree
of files, all of which but the written one stay as they are.
-/

namespace TagTemplate

namespace Command

/-- What is left to do when a command has succeeded. -/
inductive Delivery where
  | nothing
  | print (t : Text)
  | write (file : Text) (t : Text)
  deriving DecidableEq, Repr

/-- Where a rendered text goes: to the file that the job names, else it is printed. -/
def RenderJob.deliver (j : RenderJob) (t : Text) : Delivery :=
  match j.output with
  | none => .print t
  | some file => .write file t

/-- What a command leaves to do. -/
def prepare (read : Files.Reader) : Command → Except Failure Delivery
  | .render j => (j.render read).map j.deliver
  | .check j => (j.run read).map fun _ => .nothing

/-- The files that a command asks for. -/
def asked (read : Files.Reader) : Command → List Text
  | .render j => j.asked read
  | .check j => j.asked read

/-- The text that a delivery prints: a line. -/
def Delivery.printed : Delivery → Text
  | .nothing => []
  | .print t => t ++ ['\n']
  | .write _ _ => []

/-- A delivery to a tree of files. -/
def Delivery.onTree (tree : Files.Tree) : Delivery → Except Failure Unit × Files.Tree
  | .write file t =>
    match tree.write file (Text.bytes t) with
    | (.ok (), tree) => (.ok (), tree)
    | (.error fault, tree) => (.error (.write file fault), tree)
  | _ => (.ok (), tree)

/-- A command executed on a tree of files: the text that it prints or its failure, and the tree
afterwards. -/
def execute (tree : Files.Tree) (c : Command) : Except Failure Text × Files.Tree :=
  match c.prepare tree.read with
  | .error why => (.error why, tree)
  | .ok d =>
    match d.onTree tree with
    | (.error why, tree) => (.error why, tree)
    | (.ok (), tree) => (.ok d.printed, tree)

end Command

/-- How the program ends. -/
inductive Status where
  | done
  | failed
  | misused
  deriving DecidableEq, Repr

/-- The number that the program ends with. -/
def Status.number : Status → Nat
  | done => 0
  | failed => 1
  | misused => 2

/-- The name of the program with its version. -/
def programVersion : Text := "braceview 0.1.0\n".toList

/-- What the program can be called with. -/
def usage : Text :=
  ("Usage: braceview render [--root DIR] [-c|--config FILE] [--context FILE] [--pretty-links]" ++
    " [-o|--output FILE] NAME\n" ++
    "       braceview check [--root DIR] [-c|--config FILE] [--partial] NAME\n" ++
    "       braceview help | --help | --version\n").toList

/-- How an invocation ends on a tree of files, what it prints, and the tree afterwards. -/
def Invocation.execute (tree : Files.Tree) : Invocation → Status × Text × Files.Tree
  | .run c =>
    match c.execute tree with
    | (.ok printed, tree) => (.done, printed, tree)
    | (.error _, tree) => (.failed, [], tree)
  | .help => (.done, usage, tree)
  | .version => (.done, programVersion, tree)
  | .misuse => (.misused, [], tree)

end TagTemplate
