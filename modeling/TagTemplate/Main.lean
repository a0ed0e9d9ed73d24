import TagTemplate.Command.Outcome

/-!
# The program

The command line over the files of the system. What a command leaves to do is a
function of what the files hold that it asks for; these are read until it asks
for no other one.
-/

namespace TagTemplate.Program

/-- What the files that were looked at hold. -/
abbrev Found := List (Text × Except Files.Fault (List UInt8))

/-- The answers of the files. One that was not looked at counts as missing. -/
def answers (found : Found) : Files.Reader := fun path =>
  match found.find? (·.1 = path) with
  | some (_, answer) => answer
  | none => .error .missing

/-- The fault that an error of the system is. A directory has number 21, which some calls give with
its sign changed. -/
def faultOf : IO.Error → Files.Fault
  | .noFileOrDirectory .. => .missing
  | .inappropriateType _ number _ =>
    if number = 21 || -number = 21 then .isDirectory else .notDirectory
  | e => .other e.toString.toList

/-- What the system holds at a path. -/
def look (path : Text) : IO (Except Files.Fault (List UInt8)) := do
  try
    let bytes ← IO.FS.readBinFile (String.ofList path)
    return .ok bytes.toList
  catch e => return .error (faultOf e)

/-- What the files hold that a command asks for. -/
partial def gather (c : Command) (found : Found) : IO Found := do
  let new := (c.asked (answers found)).filter fun path => found.all (·.1 ≠ path)
  if new.isEmpty then return found
  let seen ← new.eraseDups.mapM fun path => do return (path, ← look path)
  gather c (found ++ seen)

/-- Does what a command has left to do. -/
def deliver : Command.Delivery → IO (Except Command.Failure Unit)
  | .write file t => do
    try
      IO.FS.writeBinFile (String.ofList file) ⟨(Text.bytes t).toArray⟩
      return .ok ()
    catch e => return .error (.write file (faultOf e))
  | d => do
    IO.print (String.ofList d.printed)
    return .ok ()

/-- Ends the program. -/
def ended (s : Status) : IO UInt32 := return s.number.toUInt32

/-- Reports how a command ended. -/
def report : Except Command.Failure Unit → IO UInt32
  | .ok () => ended .done
  | .error why => do
    IO.eprintln ("Error: " ++ why.headline ++ "\n\nCaused by:\n    " ++ why.cause)
    ended .failed

/-- Carries out an invocation. -/
def carryOut : Invocation → IO UInt32
  | .run c => do
    let found ← gather c []
    match c.prepare (answers found) with
    | .ok d => report (← deliver d)
    | .error why => report (.error why)
  | .help => do
    IO.print (String.ofList usage)
    ended .done
  | .version => do
    IO.print (String.ofList programVersion)
    ended .done
  | .misuse => do
    IO.eprint (String.ofList usage)
    ended .misused

end TagTemplate.Program

/-- The program. -/
def main (args : List String) : IO UInt32 :=
  TagTemplate.Program.carryOut (TagTemplate.Invocation.ofArguments (args.map String.toList))
