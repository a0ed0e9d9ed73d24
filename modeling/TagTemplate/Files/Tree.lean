import TagTemplate.Bindings
import TagTemplate.Files.Fault
import TagTemplate.Files.Path
import TagTemplate.Text.Utf8

/-!
# A tree of files

The files and directories below a working directory. Paths are followed part by
part: each part but the last has to be a directory, two dots lead to the
directory above. What lies outside of the working directory is not known, and
nothing is found there.
-/

namespace TagTemplate.Files

/-- What a path gives when it is read. -/
abbrev Reader := Text → Except Fault (List UInt8)

/-- The text that a path gives. -/
def Reader.text (read : Reader) (path : Text) : Except Fault Text :=
  match read path with
  | .error fault => .error fault
  | .ok bytes =>
    match Text.ofBytes? bytes with
    | some t => .ok t
    | none => .error .notUtf8

/-- Whether a path leads to a file. -/
def Reader.isFile (read : Reader) (path : Text) : Bool :=
  match read path with
  | .ok _ => true
  | .error _ => false

/-- A file with its bytes, or a directory. -/
inductive Entry where
  | file (bytes : List UInt8)
  | directory
  deriving DecidableEq, Repr

/-- Entries by their parts below the working directory. -/
structure Tree where
  entries : List (List Text × Entry)
  deriving DecidableEq, Repr

namespace Tree

/-- An empty working directory. -/
def empty : Tree := ⟨[]⟩

/-- The entry at some parts. -/
def find? (t : Tree) (parts : List Text) : Option Entry :=
  if parts.isEmpty then some .directory else Bindings.lookup parts t.entries

/-- The tree with an entry at some parts. -/
def set (t : Tree) (parts : List Text) (e : Entry) : Tree := ⟨Bindings.put parts e t.entries⟩

/-- Where following a path has led: to some parts below the working directory, or out of it. -/
inductive Place where
  | inside (parts : List Text)
  | outside
  deriving DecidableEq, Repr

/-- What there is at a place. -/
def atPlace (t : Tree) : Place → Option Entry
  | .inside parts => t.find? parts
  | .outside => some .directory

/-- The place that a part of a path leads to. -/
def step (t : Tree) (place : Place) (part : Text) : Except Fault Place :=
  match t.atPlace place with
  | none => .error .missing
  | some (.file _) => .error .notDirectory
  | some .directory =>
    if !leads part then .ok place
    else
      match place with
      | .outside => if part = "..".toList then .ok .outside else .error .missing
      | .inside parts =>
        if part = "..".toList then
          .ok (if parts.isEmpty then .outside else .inside parts.dropLast)
        else if (t.find? (parts ++ [part])).isSome then .ok (.inside (parts ++ [part]))
        else .error .missing

/-- The place that some parts lead to. -/
def walk (t : Tree) (place : Place) : List Text → Except Fault Place
  | [] => .ok place
  | part :: parts =>
    match t.step place part with
    | .error fault => .error fault
    | .ok place => walk t place parts

/-- Where a path starts. -/
def origin (path : Text) : Place := if isAbsolute path then .outside else .inside []

/-- The bytes of the file that a path leads to. -/
def read (t : Tree) : Reader := fun path =>
  if path.isEmpty then .error .missing
  else
    match t.walk (origin path) (Text.pieces '/' path) with
    | .error fault => .error fault
    | .ok place =>
      match t.atPlace place with
      | some (.file bytes) => .ok bytes
      | some .directory => .error .isDirectory
      | none => .error .missing

/-- The parts of the file that a path names in a directory that there is. The file may not exist,
but a directory is no file. -/
def target (t : Tree) (path : Text) : Except Fault (List Text) :=
  let parts := Text.pieces '/' path
  let named := (parts.reverse.dropWhile List.isEmpty).reverse
  match named.getLast? with
  | none => .error (if path.isEmpty then .missing else .isDirectory)
  | some last =>
    match t.walk (origin path) named.dropLast with
    | .error fault => .error fault
    | .ok place =>
      match t.atPlace place, place with
      | some (.file _), _ => .error .notDirectory
      | none, _ => .error .missing
      | some .directory, .outside => .error .missing
      | some .directory, .inside directory =>
        if last = ['.'] || last = "..".toList || named.length < parts.length then
          .error .isDirectory
        else
          match t.find? (directory ++ [last]) with
          | some .directory => .error .isDirectory
          | _ => .ok (directory ++ [last])

/-- The tree after a file is written, and the fault if it could not be. -/
def write (t : Tree) (path : Text) (bytes : List UInt8) : Except Fault Unit × Tree :=
  match t.target path with
  | .error fault => (.error fault, t)
  | .ok parts => (.ok (), t.set parts (.file bytes))

/-- The parts of a path below the working directory, without those that lead nowhere. -/
def normal (path : Text) : List Text :=
  (Text.pieces '/' path).foldl (fun parts part =>
    if !leads part then parts
    else if part = "..".toList then parts.dropLast
    else parts ++ [part]) []

/-- The tree with an entry at a path and with the directories on its way. -/
def place (t : Tree) (path : Text) (e : Entry) : Tree :=
  let parts := normal path
  let t := (List.range parts.length).foldl (fun t n =>
    if n = 0 || (t.find? (parts.take n)).isSome then t else t.set (parts.take n) .directory) t
  if parts.isEmpty || (e = .directory && (t.find? parts).isSome) then t else t.set parts e

/-- The tree without what is at a path. -/
def remove (t : Tree) (path : Text) : Tree :=
  let parts := normal path
  ⟨t.entries.filter fun (p, _) => !parts.isPrefixOf p⟩

end Tree

end TagTemplate.Files
