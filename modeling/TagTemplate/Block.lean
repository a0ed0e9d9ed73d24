import TagTemplate.Error
import TagTemplate.Tag.Lexer

/-!
# Blocks

A block is what stands between an opening and a closing tag of one family,
conditionals or loops; a conditional may be divided by an else tag. Only the
outermost blocks of a family are given, those inside them are part of their
bodies.

The tags of one family are read as a word of marks. One scan over it keeps the
blocks that are still open, innermost first. If some are left open at its end,
the outermost of them is a defect: under the strict policy an error, else its
opener is set aside and the scan is made again. Each repeated scan has one
opener less, so `Block.find` allows one scan more than there are openers.
-/

namespace TagTemplate

/-- A block: its key, the bytes it takes up, those of its body and those of the part after its
else tag. -/
structure Block where
  key : Text
  span : Span
  body : Span
  alternative : Option Span
  deriving DecidableEq, Repr

namespace Block

/-- What a tag means for the blocks of one family. -/
inductive Role where
  | opens (key : Text)
  | divides
  | closes
  | malformed (fault : Fault)
  deriving DecidableEq, Repr

/-- A tag of one family in its role. -/
structure Mark where
  role : Role
  span : Span
  deriving DecidableEq, Repr

/-- The role of a tag for a family, if it has one. -/
def role? : Family → Tag.Kind → Option Role
  | .conditional, .ifOpen key => some (.opens key)
  | .conditional, .ifElse => some .divides
  | .conditional, .ifClose => some .closes
  | .conditional, .malformed .condition fault => some (.malformed fault)
  | .loop, .loopOpen key => some (.opens key)
  | .loop, .loopClose => some .closes
  | .loop, .malformed .loop fault => some (.malformed fault)
  | _, _ => none

/-- The marks of a family among some tags, in order. -/
def marks (family : Family) (tags : List Tag) : List Mark :=
  tags.filterMap fun tag => (role? family tag.kind).map fun role => ⟨role, tag.span⟩

/-- Whether a mark opens a block. -/
def Mark.isOpener (m : Mark) : Bool :=
  match m.role with
  | .opens _ => true
  | _ => false

/-- A block whose closing tag has not been met. -/
structure Pending where
  key : Text
  opener : Span
  divider : Option Span
  deriving DecidableEq, Repr

/-- The block that a closing tag completes. -/
def Pending.close (p : Pending) (closer : Span) : Block :=
  let span : Span := ⟨p.opener.start, closer.stop⟩
  match p.divider with
  | none => ⟨p.key, span, ⟨p.opener.stop, closer.start⟩, none⟩
  | some divider =>
    ⟨p.key, span, ⟨p.opener.stop, divider.start⟩, some ⟨divider.stop, closer.start⟩⟩

/-- The state of a scan: the open blocks, innermost first, and the outermost ones completed. -/
structure Progress where
  pending : List Pending
  done : List Block
  deriving DecidableEq, Repr

/-- A scan that has met no mark. -/
def Progress.start : Progress := ⟨[], []⟩

/-- One mark further. A mark that fits nowhere is reported and skipped. -/
def Progress.step (family : Family) (policy : Policy) (text : Text) (s : Progress) (m : Mark) :
    Except Error Progress :=
  let skip (defect : Defect) : Except Error Progress :=
    (report policy text m.span.start defect).map fun _ => s
  match m.role, s.pending with
  | .opens key, open_ => .ok { s with pending := ⟨key, m.span, none⟩ :: open_ }
  | .divides, [] => skip .strayElse
  | .divides, top :: rest =>
    match top.divider with
    | none => .ok { s with pending := { top with divider := some m.span } :: rest }
    | some _ => skip .secondElse
  | .closes, [] => skip (.strayCloser family)
  | .closes, [top] => .ok ⟨[], s.done ++ [top.close m.span]⟩
  | .closes, _ :: rest => .ok { s with pending := rest }
  | .malformed fault, _ => skip (.badOpener family fault)

/-- A scan over some marks. -/
def Progress.run (family : Family) (policy : Policy) (text : Text) :
    Progress → List Mark → Except Error Progress
  | s, [] => .ok s
  | s, m :: ms =>
    match s.step family policy text m with
    | .error e => .error e
    | .ok s => s.run family policy text ms

/-- The blocks that at most `scans` scans find, or nothing if they are not enough. -/
def findWithin (family : Family) (policy : Policy) (text : Text) :
    (scans : Nat) → List Mark → Except Error (Option (List Block))
  | 0, _ => .ok none
  | scans + 1, ms =>
    match Progress.start.run family policy text ms with
    | .error e => .error e
    | .ok s =>
      match s.pending.getLast? with
      | none => .ok (some s.done)
      | some outermost =>
        match report policy text outermost.opener.start (.unterminated family) with
        | .error e => .error e
        | .ok () =>
          findWithin family policy text scans (ms.filter fun m => m.span ≠ outermost.opener)

/-- The outermost blocks of a family in a text, in order. -/
def find (family : Family) (policy : Policy) (text : Text) : Except Error (List Block) :=
  let ms := marks family (Tag.lex text)
  (findWithin family policy text (ms.countP Mark.isOpener + 1) ms).map fun found =>
    found.getD []

end Block

end TagTemplate
