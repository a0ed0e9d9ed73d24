import TagTemplate.Yaml.Scalar
import TagTemplate.Yaml.Token

/-!
# The tokens of YAML text

A token is found at the cursor, once blanks, comments and line breaks are
skipped. What stands there may turn out to be the key of a mapping only when a
colon follows it on the same line; until then its place among the tokens is
kept as a candidate, at most one for each level of brackets and braces. Outside
of brackets the column of a token opens and closes blocks.
-/

namespace TagTemplate.Yaml

/-- A place among the tokens where a key may begin. A required one has to turn out to be one. -/
structure Candidate where
  required : Bool
  number : Nat
  place : Cursor
  deriving DecidableEq, Repr

/-- The longest distance in bytes between the start of a key and its colon. -/
def keyReach : Nat := 1024

/-- The tokens found so far, latest first, and what the next depends on. There is one candidate for
the blocks and one for each pair of brackets or braces that is open, innermost first. -/
structure Lexer where
  here : Cursor
  tokens : List Token
  indent : Int
  outer : List Int
  candidates : List (Option Candidate)
  keyAllowed : Bool
  deriving DecidableEq, Repr

namespace Lexer

/-- Nothing found. -/
def start (t : Text) : Lexer := ⟨.start t, [], -1, [], [none], true⟩

/-- Whether brackets or braces are open. -/
def inFlow (s : Lexer) : Bool := 1 < s.candidates.length

/-- One token more. -/
def emit (token : Token) (s : Lexer) : Lexer := { s with tokens := token :: s.tokens }

/-- One token more at a place among the tokens. -/
def emitAt (number : Nat) (token : Token) (s : Lexer) : Lexer :=
  let later := s.tokens.length - number
  { s with tokens := s.tokens.take later ++ token :: s.tokens.drop later }

/-- Further on in the text. -/
def skip (n : Nat) (s : Lexer) : Lexer := { s with here := s.here.advance n }

/-- Whether a key may begin next. -/
def allowKey (allowed : Bool) (s : Lexer) : Lexer := { s with keyAllowed := allowed }

/-- Opens a block at a column, if that is further right than the block around it. -/
def indentTo (column : Nat) (number : Nat) (token : Token) (s : Lexer) : Lexer :=
  if s.inFlow || column ≤ s.indent then s
  else { s.emitAt number token with indent := column, outer := s.indent :: s.outer }

/-- Closes the blocks that stand further right than a column. -/
def closeBlocks (column : Int) (s : Lexer) : Lexer :=
  if s.inFlow then s
  else
    let closed := (s.indent :: s.outer).takeWhile fun indent => column < indent
    let left := (s.indent :: s.outer).drop closed.length
    { s with
      tokens := List.replicate closed.length .blockEnd ++ s.tokens
      indent := left.headD (-1)
      outer := left.tail }

/-- Gives up the candidate of the innermost level. None if it was required. -/
def dropCandidate (s : Lexer) : Option Lexer :=
  match s.candidates with
  | some c :: rest => if c.required then none else some { s with candidates := none :: rest }
  | _ => some s

/-- Makes what follows a candidate, if a key is allowed here. -/
def keepCandidate (s : Lexer) : Option Lexer :=
  if s.keyAllowed then
    let required := !s.inFlow && s.indent = s.here.column
    s.dropCandidate.map fun s =>
      { s with candidates := some ⟨required, s.tokens.length, s.here⟩ :: s.candidates.tail }
  else some s

/-- Gives up the candidates that are on an earlier line or too far back. -/
def dropStale (s : Lexer) : Option Lexer :=
  (s.candidates.mapM fun (candidate : Option Candidate) =>
    match candidate with
    | none => some none
    | some c =>
      if c.place.line < s.here.line || c.place.index + keyReach < s.here.index then
        if c.required then none else some none
      else some (some c)).map fun candidates => { s with candidates }

/-- Over blanks, comments and line breaks. A tabulator is no blank where a key may begin, and a byte
order mark counts as one at the start of a line. -/
def skipGap : (limit : Nat) → Lexer → Lexer
  | 0, s => s
  | limit + 1, s =>
    let isSpace (c : Char) : Bool := c = ' ' || (c = '\t' && (s.inFlow || !s.keyAllowed))
    let marked := s.here.column = 0 && s.here.rest.head? = some byteOrderMark
    let here := if marked then s.here.next else s.here
    let here := here.advance (here.rest.takeWhile isSpace).length
    let here := if here.rest.head? = some '#' then here.toLineEnd else here
    match here.rest with
    | c :: _ =>
      if isBreak c then
        skipGap limit { s with here := here.overBreak, keyAllowed := s.keyAllowed || !s.inFlow }
      else { s with here }
    | [] => { s with here }

/-! ## Marks of structure -/

/-- The mark of an item of a block. -/
def blockEntry (s : Lexer) : Option Lexer :=
  if s.inFlow then s.dropCandidate.map fun s => ((s.allowKey true).emit .entry).skip 1
  else if !s.keyAllowed then none
  else
    let s := s.indentTo s.here.column s.tokens.length .sequenceStart
    s.dropCandidate.map fun s => ((s.allowKey true).emit .entry).skip 1

/-- The mark of a key. -/
def keyMark (s : Lexer) : Option Lexer :=
  if !s.inFlow && !s.keyAllowed then none
  else
    let s := s.indentTo s.here.column s.tokens.length .mappingStart
    s.dropCandidate.map fun s => ((s.allowKey (!s.inFlow)).emit .key).skip 1

/-- The mark of a value, which makes the candidate a key if there is one. -/
def valueMark (s : Lexer) : Option Lexer :=
  match s.candidates with
  | some c :: rest =>
    let s := s.emitAt c.number .key
    let s := s.indentTo c.place.column c.number .mappingStart
    some ((({ s with candidates := none :: rest }.allowKey false).emit .value).skip 1)
  | _ =>
    if !s.inFlow && !s.keyAllowed then none
    else
      let s := s.indentTo s.here.column s.tokens.length .mappingStart
      some (((s.allowKey (!s.inFlow)).emit .value).skip 1)

/-- An opening bracket or brace. -/
def openFlow (token : Token) (s : Lexer) : Option Lexer :=
  s.keepCandidate.map fun s =>
    ((({ s with candidates := none :: s.candidates }).allowKey true).emit token).skip 1

/-- A closing bracket or brace. -/
def closeFlow (token : Token) (s : Lexer) : Option Lexer :=
  s.dropCandidate.map fun s =>
    let candidates := if s.inFlow then s.candidates.tail else s.candidates
    ((({ s with candidates }).allowKey false).emit token).skip 1

/-- A comma. -/
def comma (s : Lexer) : Option Lexer :=
  s.dropCandidate.map fun s => ((s.allowKey true).emit .comma).skip 1

/-- The mark at the start or the end of a document. -/
def documentMark (token : Token) (s : Lexer) : Option Lexer :=
  (s.closeBlocks (-1)).dropCandidate.map fun s => ((s.allowKey false).emit token).skip 3

/-! ## Names, tags and directives -/

/-- Characters that may stand directly behind the name of an anchor or an alias. -/
def nameEnds : List Char := ['?', ':', ',', ']', '\x7d', '%', '@', '\x60']

/-- The name of an anchor or an alias. -/
def name (make : Text → Token) (s : Lexer) : Option Lexer := do
  let s ← s.keepCandidate
  let name := s.here.rest.tail.takeWhile isWord
  let rest := s.here.rest.drop (name.length + 1)
  if name.isEmpty || !(atGap rest || rest.head?.any nameEnds.contains) then none
  else some (((s.allowKey false).emit (make name)).skip (name.length + 1))

/-- A tag. -/
def tag (s : Lexer) : Option Lexer := do
  let s ← s.keepCandidate
  let (name, rest) ← TagName.read? s.here.rest
  if atGap rest || (s.inFlow && rest.head? = some ',') then
    some (((s.allowKey false).emit (.tag name)).skip (s.here.rest.length - rest.length))
  else none

/-- A directive and the end of its line, so that the next line does not allow a key. -/
def directive (s : Lexer) : Option Lexer := do
  let s ← (s.closeBlocks (-1)).dropCandidate
  let d ← Directive.read? (s.here.rest.tail.takeWhile (!isBreak ·))
  some ({ s with here := s.here.toLineEnd.overBreak, keyAllowed := false }.emit (.directive d))

/-! ## Text -/

/-- A block of text. -/
def block (literal : Bool) (s : Lexer) : Option Lexer := do
  let s ← s.dropCandidate
  let (t, here) ← block? literal s.indent s.here
  some ({ s with here, keyAllowed := true }.emit (.scalar false t))

/-- Text in quotes. -/
def quoted (single : Bool) (s : Lexer) : Option Lexer := do
  let s ← s.keepCandidate
  let (t, here) ← quoted? single s.here
  some ({ s with here, keyAllowed := false }.emit (.scalar false t))

/-- Plain text. A line break behind it allows a key. -/
def plain (s : Lexer) : Option Lexer := do
  let s ← s.keepCandidate
  let (t, here, broken) ← plain? s.inFlow (s.indent + 1) s.here
  some ({ s with here, keyAllowed := broken }.emit (.scalar true t))

/-- The next token, at a cursor that is not at the end of the text. -/
def token (s : Lexer) (c : Char) (t : Text) : Option Lexer :=
  let before := atGap t
  if s.here.column = 0 && c = '%' then s.directive
  else if s.here.atMark "---".toList then s.documentMark .documentStart
  else if s.here.atMark "...".toList then s.documentMark .documentEnd
  else
    match c with
    | '[' => s.openFlow .openSequence
    | '{' => s.openFlow .openMapping
    | ']' => s.closeFlow .closeSequence
    | '}' => s.closeFlow .closeMapping
    | ',' => s.comma
    | '-' => if before then s.blockEntry else s.plain
    | '?' => if s.inFlow || before then s.keyMark else s.plain
    | ':' => if s.inFlow || before then s.valueMark else s.plain
    | '*' => s.name .reference
    | '&' => s.name .anchor
    | '!' => s.tag
    | '|' => if s.inFlow then none else s.block true
    | '>' => if s.inFlow then none else s.block false
    | '\'' => s.quoted true
    | '"' => s.quoted false
    | '#' => none
    | '%' => none
    | '@' => none
    | '\x60' => none
    | '\t' => none
    | _ => s.plain

/-- The tokens up to the end of the text, at most `limit` steps further. Each takes a character, so
a limit above the number of characters suffices, also for the line breaks of a gap. -/
def run : (limit : Nat) → Lexer → Option (List Token)
  | 0, _ => none
  | limit + 1, s => do
    let s := s.skipGap (limit + 1)
    let s ← s.dropStale
    match s.here.rest with
    | [] => do
      let s ← (s.closeBlocks (-1)).dropCandidate
      pure s.tokens.reverse
    | c :: t => do
      let s ← (s.closeBlocks s.here.column).token c t
      run limit s

end Lexer

/-- The tokens of a text. -/
def tokens? (t : Text) : Option (List Token) :=
  if t.all fun c => isPrintable c then (Lexer.start t).run (t.length + 1) else none

end TagTemplate.Yaml
