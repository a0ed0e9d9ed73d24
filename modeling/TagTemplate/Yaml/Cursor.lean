import TagTemplate.Text.Digit

/-!
# A place in YAML text

Where reading has come to: the text that is left, and the byte, the line and
the column of its first character, all counted from zero. Five characters break
lines; a carriage return and a line feed behind it break one line.
-/

namespace TagTemplate.Yaml

/-- Characters that break a line. -/
def isBreak (c : Char) : Bool :=
  c = '\n' || c = '\r' || c = '\u0085' || c = '\u2028' || c = '\u2029'

/-- The character that may stand before a text to tell how it is encoded. -/
def byteOrderMark : Char := '\uFEFF'

/-- A blank within a line. -/
def isBlank (c : Char) : Bool := c = ' ' || c = '\t'

/-- Characters of anchors and of the handles of tags. -/
def isWord (c : Char) : Bool := c.isAlphanum || c = '_' || c = '-'

/-- Characters that YAML text may hold. -/
def isPrintable (c : Char) : Bool :=
  let n := c.toNat
  n = 0x09 || n = 0x0A || n = 0x0D || (0x20 ≤ n && n ≤ 0x7E) || n = 0x85 ||
    (0xA0 ≤ n && n ≤ 0xFFFD) || 0x10000 ≤ n

/-- Whether a text is at its end, at a blank or at a line break. -/
def atGap : Text → Bool
  | [] => true
  | c :: _ => isBlank c || isBreak c

/-- Whether a text is at its end or at a line break. -/
def atLineEnd : Text → Bool
  | [] => true
  | c :: _ => isBreak c

/-- Where reading has come to. -/
structure Cursor where
  rest : Text
  index : Nat
  line : Nat
  column : Nat
  deriving DecidableEq, Repr

namespace Cursor

/-- The start of a text. -/
def start (t : Text) : Cursor := ⟨t, 0, 0, 0⟩

/-- One character further. -/
def next (c : Cursor) : Cursor :=
  match c.rest with
  | [] => c
  | ch :: t =>
    if isBreak ch && !(ch = '\r' && t.head? = some '\n') then
      ⟨t, c.index + ch.utf8Size, c.line + 1, 0⟩
    else ⟨t, c.index + ch.utf8Size, c.line, c.column + 1⟩

/-- Some characters further. -/
def advance : Nat → Cursor → Cursor
  | 0, c => c
  | n + 1, c => advance n c.next

/-- Up to the end of the line. -/
def toLineEnd (c : Cursor) : Cursor := c.advance (c.rest.takeWhile (!isBreak ·)).length

/-- Over the line break at the cursor. -/
def overBreak (c : Cursor) : Cursor :=
  match c.rest with
  | '\r' :: '\n' :: _ => c.advance 2
  | _ => c.next

/-- Whether a mark of three characters stands alone at the start of a line. -/
def atMark (mark : Text) (c : Cursor) : Bool :=
  c.column = 0 &&
    match mark.isPrefixOf? c.rest with
    | some rest => atGap rest
    | none => false

/-- Whether a document starts or ends at the cursor. -/
def atDocumentMark (c : Cursor) : Bool := c.atMark "---".toList || c.atMark "...".toList

end Cursor

/-- A line break as it counts in text, from its first character. -/
def breakText (c : Char) : Text := if c = '\u2028' || c = '\u2029' then [c] else ['\n']

end TagTemplate.Yaml
