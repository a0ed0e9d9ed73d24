import TagTemplate.Json.Number

/-!
# JSON tokens

The words of JSON text. Text in quotes may hold any character but control
characters, quotes and backslashes; the others are written with a backslash,
characters beyond the first plane as two escapes that belong together.
-/

namespace TagTemplate.Json

/-- A word of JSON text. -/
inductive Token where
  | openArray
  | closeArray
  | openObject
  | closeObject
  | comma
  | colon
  | null
  | bool (b : Bool)
  | number (n : Number)
  | text (t : Text)
  deriving DecidableEq, Repr

/-- The character that one letter stands for behind a backslash. -/
def shortEscape? : Char → Option Char
  | '"' => some '"'
  | '\\' => some '\\'
  | '/' => some '/'
  | 'b' => some '\x08'
  | 'f' => some '\x0c'
  | 'n' => some '\n'
  | 'r' => some '\r'
  | 't' => some '\t'
  | _ => none

/-- The character of two escapes that belong together, of a first and a second half. -/
def paired? (high low : Nat) : Option Char :=
  if 0xDC00 ≤ low ∧ low < 0xE000 then
    some (Char.ofNat (0x10000 + (high - 0xD800) * 0x400 + (low - 0xDC00)))
  else none

/-- The characters up to the closing quote, and the rest. -/
def quoted? : Text → Option (Text × Text)
  | [] => none
  | '"' :: t => some ([], t)
  | '\\' :: 'u' :: a :: b :: c :: d :: t => do
    let n ← Text.hexNumber? 0 [a, b, c, d]
    if 0xD800 ≤ n ∧ n < 0xDC00 then
      match t with
      | '\\' :: 'u' :: a :: b :: c :: d :: t =>
        let low ← Text.hexNumber? 0 [a, b, c, d]
        let ch ← paired? n low
        (quoted? t).map fun (cs, rest) => (ch :: cs, rest)
      | _ => none
    else if 0xDC00 ≤ n ∧ n < 0xE000 then none
    else (quoted? t).map fun (cs, rest) => (Char.ofNat n :: cs, rest)
  | '\\' :: c :: t => do
    let ch ← shortEscape? c
    (quoted? t).map fun (cs, rest) => (ch :: cs, rest)
  | c :: t =>
    if c = '\\' || c.toNat < 0x20 then none
    else (quoted? t).map fun (cs, rest) => (c :: cs, rest)

/-- A blank of JSON text. -/
def isBlank (c : Char) : Bool := c = ' ' || c = '\t' || c = '\n' || c = '\r'

/-- The token at the start of a text that does not start with a blank, and the rest. -/
def token? (t : Text) : Option (Token × Text) :=
  match t with
  | '[' :: t => some (.openArray, t)
  | ']' :: t => some (.closeArray, t)
  | '{' :: t => some (.openObject, t)
  | '}' :: t => some (.closeObject, t)
  | ',' :: t => some (.comma, t)
  | ':' :: t => some (.colon, t)
  | '"' :: t => (quoted? t).map fun (cs, rest) => (.text cs, rest)
  | 'n' :: 'u' :: 'l' :: 'l' :: t => some (.null, t)
  | 't' :: 'r' :: 'u' :: 'e' :: t => some (.bool true, t)
  | 'f' :: 'a' :: 'l' :: 's' :: 'e' :: t => some (.bool false, t)
  | t => do
    let (l, rest) ← literal? t
    let n ← l.number?
    pure (.number n, rest)

/-- The tokens of a text, at most `limit` of them. -/
def tokensWithin : (limit : Nat) → Text → Option (List Token)
  | 0, _ => none
  | limit + 1, t =>
    match t.dropWhile isBlank with
    | [] => some []
    | t => do
      let (token, rest) ← token? t
      let tokens ← tokensWithin limit rest
      pure (token :: tokens)

/-- The tokens of a text. Each of them takes up a character. -/
def tokens (t : Text) : Option (List Token) := tokensWithin (t.length + 1) t

end TagTemplate.Json
