import TagTemplate.Text.Digit

/-!
# Quoted text in TOML

Text in double quotes has escapes, text in single quotes has none. Three quotes
open text of several lines, of which a line break directly behind the quotes is
no part; one or two quotes may stand inside, also directly before the three
that close it. In double quotes a backslash at the end of a line takes the line
break and the blanks after it away.
-/

namespace TagTemplate.Toml

/-- Characters of quoted text: no control characters but the tabulator. -/
def isQuotable (c : Char) : Bool := c = '\t' || (0x20 ≤ c.toNat && c.toNat ≠ 0x7F)

/-- A blank within a line. -/
def isBlank (c : Char) : Bool := c = ' ' || c = '\t'

/-- The text without the blanks at its start. -/
def skipBlanks (t : Text) : Text := t.dropWhile isBlank

/-- The text after a line break at its start. -/
def lineBreak? : Text → Option Text
  | '\n' :: t => some t
  | '\r' :: '\n' :: t => some t
  | _ => none

/-- The character that one letter stands for behind a backslash. -/
def escape? : Char → Option Char
  | 'b' => some '\x08'
  | 't' => some '\t'
  | 'n' => some '\n'
  | 'f' => some '\x0c'
  | 'r' => some '\r'
  | '"' => some '"'
  | '\\' => some '\\'
  | _ => none

/-- The character of a code point in hexadecimal digits. -/
def codePoint? (ds : Text) : Option Char := do
  let n ← Text.hexNumber? 0 ds
  if n < 0xD800 ∨ 0xE000 ≤ n ∧ n < 0x110000 then some (Char.ofNat n) else none

/-- What is read is put before what follows. -/
def before (c : Char) : Option (Text × Text) → Option (Text × Text) :=
  Option.map fun (cs, rest) => (c :: cs, rest)

/-- The characters up to the closing double quote, and the rest. -/
def basic? : Text → Option (Text × Text)
  | [] => none
  | '"' :: t => some ([], t)
  | '\\' :: 'u' :: a :: b :: c :: d :: t => do
    let ch ← codePoint? [a, b, c, d]
    before ch (basic? t)
  | '\\' :: 'U' :: a :: b :: c :: d :: e :: f :: g :: h :: t => do
    let ch ← codePoint? [a, b, c, d, e, f, g, h]
    before ch (basic? t)
  | '\\' :: c :: t => do
    let ch ← escape? c
    before ch (basic? t)
  | c :: t => if c ≠ '\\' && isQuotable c then before c (basic? t) else none

/-- The characters up to the closing single quote, and the rest. -/
def literal? : Text → Option (Text × Text)
  | [] => none
  | '\'' :: t => some ([], t)
  | c :: t => if isQuotable c then before c (literal? t) else none

/-- The end of text of several lines at a run of at least three quotes, `t` being what follows the
first of them: the quotes that are part of the text, and the rest. -/
def closing (quote : Char) (t : Text) : Text × Text :=
  let more := (t.takeWhile (· = quote)).length
  let inside := min (more - 2) 2
  (List.replicate inside quote, t.drop (inside + 2))

/-- Whether a quote and what follows it close text of several lines. -/
def closes (quote : Char) (t : Text) : Bool := 2 ≤ (t.takeWhile (· = quote)).length

/-- The characters up to three closing double quotes, and the rest. With `skip`, blanks and line
breaks at the start are left out. -/
def basicLines? (skip : Bool) : Text → Option (Text × Text)
  | [] => none
  | '"' :: t => if closes '"' t then some (closing '"' t) else before '"' (basicLines? false t)
  | '\n' :: t => if skip then basicLines? true t else before '\n' (basicLines? false t)
  | '\r' :: '\n' :: t => if skip then basicLines? true t else before '\n' (basicLines? false t)
  | '\\' :: 'u' :: a :: b :: c :: d :: t => do
    let ch ← codePoint? [a, b, c, d]
    before ch (basicLines? false t)
  | '\\' :: 'U' :: a :: b :: c :: d :: e :: f :: g :: h :: t => do
    let ch ← codePoint? [a, b, c, d, e, f, g, h]
    before ch (basicLines? false t)
  | '\\' :: c :: t =>
    match escape? c with
    | some ch => before ch (basicLines? false t)
    | none =>
      if c = '\n' then basicLines? true t
      else if c = '\r' then
        match t with
        | '\n' :: t => basicLines? true t
        | _ => none
      else if isBlank c && (lineBreak? (skipBlanks t)).isSome then basicLines? true t
      else none
  | c :: t =>
    if skip && isBlank c then basicLines? true t
    else if c ≠ '\\' && isQuotable c then before c (basicLines? false t)
    else none

/-- The characters up to three closing single quotes, and the rest. -/
def literalLines? : Text → Option (Text × Text)
  | [] => none
  | '\'' :: t => if closes '\'' t then some (closing '\'' t) else before '\'' (literalLines? t)
  | '\n' :: t => before '\n' (literalLines? t)
  | '\r' :: '\n' :: t => before '\n' (literalLines? t)
  | c :: t => if isQuotable c then before c (literalLines? t) else none

/-- The text without a line break at its start. -/
def skipLineBreak (t : Text) : Text := (lineBreak? t).getD t

/-- Quoted text at the start of a text, and the rest. -/
def quoted? : Text → Option (Text × Text)
  | '"' :: '"' :: '"' :: t => basicLines? false (skipLineBreak t)
  | '\'' :: '\'' :: '\'' :: t => literalLines? (skipLineBreak t)
  | '"' :: t => basic? t
  | '\'' :: t => literal? t
  | _ => none

end TagTemplate.Toml
