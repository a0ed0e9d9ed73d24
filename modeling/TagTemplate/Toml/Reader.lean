import TagTemplate.Text.Search
import TagTemplate.Toml.Number
import TagTemplate.Toml.Quoted

/-!
# Reading TOML

A document is a list of statements, one a line: pairs and the headers of tables
and of series of tables. Values may be nested less deep than `depthLimit`, and
a key has fewer parts than that.
-/

namespace TagTemplate.Toml

/-- The bound on the nesting of values and on the parts of a key. -/
def depthLimit : Nat := 80

/-- Characters of a key without quotes. -/
def isBare (c : Char) : Bool := c.isAlphanum || c = '_' || c = '-'

/-- One part of a key, and the rest. -/
def keyPart? (t : Text) : Option (Text × Text) :=
  match t with
  | '"' :: t => basic? t
  | '\'' :: t => literal? t
  | t =>
    let name := t.takeWhile isBare
    if name.isEmpty then none else some (name, t.dropWhile isBare)

/-- The parts of a key, at most `limit` of them, and the rest behind the blanks that follow. -/
def keyParts? : (limit : Nat) → Text → Option (List Text × Text)
  | 0, _ => none
  | limit + 1, t => do
    let (part, t) ← keyPart? (skipBlanks t)
    match skipBlanks t with
    | '.' :: t => do
      let (parts, t) ← keyParts? limit t
      pure (part :: parts, t)
    | t => pure ([part], t)

/-- A key as the parts before the last and the last, and the rest. -/
def key? (t : Text) : Option (List Text × Text × Text) := do
  let (parts, t) ← keyParts? (depthLimit - 1) t
  let last ← parts.getLast?
  pure (parts.dropLast, last, t)

/-- What follows a comment up to the end of its line. None if the comment holds a control
character. -/
def comment? : Text → Option Text
  | [] => some []
  | c :: t =>
    if (lineBreak? (c :: t)).isSome then some (c :: t)
    else if isQuotable c then comment? t
    else none

/-- The rest behind the end of a line, which may have a comment. -/
def lineEnd? (t : Text) : Option Text := do
  let t ←
    match skipBlanks t with
    | '#' :: t => comment? t
    | t => some t
  match t with
  | [] => pure []
  | t => lineBreak? t

/-- The rest behind blanks, line breaks and comments, at most `limit` of them. -/
def skipSpace? : (limit : Nat) → Text → Option Text
  | 0, _ => none
  | limit + 1, t =>
    match t with
    | '#' :: t => (comment? t).bind (skipSpace? limit)
    | c :: t =>
      if isBlank c then skipSpace? limit t
      else
        match lineBreak? (c :: t) with
        | some t => skipSpace? limit t
        | none => some (c :: t)
    | [] => some []

/-- The rest behind blanks, line breaks and comments. -/
def skipAll? (t : Text) : Option Text := skipSpace? (t.length + 1) t

mutual

/-- A value and the rest. `room` bounds the nesting, and `limit` the number of steps. -/
def value? (limit room : Nat) (t : Text) : Option (Toml × Text) :=
  match limit with
  | 0 => none
  | limit + 1 =>
    match t with
    | '[' :: t =>
      if room = 0 then none
      else do
        let (items, t) ← items? limit (room - 1) t
        pure (.array items, t)
    | '{' :: t =>
      if room = 0 then none
      else
        match skipBlanks t with
        | '}' :: t => some (.table [], t)
        | t => do
          let (pairs, t) ← pairs? limit (room - 1) t
          let members ← fill pairs []
          pure (.table (membersToToml members), t)
    | 't' :: 'r' :: 'u' :: 'e' :: t => some (.bool true, t)
    | 'f' :: 'a' :: 'l' :: 's' :: 'e' :: t => some (.bool false, t)
    | c :: _ =>
      if c = '"' || c = '\'' then (quoted? t).map fun (s, rest) => (.text s, rest)
      else number? t
    | [] => none

/-- The items of an array up to its end, and the rest. -/
def items? (limit room : Nat) (t : Text) : Option (List Toml × Text) :=
  match limit with
  | 0 => none
  | limit + 1 => do
    match ← skipAll? t with
    | ']' :: t => pure ([], t)
    | t => do
      let (v, t) ← value? limit room t
      match ← skipAll? t with
      | ',' :: t => do
        let (vs, t) ← items? limit room t
        pure (v :: vs, t)
      | ']' :: t => pure ([v], t)
      | _ => none

/-- The pairs of an inline table up to its end, at least one of them, and the rest. -/
def pairs? (limit room : Nat) (t : Text) : Option (List Pair × Text) :=
  match limit with
  | 0 => none
  | limit + 1 => do
    let (path, key, t) ← key? t
    match t with
    | '=' :: t => do
      let (v, t) ← value? limit room (skipBlanks t)
      match skipBlanks t with
      | ',' :: t => do
        let (ps, t) ← pairs? limit room t
        pure (⟨path, key, v⟩ :: ps, t)
      | '}' :: t => pure ([⟨path, key, v⟩], t)
      | _ => none
    | _ => none

end

/-- A statement and the rest behind its line. -/
def statement? (t : Text) : Option (Statement × Text) :=
  match t with
  | '[' :: '[' :: t => do
    let (path, key, t) ← key? t
    match t with
    | ']' :: ']' :: t => do
      let t ← lineEnd? t
      pure (.series path key, t)
    | _ => none
  | '[' :: t => do
    let (path, key, t) ← key? t
    match t with
    | ']' :: t => do
      let t ← lineEnd? t
      pure (.table path key, t)
    | _ => none
  | t => do
    let (path, key, t) ← key? t
    match t with
    | '=' :: t => do
      let (v, t) ← value? (2 * t.length + 1) (depthLimit - 1) (skipBlanks t)
      let t ← lineEnd? t
      pure (.pair ⟨path, key, v⟩, t)
    | _ => none

/-- The statements of a text, in at most `limit` steps. -/
def statements? : (limit : Nat) → Text → Option (List Statement)
  | 0, _ => none
  | limit + 1, t => do
    match ← skipAll? t with
    | [] => pure []
    | t => do
      let (s, t) ← statement? t
      let ss ← statements? limit t
      pure (s :: ss)

/-- The members of the document that a text is. A byte order mark before it is left out. -/
def read? (t : Text) : Option (List (Text × Toml)) :=
  let t :=
    match t with
    | '\uFEFF' :: t => t
    | t => t
  (statements? (t.length + 1) t).bind ofStatements?

end TagTemplate.Toml
