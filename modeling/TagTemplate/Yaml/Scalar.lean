import TagTemplate.Yaml.Cursor

/-!
# Scalars in YAML text

Text stands in YAML plain, in quotes or as a block. Lines of plain and quoted
text are folded: a single line break between them becomes a space, of more
line breaks the first is left out. A block keeps its line breaks or folds them,
and its end is kept, clipped to one line break or stripped.
-/

namespace TagTemplate.Yaml

/-- The blanks and line breaks between two words: the blanks before the first break, the breaks,
and the number of characters. `tabbed` tells of a tabulator behind a break, further left than the
text may stand. -/
structure Gap where
  blanks : Text
  breaks : List Text
  length : Nat
  tabbed : Bool
  deriving DecidableEq, Repr

namespace Gap

/-- No gap. -/
def none : Gap := ⟨[], [], 0, false⟩

/-- A gap behind a line break. -/
def afterBreak (length : Nat) (t : Text) (g : Gap) : Gap :=
  ⟨[], t :: g.breaks, g.length + length, g.tabbed⟩

/-- A gap behind a blank. -/
def afterBlank (broken tab : Bool) (c : Char) (g : Gap) : Gap :=
  ⟨if broken then [] else c :: g.blanks, g.breaks, g.length + 1, g.tabbed || tab⟩

/-- The gap at the start of a text. `broken` tells whether a line break came before, `column` where
the text stands then, and `indent` how far to the right it has to stand. -/
def scan (indent : Int) (broken : Bool) (column : Nat) : Text → Gap
  | '\r' :: '\n' :: t => afterBreak 2 ['\n'] (scan indent true 0 t)
  | c :: t =>
    if isBlank c then
      afterBlank broken (broken && c = '\t' && (column : Int) < indent) c
        (scan indent broken (column + 1) t)
    else if isBreak c then afterBreak 1 (breakText c) (scan indent true 0 t)
    else .none
  | [] => .none

/-- What a gap between two words becomes. -/
def fold (g : Gap) : Text :=
  match g.breaks with
  | [] => g.blanks
  | [b] => if b = ['\n'] then [' '] else b
  | b :: more => if b = ['\n'] then more.flatten else b ++ more.flatten

end Gap

/-! ## Plain text -/

/-- Characters that end plain text within brackets and braces. -/
def isFlowMark (c : Char) : Bool := c = ',' || c = '[' || c = ']' || c = '{' || c = '}'

/-- The characters of plain text up to the next gap or the end of the text. Within brackets a colon
directly before a mark is refused. -/
def plainWord? (flow : Bool) : Text → Option Text
  | [] => some []
  | c :: t =>
    if isBlank c || isBreak c then some []
    else if flow && c = ':' && (t.head?.any fun d => isFlowMark d || d = '?') then none
    else if (c = ':' && atGap t) || (flow && isFlowMark c) then some []
    else (plainWord? flow t).map (c :: ·)

/-- Plain text from a cursor on, the cursor behind it, and whether a line break ended it. `gap` is
what stands before the next word. -/
def plainFrom (flow : Bool) (indent : Int) : (limit : Nat) → Gap → Cursor →
    Option (Text × Cursor × Bool)
  | 0, _, _ => none
  | limit + 1, gap, c =>
    let ended := (([], c, !gap.breaks.isEmpty) : Text × Cursor × Bool)
    if c.atDocumentMark || c.rest.head? = some '#' then some ended
    else do
      let word ← plainWord? flow c.rest
      let lead := if word.isEmpty then [] else gap.fold ++ word
      let open_ := if word.isEmpty then gap else Gap.none
      let c := c.advance word.length
      let g := Gap.scan indent (!open_.breaks.isEmpty) c.column c.rest
      if g.length = 0 then pure (lead, c, !open_.breaks.isEmpty)
      else if g.tabbed then none
      else
        let c := c.advance g.length
        if !flow && (c.column : Int) < indent then pure (lead, c, !g.breaks.isEmpty)
        else do
          let (more, c, broken) ← plainFrom flow indent limit g c
          pure (lead ++ more, c, broken)

/-- Plain text at a cursor, the cursor behind it, and whether a line break ended it. -/
def plain? (flow : Bool) (indent : Int) (c : Cursor) : Option (Text × Cursor × Bool) :=
  plainFrom flow indent (c.rest.length + 1) Gap.none c

/-! ## Quoted text -/

/-- The character that one letter stands for behind a backslash. -/
def escape? : Char → Option Char
  | '0' => some '\x00'
  | 'a' => some '\x07'
  | 'b' => some '\x08'
  | 't' => some '\t'
  | '\t' => some '\t'
  | 'n' => some '\n'
  | 'v' => some '\x0b'
  | 'f' => some '\x0c'
  | 'r' => some '\r'
  | 'e' => some '\x1b'
  | ' ' => some ' '
  | '"' => some '"'
  | '/' => some '/'
  | '\\' => some '\\'
  | 'N' => some '\u0085'
  | '_' => some '\u00a0'
  | 'L' => some '\u2028'
  | 'P' => some '\u2029'
  | _ => none

/-- Number of hexadecimal digits behind a backslash and a letter. -/
def escapeDigits? : Char → Option Nat
  | 'x' => some 2
  | 'u' => some 4
  | 'U' => some 8
  | _ => none

/-- The character of a code point in hexadecimal digits. -/
def codePoint? (ds : Text) : Option Char := do
  let n ← Text.hexNumber? 0 ds
  if n < 0xD800 ∨ 0xE000 ≤ n ∧ n < 0x110000 then some (Char.ofNat n) else none

/-- How a run of quoted characters ends. -/
inductive Stop where
  | quote
  | gap
  | joined
  deriving DecidableEq, Repr

/-- The characters of quoted text up to a gap, the quote that closes it or a backslash at the end
of a line, and how many were read. -/
def quotedRun? (single : Bool) : (limit : Nat) → Text → Option (Text × Nat × Stop)
  | 0, _ => none
  | limit + 1, t =>
    let more (c : Char) (n : Nat) (t : Text) : Option (Text × Nat × Stop) :=
      (quotedRun? single limit t).map fun (cs, m, stop) => (c :: cs, m + n, stop)
    match t with
    | [] => some ([], 0, .gap)
    | c :: t =>
      if isBlank c || isBreak c then some ([], 0, .gap)
      else if single then
        match c, t with
        | '\'', '\'' :: t => more '\'' 2 t
        | '\'', _ => some ([], 1, .quote)
        | c, t => more c 1 t
      else if c = '"' then some ([], 1, .quote)
      else if c = '\\' then
        match t with
        | [] => none
        | e :: t =>
          if isBreak e then
            some ([], if e = '\r' && t.head? = some '\n' then 3 else 2, .joined)
          else
            match escapeDigits? e with
            | some n =>
              if t.length < n then none
              else do
                let ch ← codePoint? (t.take n)
                more ch (n + 2) (t.drop n)
            | none => do
              let ch ← escape? e
              more ch 2 t
      else more c 1 t

/-- Quoted text from a cursor behind the opening quote on, and the cursor behind the closing one. -/
def quotedFrom (single : Bool) : (limit : Nat) → Cursor → Option (Text × Cursor)
  | 0, _ => none
  | limit + 1, c =>
    if c.atDocumentMark || c.rest.isEmpty then none
    else do
      let (cs, n, stop) ← quotedRun? single (c.rest.length + 1) c.rest
      let c := c.advance n
      if stop = .quote then pure (cs, c)
      else
        let g := Gap.scan 0 (stop = .joined) c.column c.rest
        let between := if stop = .joined then g.breaks.flatten else g.fold
        let (more, c) ← quotedFrom single limit (c.advance g.length)
        pure (cs ++ between ++ more, c)

/-- Quoted text at a cursor, and the cursor behind it. -/
def quoted? (single : Bool) (c : Cursor) : Option (Text × Cursor) :=
  quotedFrom single (c.rest.length + 2) c.next

/-! ## Blocks of text -/

/-- What becomes of the line breaks at the end of a block. -/
inductive Chomping where
  | strip
  | clip
  | keep
  deriving DecidableEq, Repr

/-- The indicators behind the mark of a block: chomping and indentation, in either order. -/
def indicators? : Text → Option (Chomping × Nat × Nat)
  | t =>
    let chomp : Char → Option Chomping := fun c =>
      if c = '+' then some .keep else if c = '-' then some .strip else none
    let digit : Char → Option (Option Nat) := fun c =>
      if c.isDigit then some (if c = '0' then none else some (Text.digitValue c)) else none
    match t with
    | [] => some (.clip, 0, 0)
    | a :: t =>
      match chomp a, digit a with
      | some k, _ =>
        match t.head?.bind digit with
        | some none => none
        | some (some n) => some (k, n, 2)
        | none => some (k, 0, 1)
      | none, some none => none
      | none, some (some n) =>
        match t.head?.bind chomp with
        | some k => some (k, n, 2)
        | none => some (.clip, n, 1)
      | none, none => some (.clip, 0, 0)

/-- Empty lines at a cursor: their breaks, the cursor behind them and behind the indentation of
the next line, and the furthest column met. An indentation of zero is not known yet. A tabulator
in the place of indentation is refused. -/
def emptyLines? (indent : Nat) : (limit : Nat) → Cursor → Option (Text × Cursor × Nat)
  | 0, _ => none
  | limit + 1, c =>
    let spaces := (c.rest.takeWhile (· = ' ')).length
    let c := c.advance (if indent = 0 then spaces else min spaces (indent - c.column))
    let short := indent = 0 || c.column < indent
    match c.rest with
    | ch :: _ =>
      if short && ch = '\t' then none
      else if isBreak ch then do
        let (breaks, next, widest) ← emptyLines? indent limit c.overBreak
        pure (breakText ch ++ breaks, next, max c.column widest)
      else some ([], c, c.column)
    | [] => some ([], c, c.column)

/-- A line break as a text, nothing at the end of the text. -/
def breakAt (c : Cursor) : Text :=
  match c.rest with
  | [] => []
  | ch :: _ => breakText ch

/-- The lines of a block from a cursor on. `lead` is the break before the next line, `breaks` those
of the empty lines behind it, and `blank` tells whether the line before starts with a blank. A limit
above the number of characters suffices. -/
def blockFrom (literal : Bool) (chomping : Chomping) (indent : Nat) : (limit : Nat) →
    (lead breaks : Text) → (blank : Bool) → Cursor → Option (Text × Cursor)
  | 0, _, _, _, _ => none
  | limit + 1, lead, breaks, blank, c =>
    if c.column = indent && !c.rest.isEmpty then do
      let blankHere := c.rest.head?.any isBlank
      let joined :=
        if !literal && lead = ['\n'] && !blank && !blankHere then
          if breaks.isEmpty then [' '] else []
        else lead
      let line := c.rest.takeWhile (!isBreak ·)
      let c := c.toLineEnd
      let lead' := breakAt c
      let (breaks', c, _) ← emptyLines? indent limit c.overBreak
      let (more, c) ← blockFrom literal chomping indent limit lead' breaks' blankHere c
      pure (joined ++ breaks ++ line ++ more, c)
    else
      let tail :=
        match chomping with
        | .strip => []
        | .clip => lead
        | .keep => lead ++ breaks
      pure (tail, c)

/-- A block of text at its mark, the indentation around it being `outer`, and the cursor behind
it. -/
def block? (literal : Bool) (outer : Int) (c : Cursor) : Option (Text × Cursor) := do
  let c := c.next
  let (chomping, increment, n) ← indicators? c.rest
  let c := c.advance n
  let c := c.advance (c.rest.takeWhile isBlank).length
  let c := if c.rest.head? = some '#' then c.toLineEnd else c
  if !atLineEnd c.rest then none
  else do
    let c := c.overBreak
    let given : Nat := if increment = 0 then 0 else ((max outer 0) + increment).toNat
    let (breaks, c, widest) ← emptyLines? given (c.rest.length + 1) c
    let indent := if given = 0 then max widest (max (outer + 1) 1).toNat else given
    blockFrom literal chomping indent (c.rest.length + 1) [] breaks false c

end TagTemplate.Yaml
