import TagTemplate.Decimal.Literal
import TagTemplate.Json.Value
import TagTemplate.Yaml.Lexer
import TagTemplate.Yaml.Node

/-!
# YAML nodes as JSON values

A plain scalar is null, a truth value or a number if it is written as one, and
else text, like every scalar in quotes. A tag may ask for one of these. The
keys of a mapping are the texts of scalars, the last of two equal ones counts.
Nodes may be nested `depthLimit` deep, aliases followed, and aliases may be
followed a hundred times as often as there are events.
-/

namespace TagTemplate.Yaml

/-- The deepest nesting of sequences and mappings. -/
def depthLimit : Nat := 128

/-- Whether a text is digits behind a zero, which is no number. -/
def isZeroPadded (t : Text) : Bool :=
  let t :=
    match t with
    | '-' :: t => t
    | '+' :: t => t
    | t => t
  match t with
  | '0' :: ds => !ds.isEmpty && ds.all Char.isDigit
  | _ => false

/-- The number that digits of a base stand for. -/
def digitsOf? (base : Nat) (ds : Text) : Option Nat :=
  if ds.isEmpty then none
  else
    ds.foldlM (fun n c => do
      let d ← Text.hexValue? c
      if d < base then some (base * n + d) else none) 0

/-- The base of the digits behind a letter. -/
def baseOf? : Char → Option Nat
  | 'x' => some 16
  | 'o' => some 8
  | 'b' => some 2
  | _ => none

/-- The number of digits with the mark of their base before them. -/
def based? : Text → Option Nat
  | '0' :: c :: ds => do
    let base ← baseOf? c
    digitsOf? base ds
  | _ => none

/-- The number that a text without a minus sign stands for, below a bound. -/
def unsigned? (bound : Nat) (t : Text) : Option Nat :=
  let body :=
    match t with
    | '+' :: t => t
    | t => t
  let below (n : Nat) : Option Nat := if n < bound then some n else none
  match (based? body).bind below with
  | some n => some n
  | none => if isZeroPadded t then none else (digitsOf? 10 body).bind below

/-- The number that a text with a minus sign stands for, down to a bound. -/
def negative? (bound : Nat) : Text → Option Int
  | '-' :: body =>
    let within (n : Nat) : Option Int := if n ≤ bound then some (-n) else none
    match (based? body).bind within with
    | some n => some n
    | none => if isZeroPadded body then none else (digitsOf? 10 body).bind within
  | _ => none

/-- What a text is as a whole number: one of 64 bits, one of up to 128 bits, which is refused, or
none. -/
def integer? (t : Text) : Option (Option Int) :=
  match unsigned? (Nat.pow 2 64) t with
  | some n => some (some n)
  | none =>
    match negative? (Nat.pow 2 63) t with
    | some n => some (some n)
    | none =>
      if (unsigned? (Nat.pow 2 128) t).isSome || (negative? (Nat.pow 2 127) t).isSome then some none
      else none

/-- What a text is as a float: finite, or one of the words for what is not, which become null. -/
def float? (t : Text) : Option Json :=
  let body? :=
    match t with
    | '+' :: '+' :: _ => none
    | '+' :: '-' :: _ => none
    | '+' :: t => some t
    | t => some t
  match body? with
  | none => none
  | some body =>
    if [".inf", ".Inf", ".INF"].any (·.toList = body) then some .null
    else if ["-.inf", "-.Inf", "-.INF", ".nan", ".NaN", ".NAN"].any (·.toList = t) then some .null
    else ((Decimal.read? body).bind Decimal.Reading.double?).map fun d => .number (.double d)

/-- Whether a text is written as null. -/
def isNull (t : Text) : Bool := ["null", "Null", "NULL", "~"].any (·.toList = t)

/-- The truth value that a text is written as. -/
def bool? (t : Text) : Option Bool :=
  if ["true", "True", "TRUE"].any (·.toList = t) then some true
  else if ["false", "False", "FALSE"].any (·.toList = t) then some false
  else none

/-- A plain scalar. A whole number beyond 64 bits is refused. -/
def plainValue? (t : Text) : Option Json :=
  if t.isEmpty || isNull t then some .null
  else
    match bool? t with
    | some b => some (.bool b)
    | none =>
      match integer? t with
      | some n => n.map fun n => .number (.integer n)
      | none =>
        match if isZeroPadded t then none else float? t with
        | some v => some v
        | none => some (.text t)

/-- A scalar. A tag of its own kind that is text has no value, and one that is no text is as none at
a plain scalar. -/
def scalarValue? (tag : Option Octets) (plain : Bool) (t : Text) : Option Json :=
  match tag with
  | none => if plain then plainValue? t else some (.text t)
  | some tag =>
    if tag.isOwn then none
    else if tag = .core "bool" then (bool? t).map .bool
    else if tag = .core "int" then
      match integer? t with
      | some (some n) => some (.number (.integer n))
      | _ => none
    else if tag = .core "float" then float? t
    else if tag = .core "null" then if isNull t then some .null else none
    else if tag.isLocal && plain then plainValue? t
    else some (.text t)

/-- The nodes that aliases stand for, and how often they may still be followed. -/
abbrev Following := StateT Nat Option

/-- The node of a number, the one met last if there are several. -/
def anchoredNode? (anchored : List Anchored) (number : Nat) : Option Node :=
  let those := anchored.filter (·.number = number)
  let last := those.foldl (fun best a =>
    match best with
    | none => some a
    | some b => if b.order < a.order then some a else some b) (none : Option Anchored)
  last.map Anchored.node

/-- The node that a node stands for. -/
def follow (anchored : List Anchored) : Node → Following Node
  | .reference number => do
    let left ← get
    if left = 0 then failure
    set (left - 1)
    match anchoredNode? anchored number with
    | some n => pure n
    | none => failure
  | n => pure n

/-- The text of the key of a pair. -/
def keyText (anchored : List Anchored) (n : Node) : Following Text := do
  match ← follow anchored n with
  | .scalar _ _ t => pure t
  | _ => failure

/-- The value of a node that is nested in at most `room` more sequences and mappings. -/
def valueOf (anchored : List Anchored) (room : Nat) (n : Node) : Following Json := do
  match ← follow anchored n, room with
  | .scalar tag plain t, _ =>
    match scalarValue? tag plain t with
    | some v => pure v
    | none => failure
  | .sequence tag items, room + 1 =>
    if tag.any Octets.isOwn then failure
    let values ← items.mapM (valueOf anchored room)
    pure (.array values)
  | .mapping tag pairs, room + 1 =>
    if tag.any Octets.isOwn then failure
    let members ← pairs.foldlM (fun members (k, v) => do
      let key ← keyText anchored k
      let value ← valueOf anchored room v
      pure (Json.put key value members)) []
    pure (.object members)
  | _, _ => failure

/-- The JSON value of a YAML text. A text without a document is null. -/
def read? (text : Text) : Option Json := do
  let tokens ← tokens? text
  let (document, anchored) ← Node.ofTokens? tokens
  match document with
  | none => pure .null
  | some n => do
    let (value, _) ← valueOf anchored depthLimit n (100 * n.events)
    pure value

end TagTemplate.Yaml
