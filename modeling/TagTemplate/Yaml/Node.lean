import TagTemplate.Yaml.Token

/-!
# YAML nodes

A node is a scalar, a sequence, a mapping or an alias of a node with an anchor.
Anchors are numbered when they are met, by how many names have been given
before; a name given again may so take a number that another name takes later,
and then an alias of that number is one of the node met last.

Tokens become nodes by one function for each place in which a node may stand.
Where a node is missing an empty plain scalar stands for it.
-/

namespace TagTemplate.Yaml

/-- A node. A tag is given in full, and `plain` tells of scalars without quotes. -/
inductive Node where
  | scalar (tag : Option Octets) (plain : Bool) (t : Text)
  | sequence (tag : Option Octets) (items : List Node)
  | mapping (tag : Option Octets) (pairs : List (Node × Node))
  | reference (number : Nat)

namespace Node

/-- The scalar that stands where nothing does. -/
def empty : Node := scalar none true []

/-- Number of events that a node is reported as: two for the ends of a collection, one for any
other. -/
def events : Node → Nat
  | scalar _ _ _ => 1
  | reference _ => 1
  | sequence _ items => eventsOf items + 2
  | mapping _ pairs => eventsOfPairs pairs + 2
where
  /-- The events of the items of a sequence. -/
  eventsOf : List Node → Nat
    | [] => 0
    | n :: ns => events n + eventsOf ns
  /-- The events of the pairs of a mapping. -/
  eventsOfPairs : List (Node × Node) → Nat
    | [] => 0
    | (k, v) :: ps => events k + events v + eventsOfPairs ps

end Node

/-- An anchor: its number, how many nodes with anchors were met before, and its node. -/
structure Anchored where
  number : Nat
  order : Nat
  node : Node

/-- What is left of the tokens, and what was met before them. -/
structure Nodes where
  tokens : List Token
  handles : List (Text × Octets)
  names : List (Text × Nat)
  met : Nat
  anchored : List Anchored

/-- A computation on the tokens that are left. -/
abbrev NodeReader := StateT Nodes Option

namespace NodeReader

/-- The next token. -/
def peek : NodeReader (Option Token) := do return (← get).tokens.head?

/-- Over the next token. -/
def skip : NodeReader Unit := modify fun s => { s with tokens := s.tokens.tail }

/-- Over a token, which has to be there. -/
def expect (token : Token) : NodeReader Unit := do
  if (← peek) = some token then skip else failure

/-- Whether the next token is there; it is taken if it is. -/
def take (token : Token) : NodeReader Bool := do
  if (← peek) = some token then
    skip
    return true
  else return false

/-- Whether the next token is one of some. -/
def isNext (tokens : List Token) : NodeReader Bool := do
  return (← peek).any tokens.contains

/-- The beginnings that handles stand for unless a directive says otherwise. -/
def defaultHandles : List (Text × Octets) :=
  [(['!'], .bare), ("!!".toList, .core "")]

/-- A tag in full. -/
def fullTag (name : TagName) : NodeReader Octets := do
  if name.handle.isEmpty then return name.suffix
  match ((← get).handles ++ defaultHandles).find? (·.1 = name.handle) with
  | some (_, beginning) => return beginning ++ name.suffix
  | none => failure

/-- The number of an anchor that is met, and how many were met before. -/
def meetAnchor (name : Text) : NodeReader (Nat × Nat) := do
  let s ← get
  let number := s.names.length
  let names := (name, number) :: s.names.filter (·.1 ≠ name)
  set { s with names, met := s.met + 1 }
  return (number, s.met)

/-- The anchor and the tag before a node, in either order. -/
def properties : NodeReader (Option (Nat × Nat) × Option Octets) := do
  match ← peek with
  | some (.anchor a) =>
    skip
    let anchor ← meetAnchor a
    match ← peek with
    | some (.tag name) =>
      skip
      return (some anchor, some (← fullTag name))
    | _ => return (some anchor, none)
  | some (.tag name) =>
    skip
    let tag ← fullTag name
    match ← peek with
    | some (.anchor a) =>
      skip
      return (some (← meetAnchor a), some tag)
    | _ => return (none, some tag)
  | _ => return (none, none)

/-- A node with its anchor. -/
def withAnchor (anchor : Option (Nat × Nat)) (node : Node) : NodeReader Node := do
  match anchor with
  | none => return node
  | some (number, order) =>
    modify fun s => { s with anchored := ⟨number, order, node⟩ :: s.anchored }
    return node

mutual

/-- A node, in at most `limit` steps. Blocks may stand only outside of brackets and braces, and
items without indentation only under a key. -/
def node (limit : Nat) (block indentless : Bool) : NodeReader Node :=
  match limit with
  | 0 => failure
  | limit + 1 => do
    match ← peek with
    | some (.reference name) =>
      skip
      match (← get).names.find? (·.1 = name) with
      | some (_, number) => return .reference number
      | none => failure
    | _ =>
      let (anchor, tag) ← properties
      let node ←
        match ← peek with
        | some (.scalar plain t) =>
          skip
          pure (.scalar tag plain t)
        | some .entry =>
          if indentless then .sequence tag <$> indentlessItems limit
          else emptyNode anchor tag
        | some .openSequence =>
          skip
          .sequence tag <$> flowItems limit true
        | some .openMapping =>
          skip
          .mapping tag <$> flowPairs limit true
        | some .sequenceStart =>
          if block then
            skip
            .sequence tag <$> blockItems limit
          else emptyNode anchor tag
        | some .mappingStart =>
          if block then
            skip
            .mapping tag <$> blockPairs limit
          else emptyNode anchor tag
        | _ => emptyNode anchor tag
      withAnchor anchor node

/-- The scalar that stands for a node of which there is only an anchor or a tag. -/
def emptyNode (anchor : Option (Nat × Nat)) (tag : Option Octets) : NodeReader Node :=
  if anchor.isSome || tag.isSome then pure (.scalar tag true []) else failure

/-- The items of a sequence in a block, up to its end. -/
def blockItems (limit : Nat) : NodeReader (List Node) :=
  match limit with
  | 0 => failure
  | limit + 1 => do
    if ← take .entry then
      let n ←
        if ← isNext [.entry, .blockEnd] then pure .empty else node limit true false
      return n :: (← blockItems limit)
    else
      expect .blockEnd
      return []

/-- The items of a sequence that is indented no further than its key. -/
def indentlessItems (limit : Nat) : NodeReader (List Node) :=
  match limit with
  | 0 => failure
  | limit + 1 => do
    if ← take .entry then
      let n ←
        if ← isNext [.entry, .key, .value, .blockEnd] then pure .empty else node limit true false
      return n :: (← indentlessItems limit)
    else return []

/-- The pairs of a mapping in a block, up to its end. -/
def blockPairs (limit : Nat) : NodeReader (List (Node × Node)) :=
  match limit with
  | 0 => failure
  | limit + 1 => do
    if ← take .key then
      let k ←
        if ← isNext [.key, .value, .blockEnd] then pure .empty else node limit true true
      let v ← blockValue limit
      return (k, v) :: (← blockPairs limit)
    else if ← isNext [.value] then
      failure
    else
      expect .blockEnd
      return []

/-- The value of a pair in a block. -/
def blockValue (limit : Nat) : NodeReader Node :=
  match limit with
  | 0 => failure
  | limit + 1 => do
    if ← take .value then
      if ← isNext [.key, .value, .blockEnd] then pure .empty else node limit true true
    else pure .empty

/-- The items of a sequence in brackets, up to the closing one. -/
def flowItems (limit : Nat) (first : Bool) : NodeReader (List Node) :=
  match limit with
  | 0 => failure
  | limit + 1 => do
    if ← take .closeSequence then return []
    if !first then expect .comma
    if ← take .key then
      let k ←
        if ← isNext [.value, .comma, .closeSequence] then
          skip
          pure .empty
        else node limit false false
      let v ← flowValue limit .closeSequence
      return .mapping none [(k, v)] :: (← flowItems limit false)
    else if ← take .closeSequence then return []
    else
      let n ← node limit false false
      return n :: (← flowItems limit false)

/-- The pairs of a mapping in braces, up to the closing one. -/
def flowPairs (limit : Nat) (first : Bool) : NodeReader (List (Node × Node)) :=
  match limit with
  | 0 => failure
  | limit + 1 => do
    if ← take .closeMapping then return []
    if !first then expect .comma
    if ← take .key then
      let k ←
        if ← isNext [.value, .comma, .closeMapping] then pure .empty else node limit false false
      let v ← flowValue limit .closeMapping
      return (k, v) :: (← flowPairs limit false)
    else if ← take .closeMapping then return []
    else
      let k ← node limit false false
      return (k, .empty) :: (← flowPairs limit false)

/-- The value of a pair within brackets or braces. -/
def flowValue (limit : Nat) (closing : Token) : NodeReader Node :=
  match limit with
  | 0 => failure
  | limit + 1 => do
    if ← take .value then
      if ← isNext [.comma, closing] then pure .empty else node limit false false
    else pure .empty

end

/-- The directives before a document. Only versions of the first major number are known, and each
directive is given once. -/
def directives : (limit : Nat) → (versioned : Bool) → NodeReader Bool
  | 0, _ => failure
  | limit + 1, versioned => do
    match ← peek with
    | some (.directive (.version major minor)) =>
      if versioned || major ≠ 1 || (minor ≠ 1 && minor ≠ 2) then failure
      skip
      let _ ← directives limit true
      return true
    | some (.directive (.handle handle beginning)) =>
      if (← get).handles.any (·.1 = handle) then failure
      skip
      modify fun s => { s with handles := (handle, beginning) :: s.handles }
      let _ ← directives limit versioned
      return true
    | _ => return false

/-- Over the marks that end a document. -/
def skipEnds : (limit : Nat) → NodeReader Unit
  | 0 => failure
  | limit + 1 => do
    if ← take .documentEnd then skipEnds limit

/-- The one document of some tokens, nothing if there is none. -/
def document (limit : Nat) : NodeReader (Option Node) := do
  if (← peek).isNone then return none
  let directed ← directives limit false
  let started ← take .documentStart
  if directed && !started then failure
  let n ←
    match ← peek with
    | none => pure .empty
    | some next =>
      let ends :=
        match next with
        | .directive _ | .documentStart | .documentEnd => true
        | _ => false
      if started && ends then pure .empty else node limit true false
  skipEnds limit
  if (← peek).isNone then return some n else failure

end NodeReader

/-- The document that some tokens make, with the nodes that have anchors. -/
def Node.ofTokens? (tokens : List Token) : Option (Option Node × List Anchored) :=
  let limit := 4 * tokens.length + 8
  (NodeReader.document limit ⟨tokens, [], [], 0, []⟩).map fun (n, s) => (n, s.anchored)

end TagTemplate.Yaml
