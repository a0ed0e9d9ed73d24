import TagTemplate.Bindings
import TagTemplate.Decimal.Literal

/-!
# TOML values and tables

While a document is read its tables are nodes, because it depends on how a
table came about whether it may still be extended. A table that is stated, by
a header of its own, is complete with its pairs. One implied by the header of a
table inside it may be stated later. One made by a dotted key takes further
dotted keys. A value, inline tables and arrays among them, is never extended.
-/

namespace TagTemplate

/-- A TOML value. Dates and times are kept as they are written. -/
inductive Toml where
  | text (t : Text)
  | integer (n : Int)
  | float (r : Decimal.Reading)
  | bool (b : Bool)
  | moment (written : Text)
  | array (items : List Toml)
  | table (members : List (Text × Toml))

namespace Toml

open Bindings (lookup put)

/-- How a table came about. -/
inductive Making where
  | stated
  | implied
  | dotted
  deriving DecidableEq, Repr

/-- A value, a table or a series of tables under one name. -/
inductive Node where
  | value (v : Toml)
  | table (making : Making) (members : List (Text × Node))
  | series (elements : List (List (Text × Node)))

/-- What a table holds. -/
abbrev Members := List (Text × Node)

mutual

/-- The value that a node is in the end. -/
def Node.toToml : Node → Toml
  | .value v => v
  | .table _ members => .table (membersToToml members)
  | .series elements => .array (seriesToToml elements)

/-- The values of the members of a table. -/
def membersToToml : List (Text × Node) → List (Text × Toml)
  | [] => []
  | (key, node) :: rest => (key, node.toToml) :: membersToToml rest

/-- The values of the tables of a series. -/
def seriesToToml : List (List (Text × Node)) → List Toml
  | [] => []
  | members :: rest => .table (membersToToml members) :: seriesToToml rest

end

/-- The members with a pair whose key is dotted, `path` being the parts before the last. A pair
belongs into a table if `open_`; a key is given once. -/
def insert (open_ : Bool) (path : List Text) (key : Text) (v : Toml) (ms : Members) :
    Option Members :=
  match path with
  | [] => if open_ && (lookup key ms).isNone then some (put key (.value v) ms) else none
  | k :: ks =>
    match lookup k ms with
    | none => (insert true ks key v []).map fun sub => put k (.table .dotted sub) ms
    | some (.table .stated _) => none
    | some (.table making sub) =>
      (insert (making = .dotted) ks key v sub).map fun sub => put k (.table making sub) ms
    | some (.series elements) =>
      match elements.getLast? with
      | none => none
      | some sub =>
        (insert false ks key v sub).map fun sub =>
          put k (.series (elements.dropLast ++ [sub])) ms
    | some (.value _) => none

/-- A pair of a document: the parts of its key before the last, the last, and the value. -/
structure Pair where
  path : List Text
  key : Text
  value : Toml

/-- The members with some pairs. -/
def fill (pairs : List Pair) (ms : Members) : Option Members :=
  pairs.foldlM (fun ms p => insert true p.path p.key p.value ms) ms

/-- The members changed at the end of a path of table names. A series stands for its last table. -/
def atPath (path : List Text) (change : Members → Option Members) (ms : Members) :
    Option Members :=
  match path with
  | [] => change ms
  | k :: ks =>
    match lookup k ms with
    | none => (atPath ks change []).map fun sub => put k (.table .implied sub) ms
    | some (.table making sub) =>
      (atPath ks change sub).map fun sub => put k (.table making sub) ms
    | some (.series elements) =>
      match elements.getLast? with
      | none => none
      | some sub =>
        (atPath ks change sub).map fun sub => put k (.series (elements.dropLast ++ [sub])) ms
    | some (.value _) => none

/-- The members with a stated table that holds some pairs. -/
def state (key : Text) (pairs : List Pair) (ms : Members) : Option Members :=
  match lookup key ms with
  | none => (fill pairs []).map fun sub => put key (.table .stated sub) ms
  | some (.table .implied sub) => (fill pairs sub).map fun sub => put key (.table .stated sub) ms
  | _ => none

/-- The members with one more table of a series. -/
def extend (key : Text) (pairs : List Pair) (ms : Members) : Option Members :=
  match lookup key ms with
  | none => (fill pairs []).map fun sub => put key (.series [sub]) ms
  | some (.series elements) =>
    (fill pairs []).map fun sub => put key (.series (elements ++ [sub])) ms
  | _ => none

/-- A line of a document that means something. -/
inductive Statement where
  | pair (p : Pair)
  | table (path : List Text) (key : Text)
  | series (path : List Text) (key : Text)

/-- The pairs up to the next header, and the rest. -/
def leadingPairs : List Statement → List Pair × List Statement
  | .pair p :: rest =>
    let (ps, rest) := leadingPairs rest
    (p :: ps, rest)
  | rest => ([], rest)

/-- The members that the statements add, at most `limit` headers among them. -/
def run : (limit : Nat) → List Statement → Members → Option Members
  | 0, _, _ => none
  | limit + 1, statements, ms =>
    match statements with
    | [] => some ms
    | .pair p :: rest => do
      let (pairs, rest) := leadingPairs (.pair p :: rest)
      let ms ← fill pairs ms
      run limit rest ms
    | .table path key :: rest => do
      let (pairs, rest) := leadingPairs rest
      let ms ← atPath path (state key pairs) ms
      run limit rest ms
    | .series path key :: rest => do
      let (pairs, rest) := leadingPairs rest
      let ms ← atPath path (extend key pairs) ms
      run limit rest ms

/-- The members of the document that some statements make. -/
def ofStatements? (statements : List Statement) : Option (List (Text × Toml)) :=
  (run (statements.length + 1) statements []).map membersToToml

end Toml

end TagTemplate
