import TagTemplate.Json.Token
import TagTemplate.Json.Value

/-!
# Reading JSON

Tokens are taken one after the other by a machine that keeps the arrays and
objects it is inside of, innermost first; the value is complete when it is
inside of none. Values nested deeper than `depthLimit` are refused.
-/

namespace TagTemplate.Json

/-- The deepest nesting of arrays and objects. -/
def depthLimit : Nat := 127

/-- An array or object that is not complete: the items before, latest first, or the members before
and the key of the next. -/
inductive Frame where
  | items (done : List Json)
  | members (done : List (Text × Json)) (key : Text)

/-- What the next token may be. -/
inductive State where
  | value (frames : List Frame)
  | firstItem (frames : List Frame)
  | firstKey (frames : List Frame)
  | key (done : List (Text × Json)) (frames : List Frame)
  | colon (done : List (Text × Json)) (key : Text) (frames : List Frame)
  | after (value : Json) (frames : List Frame)

/-- The state after a token that starts a value. -/
def startValue (frames : List Frame) : Token → Option State
  | .null => some (.after .null frames)
  | .bool b => some (.after (.bool b) frames)
  | .number n => some (.after (.number n) frames)
  | .text t => some (.after (.text t) frames)
  | .openArray => if frames.length < depthLimit then some (.firstItem frames) else none
  | .openObject => if frames.length < depthLimit then some (.firstKey frames) else none
  | _ => none

/-- The state after a token. -/
def State.step : State → Token → Option State
  | value frames, token => startValue frames token
  | firstItem frames, .closeArray => some (after (.array []) frames)
  | firstItem frames, token =>
    startValue (.items [] :: frames) token
  | firstKey frames, .closeObject => some (after (.object []) frames)
  | firstKey frames, .text t => some (colon [] t frames)
  | key done frames, .text t => some (colon done t frames)
  | colon done k frames, .colon => some (value (.members done k :: frames))
  | after v (.items done :: frames), .comma => some (value (.items (v :: done) :: frames))
  | after v (.items done :: frames), .closeArray =>
    some (after (.array (v :: done).reverse) frames)
  | after v (.members done k :: frames), .comma => some (key (put k v done) frames)
  | after v (.members done k :: frames), .closeObject =>
    some (after (.object (put k v done)) frames)
  | _, _ => none

/-- The value, if it is complete. -/
def State.result? : State → Option Json
  | after v [] => some v
  | _ => none

/-- The value that tokens stand for. -/
def ofTokens? (tokens : List Token) : Option Json :=
  (tokens.foldlM State.step (.value [])).bind State.result?

/-- The value that a text stands for. -/
def read? (t : Text) : Option Json := (tokens t).bind ofTokens?

end TagTemplate.Json
