import TagTemplate.Bindings
import TagTemplate.Text.Digit
import TagTemplate.Text.Search
import TagTemplate.Text.Utf8

/-!
# Query strings

The pairs of a query are separated by ampersands, and the key of a pair ends at
its first equals sign. A plus sign stands for a space, and a percent sign with
two hexadecimal digits for a byte; a percent sign without them stands for
itself. The bytes are read as UTF-8.
-/

namespace TagTemplate.Link

/-- The byte that two hexadecimal digits stand for. -/
def hexByte? (a b : Char) : Option UInt8 := (Text.hexNumber? 0 [a, b]).map UInt8.ofNat

/-- The bytes that a part of a query stands for. -/
def unescape : Text → List UInt8
  | [] => []
  | '%' :: a :: b :: t =>
    match hexByte? a b with
    | some byte => byte :: unescape t
    | none => Text.bytes ['%'] ++ unescape (a :: b :: t)
  | c :: t => Text.bytes [if c = '+' then ' ' else c] ++ unescape t

/-- The text that a part of a query stands for. -/
def decode (t : Text) : Text := Text.ofBytesLossy (unescape t)

/-- The key and the value of a pair. A pair without an equals sign has an empty value. -/
def pair (t : Text) : Text × Text :=
  match Text.cut? ['='] t with
  | some (key, value) => (decode key, decode value)
  | none => (decode t, [])

/-- The pairs of a query, empty ones left out. -/
def pairs (query : Text) : List (Text × Text) :=
  ((Text.pieces '&' query).filter (!·.isEmpty)).map pair

/-- The query of a URL: what follows its first question mark. -/
def query (url : Text) : Text :=
  match Text.cut? ['?'] url with
  | some (_, query) => query
  | none => []

end TagTemplate.Link
