import TagTemplate.Text.Utf8
import TagTemplate.Yaml.Cursor

/-!
# Tags of YAML nodes

A tag is written as a handle, which stands for its beginning, and the rest. The
rest may have escapes, each of which stands for one octet. Octets make units as
those of characters do, a first one telling how many follow it, but they need
not be the octets of a character, so a tag is octets and not text. A tag ends
before its first octet of zero, whatever is written behind it.
-/

namespace TagTemplate.Yaml

/-- What a tag is made of. -/
abbrev Octets := List UInt8

namespace Octets

/-- The octets before the first zero. -/
def untilZero (os : Octets) : Octets := os.takeWhile (· ≠ 0)

/-- The octets of a tag of the core of YAML. -/
def core (name : String) : Octets := Text.bytes ("tag:yaml.org,2002:" ++ name).toList

/-- The tag that is an exclamation mark alone. -/
def bare : Octets := Text.bytes ['!']

/-- Whether a tag starts with an exclamation mark, and so belongs to no standard. -/
def isLocal (os : Octets) : Bool := os.head? = bare.head?

/-- Whether a tag is text that belongs to no standard. -/
def isOwn (os : Octets) : Bool := os.isLocal && (Text.ofBytes? os).isSome

end Octets

/-- A tag as it is written: the handle that stands for a beginning, and the rest. -/
structure TagName where
  handle : Text
  suffix : Octets
  deriving DecidableEq, Repr

namespace TagName

/-- Characters of the rest of a tag. -/
def isPart (bracketed : Bool) (c : Char) : Bool :=
  isWord c || ";/?:@&=+$.!~*'()".toList.contains c || (bracketed && ",[]".toList.contains c)

/-- Number of octets that a first octet asks for behind it. -/
def followers? (o : Nat) : Option Nat :=
  if o < 0x80 then some 0
  else if o < 0xC0 then none
  else if o < 0xE0 then some 1
  else if o < 0xF0 then some 2
  else if o < 0xF8 then some 3
  else none

/-- Number of octets still asked for behind an octet, `due` being asked for before it. -/
def dueAfter? (due o : Nat) : Option Nat :=
  if due = 0 then followers? o
  else if 0x80 ≤ o && o < 0xC0 then some (due - 1)
  else none

/-- The octets of the rest of a tag, `due` of which have to be escaped, and the text behind it. -/
def octets? (bracketed : Bool) : (due : Nat) → Text → Option (Octets × Text)
  | due, '%' :: a :: b :: t => do
    let o ← Text.hexNumber? 0 [a, b]
    let due ← dueAfter? due o
    let (os, rest) ← octets? bracketed due t
    pure (UInt8.ofNat o :: os, rest)
  | due, c :: t =>
    if c = '%' || due ≠ 0 then none
    else if isPart bracketed c then do
      let (os, rest) ← octets? bracketed 0 t
      pure (Text.bytes [c] ++ os, rest)
    else some ([], c :: t)
  | due, [] => if due = 0 then some ([], []) else none

/-- The rest of a tag, which is not empty, and the text behind it. -/
def suffix? (bracketed : Bool) (t : Text) : Option (Octets × Text) := do
  let (os, rest) ← octets? bracketed 0 t
  if os.isEmpty then none else pure (os.untilZero, rest)

/-- The handle at the start of a tag: an exclamation mark, or a word between two. -/
def handleOf (t : Text) : Text :=
  let word := t.tail.takeWhile isWord
  match t.drop (word.length + 1) with
  | '!' :: _ => '!' :: word ++ ['!']
  | _ => ['!']

/-- The tag at the start of a text, which is an exclamation mark, and the text behind it. -/
def read? (t : Text) : Option (TagName × Text) :=
  match t with
  | '!' :: '<' :: t => do
    let (suffix, t) ← suffix? true t
    match t with
    | '>' :: t => pure (⟨[], suffix⟩, t)
    | _ => none
  | t => do
    let handle := handleOf t
    if handle = ['!'] then
      let (os, rest) ← octets? false 0 (t.drop 1)
      let suffix := os.untilZero
      pure (if suffix.isEmpty then ⟨[], .bare⟩ else ⟨handle, suffix⟩, rest)
    else
      let (suffix, rest) ← suffix? false (t.drop handle.length)
      pure (⟨handle, suffix⟩, rest)

example : read? "!e!%C3%A9 x".toList = some (⟨"!e!".toList, [0xC3, 0xA9]⟩, " x".toList) := by
  decide +kernel

example : read? "!%00a x".toList = some (⟨[], .bare⟩, " x".toList) := by
  decide +kernel

example : read? "!a%C3 x".toList = none := by
  decide +kernel

end TagName

end TagTemplate.Yaml
