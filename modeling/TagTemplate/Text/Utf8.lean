import TagTemplate.Text.Basic

/-!
# UTF-8

Text as bytes and bytes as text. Bytes are read as units: a character, or a
part that is none, which is as long as the longest beginning of a character
that it could have been. Bytes are text if every unit is a character; where
any bytes have to be shown, the other units become replacement characters.
-/

namespace TagTemplate.Text

/-- The bytes of a text. -/
def bytes (t : Text) : List UInt8 := t.flatMap String.utf8EncodeChar

theorem length_bytes (t : Text) : (bytes t).length = size t := by
  induction t with
  | nil => rfl
  | cons c t ih => simp [bytes, ← ih]

/-- The value bits of a first byte and the ranges of the bytes that follow it, if a character can
start with it. -/
def leading? (b : Nat) : Option (Nat × List (Nat × Nat)) :=
  let tail := (0x80, 0xBF)
  if b < 0x80 then some (b, [])
  else if b < 0xC2 then none
  else if b < 0xE0 then some (b - 0xC0, [tail])
  else if b = 0xE0 then some (0, [(0xA0, 0xBF), tail])
  else if b = 0xED then some (0xD, [(0x80, 0x9F), tail])
  else if b < 0xF0 then some (b - 0xE0, [tail, tail])
  else if b = 0xF0 then some (0, [(0x90, 0xBF), tail, tail])
  else if b < 0xF4 then some (b - 0xF0, [tail, tail, tail])
  else if b = 0xF4 then some (4, [(0x80, 0x8F), tail, tail])
  else none

/-- The value that the following bytes complete, if they are in their ranges, and how many of them
are. -/
def follow (value : Nat) : List (Nat × Nat) → List UInt8 → Option Nat × Nat
  | [], _ => (some value, 0)
  | _ :: _, [] => (none, 0)
  | (low, high) :: ranges, b :: bs =>
    if low ≤ b.toNat && b.toNat ≤ high then
      let (result, used) := follow (value * 64 + (b.toNat - 0x80)) ranges bs
      (result, used + 1)
    else (none, 0)

/-- The unit that starts with a byte, and how many of the following bytes belong to it. -/
def firstUnit (b : UInt8) (bs : List UInt8) : Option Char × Nat :=
  match leading? b.toNat with
  | none => (none, 0)
  | some (value, ranges) =>
    let (result, used) := follow value ranges bs
    (result.map Char.ofNat, used)

/-- The units of some bytes, the first `skip` bytes left out. -/
def unitsFrom (skip : Nat) : List UInt8 → List (Option Char)
  | [] => []
  | b :: bs =>
    match skip with
    | skip + 1 => unitsFrom skip bs
    | 0 =>
      let (unit, used) := firstUnit b bs
      unit :: unitsFrom used bs

/-- The text of some bytes, if they are text. -/
def ofBytes? (bs : List UInt8) : Option Text := (unitsFrom 0 bs).mapM id

/-- The text of some bytes, with replacement characters for what is no character. -/
def ofBytesLossy (bs : List UInt8) : Text := (unitsFrom 0 bs).map (·.getD '\uFFFD')

end TagTemplate.Text
