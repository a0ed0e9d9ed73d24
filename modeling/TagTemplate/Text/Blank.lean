import TagTemplate.Text.Basic

/-!
# Blank characters

The characters with the Unicode property `White_Space`, and the trimming of
text by them.
-/

namespace TagTemplate.Text

/-- The ranges of code points with the property `White_Space`, first and last of each. -/
def blankRanges : List (Nat × Nat) :=
  [(0x09, 0x0D), (0x20, 0x20), (0x85, 0x85), (0xA0, 0xA0), (0x1680, 0x1680), (0x2000, 0x200A),
   (0x2028, 0x2029), (0x202F, 0x202F), (0x205F, 0x205F), (0x3000, 0x3000)]

/-- Whether a character is blank. -/
def isBlank (c : Char) : Bool :=
  blankRanges.any fun (first, last) => first ≤ c.toNat && c.toNat ≤ last

/-- The property has twenty-five characters. -/
example : (blankRanges.map fun (first, last) => last + 1 - first).sum = 25 := by decide

/-- The text without the blank characters at its start. -/
def trimStart (t : Text) : Text := t.dropWhile isBlank

/-- The text without the blank characters at its end. -/
def trimEnd (t : Text) : Text := (t.reverse.dropWhile isBlank).reverse

/-- The text without the blank characters at either end. -/
def trim (t : Text) : Text := trimEnd (trimStart t)

end TagTemplate.Text
