import TagTemplate.Tag
import TagTemplate.Text.Search

/-!
# Finding tags

A tag starts at two opening braces and ends with the first two closing braces
after them; what stands between, its interior, decides which form it has.
Braces around an interior of no form are ordinary text, and a tag may start
inside them: the first two braces of `{{{name}}}` start no tag, the next two do.

`lex` gives the tags of a text in order. Each candidate is judged where it
starts, by `opening?` alone, and the scan goes on behind a tag that it found.
-/

namespace TagTemplate.Tag

/-- Characters of the keys of conditions, loops and values. -/
def isKeyChar (c : Char) : Bool := c.isAlphanum || c = '_' || c = '-'

/-- Characters of the names of partials; a slash selects a directory. -/
def isNameChar (c : Char) : Bool := isKeyChar c || c = '/'

/-- The tag of a form whose argument is a name of allowed characters. -/
def named (form : Form) (allowed : Char → Bool) (make : Text → Kind) (name : Text) : Kind :=
  if name.isEmpty then .malformed form .emptyName
  else if name.all allowed then make name
  else .malformed form .badCharacter

/-- The form of an interior after its `#`. -/
def classifyDirective (rest : Text) : Option Kind :=
  if rest = "else".toList then some .ifElse
  else if rest = "endif".toList then some .ifClose
  else if rest = "endforeach".toList then some .loopClose
  else if let some key := "if:".toList.isPrefixOf? rest then
    some (named .condition isKeyChar .ifOpen key)
  else if let some key := "foreach:".toList.isPrefixOf? rest then
    some (named .loop isKeyChar .loopOpen key)
  else if let some url := "link:".toList.isPrefixOf? rest then
    some (if url.isEmpty then .malformed .link .emptyUrl else .link url)
  else none

/-- The form of an interior. One that holds opening braces has none: the tag inside it counts
first, as in a link that waits for a value in its URL. -/
def classify (interior : Text) : Option Kind :=
  if Text.contains openMark interior then none
  else
    match interior with
    | '>' :: name => some (named .inclusion isNameChar .inclusion name)
    | '#' :: rest => classifyDirective rest
    | _ => if !interior.isEmpty && interior.all isKeyChar then some (.value interior) else none

/-- The tag that starts where a text starts, with its interior. -/
def opening? (t : Text) : Option (Kind × Text) := do
  let rest ← openMark.isPrefixOf? t
  let (interior, _) ← Text.cut? closeMark rest
  let kind ← classify interior
  pure (kind, interior)

/-- The tags of a text that starts at byte `offset`, those left out that start within its first
`skip` characters. -/
def scan (offset skip : Nat) : Text → List Tag
  | [] => []
  | c :: t =>
    match skip with
    | skip + 1 => scan (offset + c.utf8Size) skip t
    | 0 =>
      match opening? (c :: t) with
      | some (kind, interior) =>
        ⟨kind, ⟨offset, offset + Text.size interior + 4⟩⟩ ::
          scan (offset + c.utf8Size) (interior.length + 3) t
      | none => scan (offset + c.utf8Size) 0 t

/-- The tags of a text, in order. -/
def lex (t : Text) : List Tag := scan 0 0 t

/-- Every tag found is longer than its four braces' bytes less one, and starts where the scan
has come to or later. -/
theorem bounds_of_mem_scan {offset skip : Nat} {t : Text} {tag : Tag}
    (h : tag ∈ scan offset skip t) :
    offset ≤ tag.span.start ∧ tag.span.start + 4 ≤ tag.span.stop := by
  induction t generalizing offset skip with
  | nil => simp [scan] at h
  | cons c t ih =>
      cases skip with
      | succ skip =>
          have := ih (by simpa [scan] using h)
          omega
      | zero =>
          simp only [scan] at h
          split at h
          · rcases List.mem_cons.1 h with rfl | h
            · simp only; omega
            · have := ih h
              omega
          · have := ih h
            omega

/-- A tag takes up at least its four braces. -/
theorem four_le_of_mem_lex {t : Text} {tag : Tag} (h : tag ∈ lex t) :
    tag.span.start + 4 ≤ tag.span.stop := (bounds_of_mem_scan h).2

example : lex "\x7b\x7b\x7bname\x7d\x7d".toList = [⟨.value "name".toList, ⟨1, 9⟩⟩] := by decide

example : lex "a\x7b\x7b#if:\x7d\x7d".toList = [⟨.malformed .condition .emptyName, ⟨1, 9⟩⟩] := by
  decide

end TagTemplate.Tag
