import TagTemplate.Text.Basic

/-!
# Searching text

`cut?` finds the first occurrence of a mark and gives what stands before and
after it; every search in the library is a use of it. `pieces` splits at each
occurrence of one character, and `joinWith` puts a separator between texts.
-/

namespace TagTemplate.Text

/-- The parts before and after the first occurrence of `mark`. -/
def cut? (mark : Text) : Text → Option (Text × Text)
  | [] => if mark.isEmpty then some ([], []) else none
  | c :: t =>
    match mark.isPrefixOf? (c :: t) with
    | some after => some ([], after)
    | none => (cut? mark t).map fun (before, after) => (c :: before, after)

/-- Whether `mark` occurs in a text. -/
def contains (mark t : Text) : Bool := (cut? mark t).isSome

theorem isPrefixOf?_eq_some_iff {mark t r : Text} :
    mark.isPrefixOf? t = some r ↔ t = mark ++ r := by
  induction mark generalizing t with
  | nil =>
      show some t = some r ↔ t = r
      simp
  | cons c m ih =>
      cases t with
      | nil =>
          show none = some r ↔ [] = c :: m ++ r
          simp
      | cons d t =>
          show (if c == d then m.isPrefixOf? t else none) = some r ↔ d :: t = c :: m ++ r
          by_cases h : c = d
          · simp [h, ih]
          · simp [h, Ne.symm h]

/-- Nothing is lost by a cut. -/
theorem eq_append_of_cut? {mark t before after : Text} (h : cut? mark t = some (before, after)) :
    t = before ++ mark ++ after := by
  induction t generalizing before after with
  | nil =>
      simp only [cut?] at h
      split at h <;> simp_all
  | cons c t ih =>
      simp only [cut?] at h
      split at h
      next r hr =>
        obtain ⟨rfl, rfl⟩ := Prod.mk.injEq _ _ _ _ ▸ Option.some.inj h
        simpa using isPrefixOf?_eq_some_iff.1 hr
      next =>
        obtain ⟨⟨b, a⟩, hba, hp⟩ := Option.map_eq_some_iff.1 h
        obtain ⟨rfl, rfl⟩ := Prod.mk.injEq _ _ _ _ ▸ hp
        simp [ih hba]

/-- The parts of a text between the occurrences of one character. -/
def pieces (separator : Char) : Text → List Text
  | [] => [[]]
  | c :: t =>
    if c = separator then [] :: pieces separator t
    else
      match pieces separator t with
      | [] => [[c]]
      | p :: ps => (c :: p) :: ps

/-- The texts in order with `separator` between each two of them. -/
def joinWith (separator : Text) : List Text → Text
  | [] => []
  | [t] => t
  | t :: ts => t ++ separator ++ joinWith separator ts

end TagTemplate.Text
