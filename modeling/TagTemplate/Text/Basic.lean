/-!
# Text and byte positions

Text is a list of characters, so that every definition on it is a recursion on
a list. Positions in text count UTF-8 bytes, the unit in which tags, blocks and
marked ranges are reported. A position that falls inside a character, or past
the end, has no text from there on: `from?` and `upTo?` say so, and `slice?`
says it of a range.
-/

namespace TagTemplate

/-- Characters in reading order. -/
abbrev Text := List Char

namespace Text

/-- Number of UTF-8 bytes of a text. -/
def size : Text → Nat
  | [] => 0
  | c :: t => c.utf8Size + size t

@[simp] theorem size_nil : size [] = 0 := rfl

@[simp] theorem size_cons (c : Char) (t : Text) : size (c :: t) = c.utf8Size + size t := rfl

@[simp] theorem size_append (s t : Text) : size (s ++ t) = size s + size t := by
  induction s with
  | nil => simp
  | cons c s ih => simp [ih, Nat.add_assoc]

theorem length_le_size (t : Text) : t.length ≤ size t := by
  induction t with
  | nil => simp
  | cons c t ih =>
      have := c.utf8Size_pos
      simp only [List.length_cons, size_cons]
      omega

/-- The text from byte `n` on. -/
def from? : Text → Nat → Option Text
  | t, 0 => some t
  | [], _ + 1 => none
  | c :: t, n + 1 => if c.utf8Size ≤ n + 1 then from? t (n + 1 - c.utf8Size) else none

/-- The first `n` bytes of a text. -/
def upTo? : Text → Nat → Option Text
  | _, 0 => some []
  | [], _ + 1 => none
  | c :: t, n + 1 =>
    if c.utf8Size ≤ n + 1 then (upTo? t (n + 1 - c.utf8Size)).map (c :: ·) else none

@[simp] theorem from?_zero (t : Text) : from? t 0 = some t := by cases t <;> rfl

@[simp] theorem upTo?_zero (t : Text) : upTo? t 0 = some [] := by cases t <;> rfl

theorem from?_append_size (s t : Text) : from? (s ++ t) (size s) = some t := by
  induction s with
  | nil => simp
  | cons c s ih =>
      have hc := c.utf8Size_pos
      obtain ⟨n, hn⟩ : ∃ n, c.utf8Size + size s = n + 1 := ⟨c.utf8Size + size s - 1, by omega⟩
      have hr : n + 1 - c.utf8Size = size s := by omega
      simp only [List.cons_append, size_cons, hn, from?, hr, ih, ite_eq_left_iff, reduceCtorEq]
      omega

theorem upTo?_append_size (s t : Text) : upTo? (s ++ t) (size s) = some s := by
  induction s with
  | nil => simp
  | cons c s ih =>
      have hc := c.utf8Size_pos
      obtain ⟨n, hn⟩ : ∃ n, c.utf8Size + size s = n + 1 := ⟨c.utf8Size + size s - 1, by omega⟩
      have hr : n + 1 - c.utf8Size = size s := by omega
      simp only [List.cons_append, size_cons, hn, upTo?, hr, ih, Option.map_some, ite_eq_left_iff,
        reduceCtorEq]
      omega

/-- What `from?` gives is the rest after some characters of exactly `n` bytes. -/
theorem from?_eq_some_iff {t r : Text} {n : Nat} :
    from? t n = some r ↔ ∃ s, t = s ++ r ∧ size s = n := by
  constructor
  · intro h
    induction t generalizing n with
    | nil =>
        cases n with
        | zero => simp at h; exact ⟨[], by simp [h]⟩
        | succ n => simp [from?] at h
    | cons c t ih =>
        cases n with
        | zero => simp at h; exact ⟨[], by simp [h]⟩
        | succ n =>
            simp only [from?] at h
            split at h
            · obtain ⟨s, rfl, hs⟩ := ih h
              exact ⟨c :: s, rfl, by simp only [size_cons]; omega⟩
            · cases h
  · rintro ⟨s, rfl, rfl⟩
    exact from?_append_size s r

/-- What `upTo?` gives is a beginning of the text of exactly `n` bytes. -/
theorem upTo?_eq_some_iff {t s : Text} {n : Nat} :
    upTo? t n = some s ↔ (∃ r, t = s ++ r) ∧ size s = n := by
  constructor
  · intro h
    induction t generalizing n s with
    | nil =>
        cases n with
        | zero => simp at h; subst h; exact ⟨⟨[], rfl⟩, rfl⟩
        | succ n => simp [upTo?] at h
    | cons c t ih =>
        cases n with
        | zero => simp at h; subst h; exact ⟨⟨c :: t, rfl⟩, rfl⟩
        | succ n =>
            simp only [upTo?] at h
            split at h
            · obtain ⟨u, hu, rfl⟩ := Option.map_eq_some_iff.1 h
              obtain ⟨⟨r, rfl⟩, hs⟩ := ih hu
              exact ⟨⟨r, rfl⟩, by simp only [size_cons]; omega⟩
            · cases h
  · rintro ⟨⟨r, rfl⟩, rfl⟩
    exact upTo?_append_size s r

end Text

/-- A range of bytes, from `start` up to but without `stop`. -/
structure Span where
  start : Nat
  stop : Nat
  deriving DecidableEq, Repr

namespace Span

/-- The range moved `n` bytes to the right. -/
def shift (s : Span) (n : Nat) : Span := ⟨s.start + n, s.stop + n⟩

/-- Two ranges that share a byte. -/
def overlaps (s t : Span) : Bool := s.start < t.stop && t.start < s.stop

end Span

namespace Text

/-- The characters of a byte range. Nothing if the range is reversed, leaves the text or has an
end inside a character. -/
def slice? (t : Text) (s : Span) : Option Text :=
  if s.start ≤ s.stop then (from? t s.start).bind (upTo? · (s.stop - s.start)) else none

/-- The characters of a byte range, empty where `slice?` finds none. -/
def slice (t : Text) (s : Span) : Text := (slice? t s).getD []

/-- The whole of a text as a range. -/
def span (t : Text) : Span := ⟨0, size t⟩

/-- A range has characters exactly if it stands between two parts of the text. -/
theorem slice?_eq_some_iff {t m : Text} {s : Span} :
    slice? t s = some m ↔
      ∃ a b, t = a ++ m ++ b ∧ s.start = size a ∧ s.stop = size a + size m := by
  constructor
  · intro h
    simp only [slice?] at h
    split at h
    · obtain ⟨r, hr, hm⟩ := Option.bind_eq_some_iff.1 h
      obtain ⟨a, rfl, ha⟩ := from?_eq_some_iff.1 hr
      obtain ⟨⟨b, rfl⟩, hm⟩ := upTo?_eq_some_iff.1 hm
      exact ⟨a, b, by simp, ha.symm, by omega⟩
    · cases h
  · rintro ⟨a, b, rfl, hs, ht⟩
    simp [slice?, hs, ht, from?_append_size, upTo?_append_size, List.append_assoc]

/-- A slice is no longer than the text it is taken from, and shorter if it starts after a byte. -/
theorem length_slice_lt {t : Text} {s : Span} (ht : t ≠ []) (hs : 0 < s.start) :
    (slice t s).length < t.length := by
  simp only [slice]
  cases h : slice? t s with
  | none => simpa using List.length_pos_iff.2 ht
  | some m =>
      obtain ⟨a, b, rfl, ha, -⟩ := slice?_eq_some_iff.1 h
      have : a ≠ [] := by rintro rfl; simp at ha; omega
      have := List.length_pos_iff.2 this
      simp only [Option.getD_some, List.length_append]
      omega

end Text

end TagTemplate
