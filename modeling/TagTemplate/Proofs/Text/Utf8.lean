import TagTemplate.Text.Utf8

/-!
# Text and its bytes

The bytes of a text are read as the text again. The bytes of one character are
one unit, whatever follows them, and so the units of a text's bytes are its
characters: `unitsFrom_bytes`. No other text has these bytes.
-/

namespace TagTemplate.Text

variable {value n v low high used : Nat} {ranges : List (Nat × Nat)} {bs rest : List UInt8}
  {result : Option Nat}

theorem follow_nil (h : value = v) : follow value [] bs = (some v, 0) := by
  rw [follow, h]

/-- A following byte in its range adds its six bits to the value. -/
theorem follow_cons (hlow : low ≤ n) (hhigh : n ≤ high) (hn : n < 256)
    (h : follow (value * 64 + (n - 0x80)) ranges bs = (result, used)) :
    follow value ((low, high) :: ranges) (UInt8.ofNat n :: bs) = (result, used + 1) := by
  have hbyte : (UInt8.ofNat n).toNat = n := UInt8.toNat_ofNat_of_lt' hn
  have hin : (decide (low ≤ n) && decide (n ≤ high)) = true := by
    simp [hlow, hhigh]
  rw [follow, hbyte, if_pos hin, h]

/-- The unit of a first byte and the bytes that it wants. -/
theorem firstUnit_of_leading (hlead : leading? n = some (value, ranges)) (hn : n < 256)
    (h : follow value ranges bs = (some v, used)) :
    firstUnit (UInt8.ofNat n) bs = (some (Char.ofNat v), used) := by
  rw [firstUnit, UInt8.toNat_ofNat_of_lt' hn, hlead]
  simp only [h, Option.map_some]

theorem leading?_of_two (hlow : 0xC2 ≤ n) (hhigh : n < 0xE0) :
    leading? n = some (n - 0xC0, [(0x80, 0xBF)]) := by
  rw [leading?, if_neg (by omega), if_neg (by omega), if_pos hhigh]

theorem leading?_of_three (hlow : 0xE0 ≤ n) (hhigh : n < 0xF0) :
    leading? n = some (n - 0xE0,
      [(if n = 0xE0 then 0xA0 else 0x80, if n = 0xED then 0x9F else 0xBF), (0x80, 0xBF)]) := by
  rw [leading?, if_neg (by omega), if_neg (by omega), if_neg (by omega)]
  by_cases hfirst : n = 0xE0
  · rw [hfirst]
    rfl
  by_cases hlast : n = 0xED
  · rw [hlast]
    rfl
  · rw [if_neg hfirst, if_neg hlast, if_pos hhigh, if_neg hfirst, if_neg hlast]

theorem leading?_of_four (hlow : 0xF0 ≤ n) (hhigh : n ≤ 0xF4) :
    leading? n = some (n - 0xF0,
      [(if n = 0xF0 then 0x90 else 0x80, if n = 0xF4 then 0x8F else 0xBF), (0x80, 0xBF),
        (0x80, 0xBF)]) := by
  rw [leading?, if_neg (by omega), if_neg (by omega), if_neg (by omega), if_neg (by omega),
    if_neg (by omega), if_neg (by omega)]
  by_cases hfirst : n = 0xF0
  · rw [hfirst]
    rfl
  by_cases hlast : n = 0xF4
  · rw [hlast]
    rfl
  · rw [if_neg hfirst, if_pos (by omega), if_neg hfirst, if_neg hlast]

/-- **The bytes of a character** are one unit, that character, whatever follows. -/
theorem exists_utf8EncodeChar (c : Char) :
    ∃ b bs, String.utf8EncodeChar c = b :: bs ∧
      ∀ rest, firstUnit b (bs ++ rest) = (some c, bs.length) := by
  have hc : Char.ofNat c.toNat = c := Char.ofNat_toNat c
  have hvalid : c.toNat < 0xD800 ∨ 0xDFFF < c.toNat ∧ c.toNat < 0x110000 := c.valid
  generalize hv : c.toNat = v at hc hvalid
  have hcode : c.val.toNat = v := hv
  simp only [String.utf8EncodeChar, hcode]
  split
  next hone =>
    refine ⟨_, _, rfl, fun rest => ?_⟩
    have hlead : leading? v = some (v, []) := by rw [leading?, if_pos (by omega)]
    rw [← hc]
    exact firstUnit_of_leading hlead (by omega) rfl
  split
  next hone htwo =>
    refine ⟨_, _, rfl, fun rest => ?_⟩
    rw [← hc]
    refine firstUnit_of_leading (leading?_of_two (by omega) (by omega)) (by omega) ?_
    refine follow_cons (by omega) (by omega) (by omega) ?_
    exact follow_nil (by omega)
  split
  next hone htwo hthree =>
    refine ⟨_, _, rfl, fun rest => ?_⟩
    rw [← hc]
    refine firstUnit_of_leading (leading?_of_three (by omega) (by omega)) (by omega) ?_
    refine follow_cons (by split <;> omega) (by split <;> omega) (by omega) ?_
    refine follow_cons (by omega) (by omega) (by omega) ?_
    exact follow_nil (by omega)
  next hone htwo hthree =>
    refine ⟨_, _, rfl, fun rest => ?_⟩
    rw [← hc]
    refine firstUnit_of_leading (leading?_of_four (by omega) (by omega)) (by omega) ?_
    refine follow_cons (by split <;> omega) (by split <;> omega) (by omega) ?_
    refine follow_cons (by omega) (by omega) (by omega) ?_
    refine follow_cons (by omega) (by omega) (by omega) ?_
    exact follow_nil (by omega)

theorem unitsFrom_append (bs rest : List UInt8) :
    unitsFrom bs.length (bs ++ rest) = unitsFrom 0 rest := by
  induction bs with
  | nil => rfl
  | cons b bs ih => exact ih

/-- **The bytes of a text** are read as its characters. -/
theorem unitsFrom_bytes (t : Text) : unitsFrom 0 (bytes t) = t.map some := by
  induction t with
  | nil => rfl
  | cons c t ih =>
      obtain ⟨b, bs, hbytes, hunit⟩ := exists_utf8EncodeChar c
      have hcons : bytes (c :: t) = b :: (bs ++ bytes t) := by
        rw [bytes, List.flatMap_cons, hbytes]
        rfl
      rw [hcons, unitsFrom, hunit]
      simp only
      rw [unitsFrom_append, ih, List.map_cons]

theorem ofBytesLossy_bytes (t : Text) : ofBytesLossy (bytes t) = t := by
  rw [ofBytesLossy, unitsFrom_bytes, List.map_map]
  exact List.map_id t

theorem bytes_injective {s t : Text} (h : bytes s = bytes t) : s = t := by
  rw [← ofBytesLossy_bytes s, h, ofBytesLossy_bytes]

end TagTemplate.Text
