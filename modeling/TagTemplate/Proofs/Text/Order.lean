import TagTemplate.Proofs.Text.Utf8
import TagTemplate.Text.Order

/-!
# The order of texts and of their bytes

Texts are ordered as their bytes are: `order_eq_lt_iff`. The bytes of a
character hold its code point in digits to the base 64 behind a first byte that
grows with their number, so a smaller character has smaller bytes, whatever
follows them: `utf8EncodeChar_append_lt`.
-/

namespace TagTemplate.Text

variable {s t : Text}

theorem ofNat_lt_iff {m n : Nat} (hm : m < 256) (hn : n < 256) :
    UInt8.ofNat m < UInt8.ofNat n ↔ m < n := by
  rw [UInt8.lt_iff_toNat_lt, UInt8.toNat_ofNat_of_lt' hm, UInt8.toNat_ofNat_of_lt' hn]

theorem ofNat_eq_iff {m n : Nat} (hm : m < 256) (hn : n < 256) :
    UInt8.ofNat m = UInt8.ofNat n ↔ m = n := by
  rw [← UInt8.toNat_inj, UInt8.toNat_ofNat_of_lt' hm, UInt8.toNat_ofNat_of_lt' hn]

/-- **The bytes of a character** come before those of every later one, whatever follows them. -/
theorem utf8EncodeChar_append_lt {c d : Char} (h : c.toNat < d.toNat) (s t : List UInt8) :
    String.utf8EncodeChar c ++ s < String.utf8EncodeChar d ++ t := by
  have hc : c.toNat < 0xD800 ∨ 0xDFFF < c.toNat ∧ c.toNat < 0x110000 := c.valid
  have hd : d.toNat < 0xD800 ∨ 0xDFFF < d.toNat ∧ d.toNat < 0x110000 := d.valid
  generalize hv : c.toNat = v at h hc
  generalize hw : d.toNat = w at h hd
  have hcode : c.val.toNat = v := hv
  have hcode' : d.val.toNat = w := hw
  simp only [String.utf8EncodeChar, hcode, hcode']
  clear hcode hcode' hv hw
  have htop : v / 262144 < 8 := by omega
  have htop' : w / 262144 < 8 := by omega
  -- by the number of bytes of either
  repeat' split
  all_goals
    simp (disch := omega) only [List.cons_append, List.nil_append, List.cons_lt_cons_iff,
      ofNat_lt_iff, ofNat_eq_iff]
    omega

theorem bytes_cons (c : Char) (t : Text) : bytes (c :: t) = String.utf8EncodeChar c ++ bytes t :=
  List.flatMap_cons

theorem bytes_nil_lt_cons (c : Char) (t : Text) : bytes [] < bytes (c :: t) := by
  obtain ⟨b, bs, hbytes, -⟩ := exists_utf8EncodeChar c
  rw [bytes_cons, hbytes]
  exact List.nil_lt_cons b (bs ++ bytes t)

theorem order_swap (s t : Text) : order t s = (order s t).swap := by
  induction s generalizing t with
  | nil => cases t <;> rfl
  | cons c s ih =>
      cases t with
      | nil => rfl
      | cons d t =>
          rw [order, order]
          by_cases h : c = d
          · rw [if_pos h, if_pos h.symm, ih]
          · have hcode : c.toNat ≠ d.toNat := fun heq => h (Char.ext (UInt32.toNat_inj.1 heq))
            rw [if_neg h, if_neg (Ne.symm h)]
            by_cases hlt : c.toNat < d.toNat
            · rw [if_pos hlt, if_neg (by omega)]
              rfl
            · rw [if_neg hlt, if_pos (by omega)]
              rfl

theorem bytes_lt_of_order (h : order s t = .lt) : bytes s < bytes t := by
  induction s generalizing t with
  | nil =>
      cases t with
      | nil => cases h
      | cons d t => exact bytes_nil_lt_cons d t
  | cons c s ih =>
      cases t with
      | nil => cases h
      | cons d t =>
          rw [order] at h
          rw [bytes_cons, bytes_cons]
          split at h
          next heq =>
            rw [heq]
            exact List.append_left_lt (ih h)
          split at h
          next hlt => exact utf8EncodeChar_append_lt hlt _ _
          · cases h

/-- **The order of texts** is the order of their bytes. -/
theorem order_eq_lt_iff : order s t = .lt ↔ bytes s < bytes t := by
  refine ⟨bytes_lt_of_order, fun h => ?_⟩
  cases ho : order s t with
  | lt => rfl
  | eq =>
      rw [order_eq_iff.1 ho] at h
      exact absurd h (List.lt_irrefl _)
  | gt =>
      have hts : order t s = .lt := by
        rw [order_swap s t, ho]
        rfl
      exact absurd (bytes_lt_of_order hts) (List.lt_asymm h)

end TagTemplate.Text
