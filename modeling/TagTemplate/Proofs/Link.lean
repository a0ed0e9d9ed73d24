import TagTemplate.Link
import TagTemplate.Proofs.Bindings
import TagTemplate.Proofs.Text.Search
import TagTemplate.Proofs.Text.Utf8
import Mathlib.Data.List.Forall2

/-!
# Queries as encoders write them

An encoder of query strings writes a character as itself, as a plus sign if it
is a space, or as percent signs with the digits of its bytes, and may choose
anew for each character. `Encodes` leaves it every choice. A pretty link reads
back what was written: its path is made of the values, one for each key, in the
order in which the keys come first and with the value that a key has last:
`write_encoded`.
-/

namespace TagTemplate.Link

variable {reserved : List Char} {c d : Char} {n : Nat} {bs : List UInt8} {t u w rest : Text}
  {ps : List (Text × Text)} {segments : List Text}

/-! ## What an encoder may write -/

/-- A hexadecimal digit of either case and its value. -/
def HexDigit (c : Char) (n : Nat) : Prop :=
  "0123456789abcdef".toList[n]? = some c ∨ "0123456789ABCDEF".toList[n]? = some c

/-- Bytes written as percent signs with two digits each. -/
inductive Escapes : List UInt8 → Text → Prop where
  | nil : Escapes [] []
  | cons {b : UInt8} {bs : List UInt8} {high low : Char} {w : Text}
      (hhigh : HexDigit high (b.toNat / 16)) (hlow : HexDigit low (b.toNat % 16))
      (h : Escapes bs w) : Escapes (b :: bs) ('%' :: high :: low :: w)

/-- A character as it may be written where some characters are reserved. -/
inductive Writes (reserved : List Char) : Char → Text → Prop where
  | plain {c : Char} (h : c ∉ reserved) : Writes reserved c [c]
  | plus : Writes reserved ' ' ['+']
  | escaped {c : Char} {w : Text} (h : Escapes (String.utf8EncodeChar c) w) : Writes reserved c w

/-- A text written character by character. -/
inductive Encodes (reserved : List Char) : Text → Text → Prop where
  | nil : Encodes reserved [] []
  | cons {c : Char} {t u w : Text} (hc : Writes reserved c u) (h : Encodes reserved t w) :
      Encodes reserved (c :: t) (u ++ w)

/-- The characters that do not stand for themselves in a value. -/
def valueReserved : List Char := ['&', '+', '%']

/-- The characters that do not stand for themselves in a key. -/
def keyReserved : List Char := '=' :: valueReserved

/-- The segments of a query for some pairs, with empty ones anywhere. -/
inductive Segments : List (Text × Text) → List Text → Prop where
  | nil : Segments [] []
  | blank {ps : List (Text × Text)} {segments : List Text} (h : Segments ps segments) :
      Segments ps ([] :: segments)
  | pair {key value u w : Text} {ps : List (Text × Text)} {segments : List Text}
      (hkey : Encodes keyReserved key u) (hvalue : Encodes valueReserved value w)
      (h : Segments ps segments) : Segments ((key, value) :: ps) ((u ++ '=' :: w) :: segments)

/-! ## Decoding -/

theorem HexDigit.lt (h : HexDigit c n) : n < 16 := by
  rcases h with h | h
  · exact (List.getElem?_eq_some_iff.1 h).1
  · exact (List.getElem?_eq_some_iff.1 h).1

theorem HexDigit.hexValue? (h : HexDigit c n) : Text.hexValue? c = some n := by
  have hdigits : ∀ n < 16, ("0123456789abcdef".toList[n]?).bind Text.hexValue? = some n ∧
      ("0123456789ABCDEF".toList[n]?).bind Text.hexValue? = some n := by decide
  obtain ⟨hlower, hupper⟩ := hdigits n h.lt
  rcases h with h | h
  · rwa [h] at hlower
  · rwa [h] at hupper

theorem hexByte?_of_digits {b : UInt8} (hc : HexDigit c (b.toNat / 16))
    (hd : HexDigit d (b.toNat % 16)) : hexByte? c d = some b := by
  have hnumber : Text.hexNumber? 0 [c, d] = some b.toNat := by
    rw [Text.hexNumber?, hc.hexValue?]
    show Text.hexNumber? (16 * 0 + b.toNat / 16) [d] = _
    rw [Text.hexNumber?, hd.hexValue?]
    show some (16 * (16 * 0 + b.toNat / 16) + b.toNat % 16) = _
    congr 1
    omega
  rw [hexByte?, hnumber, Option.map_some, UInt8.ofNat_toNat]

theorem Escapes.unescape_append (h : Escapes bs w) (rest : Text) :
    unescape (w ++ rest) = bs ++ unescape rest := by
  induction h with
  | nil => rfl
  | cons hhigh hlow _ ih =>
      rw [List.cons_append, List.cons_append, List.cons_append, unescape,
        hexByte?_of_digits hhigh hlow]
      simp only
      rw [ih]
      rfl

/-- A character that does not begin an escape. -/
theorem unescape_cons (hc : c ≠ '%') (rest : Text) :
    unescape (c :: rest) = Text.bytes [if c = '+' then ' ' else c] ++ unescape rest := by
  rw [unescape]
  exact fun _ _ _ h => absurd h hc

theorem Writes.unescape_append (h : Writes reserved c u)
    (hreserved : ∀ c ∈ valueReserved, c ∈ reserved) (rest : Text) :
    unescape (u ++ rest) = String.utf8EncodeChar c ++ unescape rest := by
  cases h with
  | plain hc =>
      have hpercent : c ≠ '%' := by
        rintro rfl
        exact hc (hreserved '%' (by decide))
      have hplus : c ≠ '+' := by
        rintro rfl
        exact hc (hreserved '+' (by decide))
      rw [List.singleton_append, unescape_cons hpercent, if_neg hplus, Text.bytes,
        List.flatMap_singleton]
  | plus =>
      rw [List.singleton_append, unescape_cons (by decide), if_pos rfl, Text.bytes,
        List.flatMap_singleton]
  | escaped h => exact h.unescape_append rest

/-- What was encoded is decoded. -/
theorem Encodes.decode_eq (h : Encodes reserved t w)
    (hreserved : ∀ c ∈ valueReserved, c ∈ reserved) : decode w = t := by
  have hbytes : unescape w = Text.bytes t := by
    induction h with
    | nil => rfl
    | cons hc _ ih =>
        rw [hc.unescape_append hreserved, ih, Text.bytes, Text.bytes, List.flatMap_cons]
  rw [decode, hbytes, Text.ofBytesLossy_bytes]

/-! ## Separators -/

/-- Digits are no separators. -/
theorem HexDigit.ne_separator (h : HexDigit c n) : c ≠ '&' ∧ c ≠ '=' := by
  have hdigit := h.hexValue?
  constructor
  · rintro rfl
    rw [show Text.hexValue? '&' = none by decide] at hdigit
    cases hdigit
  · rintro rfl
    rw [show Text.hexValue? '=' = none by decide] at hdigit
    cases hdigit

theorem Escapes.not_mem (h : Escapes bs w) : '&' ∉ w ∧ '=' ∉ w := by
  induction h with
  | nil => exact ⟨List.not_mem_nil, List.not_mem_nil⟩
  | cons hhigh hlow _ ih =>
      obtain ⟨hh, hh'⟩ := hhigh.ne_separator
      obtain ⟨hl, hl'⟩ := hlow.ne_separator
      simp [ih, hh.symm, hh'.symm, hl.symm, hl'.symm]

theorem Encodes.not_mem (h : Encodes reserved t w) (hc : c = '&' ∨ c = '=') (hmem : c ∈ reserved) :
    c ∉ w := by
  induction h with
  | nil => exact List.not_mem_nil
  | cons hd _ ih =>
      refine fun h => (List.mem_append.1 h).elim (fun h => ?_) ih
      cases hd with
      | plain hplain =>
          rw [List.mem_singleton.1 h] at hmem
          exact hplain hmem
      | plus =>
          rw [List.mem_singleton.1 h] at hc
          exact absurd hc (by decide)
      | escaped hescape =>
          rcases hc with rfl | rfl
          · exact hescape.not_mem.1 h
          · exact hescape.not_mem.2 h

theorem pair_encoded {key value : Text} (hkey : Encodes keyReserved key u)
    (hvalue : Encodes valueReserved value w) : pair (u ++ '=' :: w) = (key, value) := by
  have hcut := Text.cut?_append_cons (hkey.not_mem (.inr rfl) (by decide)) w
  rw [pair, hcut]
  simp only
  rw [hkey.decode_eq fun c hc => List.mem_cons_of_mem _ hc, hvalue.decode_eq fun c hc => hc]

theorem Segments.not_mem (h : Segments ps segments) : ∀ s ∈ segments, '&' ∉ s := by
  induction h with
  | nil => exact fun s hs => absurd hs List.not_mem_nil
  | blank _ ih => exact List.forall_mem_cons.2 ⟨List.not_mem_nil, ih⟩
  | pair hkey hvalue _ ih =>
      refine List.forall_mem_cons.2 ⟨?_, ih⟩
      have hu := hkey.not_mem (.inl rfl) (by decide)
      have hw := hvalue.not_mem (.inl rfl) (by decide)
      simp [hu, hw]

/-- The pairs of a query are those that were written into it. -/
theorem Segments.pairs_eq (h : Segments ps segments) :
    pairs (['&'].intercalate segments) = ps := by
  have hsplit : Text.pieces '&' (['&'].intercalate segments) =
      if segments = [] then [[]] else segments := by
    rw [Text.pieces_eq_splitOn]
    split
    next hnil => rw [hnil]; rfl
    next hne => exact List.splitOn_intercalate '&' h.not_mem hne
  have hpairs : (segments.filter (!·.isEmpty)).map Link.pair = ps := by
    clear hsplit
    induction h with
    | nil => rfl
    | blank _ ih => exact ih
    | pair hkey hvalue _ ih =>
        rw [List.filter_cons, if_pos (by simp), List.map_cons, ih, pair_encoded hkey hvalue]
  rw [pairs, hsplit]
  split
  next hnil =>
    rw [hnil] at hpairs
    exact hpairs
  next hne => exact hpairs

/-! ## Pretty links -/

/-- **Pretty links read back** what an encoder wrote: behind the dot come the values of the query,
one for each key, in the order in which the keys come first, and of each key its last one. -/
theorem write_encoded {front : Text} (hfront : '?' ∉ front) (h : Segments ps segments) :
    ∃ values, List.Forall₂ (Bindings.Last ps) (ps.map Prod.fst).eraseDups values ∧
      write true (front ++ '?' :: ['&'].intercalate segments) =
        "./".toList ++ ['/'].intercalate values := by
  have hquery : query (front ++ '?' :: ['&'].intercalate segments) =
      ['&'].intercalate segments := by
    rw [query, Text.cut?_append_cons hfront]
  refine ⟨(Bindings.ofList ps).entries.map Prod.snd, ?_, ?_⟩
  · rw [← Bindings.keys_ofList, Bindings.keys, List.forall₂_map_left_iff,
      List.forall₂_map_right_iff, List.forall₂_same]
    exact fun e he => Bindings.last_of_mem_ofList he
  · rw [write, if_pos rfl, path, hquery, h.pairs_eq, Text.joinWith_eq_intercalate]

/-- A key in two spellings, a space as a plus sign, an empty segment and a separator in a value. -/
theorem write_encoded_of_spellings :
    let ps := [("é".toList, "a b".toList), ("k".toList, "1".toList), ("é".toList, "c&=".toList)]
    let segments := ["%C3%a9=a+b".toList, [], "k=1".toList, "é=c%26=".toList]
    let url := "./p?%C3%a9=a+b&&k=1&é=c%26=".toList
    '?' ∉ "./p".toList ∧ Segments ps segments ∧ write true url = "./c&=/1".toList ∧
      ∃ values, List.Forall₂ (Bindings.Last ps) (ps.map Prod.fst).eraseDups values ∧
        write true url = "./".toList ++ ['/'].intercalate values := by
  intro ps segments url
  have hfront : '?' ∉ "./p".toList := by decide
  have hplain : ∀ {reserved : List Char} {c : Char} {t w : Text}, c ∉ reserved →
      Encodes reserved t w → Encodes reserved (c :: t) (c :: w) :=
    fun hc h => .cons (.plain hc) h
  have hkey : Encodes keyReserved "é".toList "%C3%a9".toList := by
    have hescapes : Escapes (String.utf8EncodeChar 'é') "%C3%a9".toList :=
      .cons (.inr rfl) (.inl rfl) (.cons (.inl rfl) (.inl rfl) .nil)
    exact .cons (.escaped hescapes) .nil
  have hspace : Encodes valueReserved "a b".toList "a+b".toList :=
    hplain (by decide) (.cons .plus (hplain (by decide) .nil))
  have hseparators : Encodes valueReserved "c&=".toList "c%26=".toList := by
    have hescapes : Escapes (String.utf8EncodeChar '&') "%26".toList :=
      .cons (.inl rfl) (.inl rfl) .nil
    exact hplain (by decide) (.cons (.escaped hescapes) (hplain (by decide) .nil))
  have hsegments : Segments ps segments :=
    .pair hkey hspace (.blank (.pair (hplain (by decide) .nil) (hplain (by decide) .nil)
      (.pair (hplain (by decide) .nil) hseparators .nil)))
  have hurl : url = "./p".toList ++ '?' :: ['&'].intercalate segments := by decide +kernel
  refine ⟨hfront, hsegments, by decide +kernel, ?_⟩
  rw [hurl]
  exact write_encoded hfront hsegments

end TagTemplate.Link
