import TagTemplate.Text.Search

/-!
# What a search finds

`cut?` finds the first occurrence of its mark: no occurrence begins before the
one it cuts at. So it only depends on the text up to there, and `contains` says
whether there is an occurrence at all.
-/

namespace TagTemplate.Text

theorem size_eq_zero_iff {t : Text} : size t = 0 ↔ t = [] := by
  constructor
  · intro h
    have := length_le_size t
    exact List.length_eq_zero_iff.1 (by omega)
  · intro heq
    subst heq
    rfl

/-- A cut is made at the first occurrence of the mark. -/
theorem cut?_eq_some_iff {mark t a b : Text} :
    cut? mark t = some (a, b) ↔
      t = a ++ mark ++ b ∧ ∀ x y, t = x ++ mark ++ y → a.length ≤ x.length := by
  induction t generalizing a with
  | nil =>
      by_cases hm : mark = []
      · subst hm
        simp only [cut?, List.isEmpty_nil, if_true, Option.some.injEq, Prod.mk.injEq,
          List.append_nil]
        constructor
        · intro hex
          obtain ⟨rfl, rfl⟩ := hex
          exact ⟨rfl, by simp⟩
        · intro hboth
          obtain ⟨h, -⟩ := hboth
          obtain ⟨rfl, rfl⟩ := List.append_eq_nil_iff.1 h.symm
          exact ⟨rfl, rfl⟩
      · simp [cut?, hm]
  | cons c t ih =>
      simp only [cut?]
      split
      next r hr =>
        have ht := isPrefixOf?_eq_some_iff.1 hr
        simp only [Option.some.injEq, Prod.mk.injEq]
        constructor
        · intro hex
          obtain ⟨rfl, rfl⟩ := hex
          exact ⟨ht, by simp⟩
        · intro hboth
          obtain ⟨h, hfirst⟩ := hboth
          have ha : a = [] := List.length_eq_zero_iff.1 (Nat.le_zero.1 (hfirst [] r ht))
          subst ha
          exact ⟨rfl, List.append_cancel_left (ht.symm.trans h)⟩
      next hr =>
        have hno : ∀ y, c :: t ≠ mark ++ y := by
          intro y h
          rw [isPrefixOf?_eq_some_iff.2 h] at hr
          cases hr
        constructor
        · intro h
          obtain ⟨⟨a', b'⟩, hab, heq⟩ := Option.map_eq_some_iff.1 h
          simp only [Prod.mk.injEq] at heq
          obtain ⟨rfl, rfl⟩ := heq
          obtain ⟨rfl, hfirst⟩ := ih.1 hab
          refine ⟨rfl, ?_⟩
          intro x y hxy
          cases x with
          | nil => exact absurd hxy (hno y)
          | cons d x =>
              have := hfirst x y (List.cons.inj hxy).2
              simpa using this
        · intro hboth
          obtain ⟨h, hfirst⟩ := hboth
          cases a with
          | nil => exact absurd h (hno b)
          | cons d a =>
              obtain ⟨rfl, ht⟩ := List.cons.inj h
              have hcut : cut? mark t = some (a, b) := by
                refine ih.2 ⟨ht, ?_⟩
                intro x y hxy
                have := hfirst (c :: x) y (by rw [hxy]; rfl)
                simpa using this
              rw [hcut]
              rfl

/-- A cut is made in the same place if more text follows. -/
theorem cut?_append_right {mark s a b : Text} (h : cut? mark s = some (a, b)) (t : Text) :
    cut? mark (s ++ t) = some (a, b ++ t) := by
  obtain ⟨rfl, hfirst⟩ := cut?_eq_some_iff.1 h
  refine cut?_eq_some_iff.2 ⟨List.append_assoc .., fun x y hxy => ?_⟩
  rcases Nat.lt_or_ge x.length a.length with hlt | hge
  · -- an earlier occurrence would end before the text that follows
    have hp : x ++ mark <+: a ++ mark ++ b := by
      refine List.prefix_of_prefix_length_le ⟨y, hxy.symm⟩ ⟨t, rfl⟩ ?_
      simp only [List.length_append]
      omega
    obtain ⟨z, hz⟩ := hp
    exact hfirst x z hz.symm
  · exact hge

theorem contains_iff {mark t : Text} : contains mark t = true ↔ ∃ a b, t = a ++ mark ++ b := by
  constructor
  · intro h
    obtain ⟨⟨a, b⟩, hab⟩ := Option.isSome_iff_exists.1 h
    exact ⟨a, b, eq_append_of_cut? hab⟩
  · intro hex
    obtain ⟨a, b, rfl⟩ := hex
    induction a with
    | nil =>
        cases hm : mark ++ b with
        | nil =>
            obtain ⟨rfl, rfl⟩ := List.append_eq_nil_iff.1 hm
            rfl
        | cons c t =>
            have := isPrefixOf?_eq_some_iff.2 hm.symm
            simp [contains, cut?, hm, this]
    | cons c a ih =>
        simp only [contains, List.cons_append, cut?]
        split
        · rfl
        · simpa [contains] using ih

theorem contains_iff_infix {mark t : Text} : contains mark t = true ↔ mark <:+: t := by
  rw [contains_iff]
  exact ⟨fun ⟨a, b, h⟩ => ⟨a, b, h.symm⟩, fun ⟨a, b, h⟩ => ⟨a, b, h.symm⟩⟩

theorem cut?_ne_none {mark t : Text} (h : ∃ a b, t = a ++ mark ++ b) : cut? mark t ≠ none := by
  have hcontains := contains_iff.2 h
  exact Option.isSome_iff_ne_none.1 hcontains

/-- A mark is not found in front of its first character. -/
theorem cut?_append_of_not_mem {c : Char} {m p : Text} (hp : c ∉ p) (t : Text) :
    cut? (c :: m) (p ++ t) = (cut? (c :: m) t).map fun (before, after) => (p ++ before, after) := by
  induction p with
  | nil => simp
  | cons d p ih =>
      obtain ⟨hd, hp⟩ := not_or.1 fun h => hp (List.mem_cons.2 h)
      have hno : (c :: m).isPrefixOf? (d :: (p ++ t)) = none := by
        show (if c == d then _ else none) = none
        rw [if_neg (by simpa using hd)]
      rw [List.cons_append, cut?, hno]
      show (cut? (c :: m) (p ++ t)).map _ = _
      rw [ih hp, Option.map_map]
      rfl

/-- The parts of a text at the first occurrence of a character. -/
theorem cut?_append_cons {c : Char} {p : Text} (hp : c ∉ p) (t : Text) :
    cut? [c] (p ++ c :: t) = some (p, t) := by
  have hhead : [c].isPrefixOf? (c :: t) = some t := isPrefixOf?_eq_some_iff.2 rfl
  rw [cut?_append_of_not_mem hp, cut?, hhead]
  show some (p ++ [], t) = _
  rw [List.append_nil]

theorem contains_append_of_not_mem {c : Char} {m p : Text} (hp : c ∉ p) (t : Text) :
    contains (c :: m) (p ++ t) = contains (c :: m) t := by
  rw [contains, contains, cut?_append_of_not_mem hp, Option.isSome_map]

/-- Cutting into pieces is the splitting of lists. -/
theorem pieces_eq_splitOn (separator : Char) (t : Text) :
    pieces separator t = t.splitOn separator := by
  rw [List.splitOn_eq_splitOnP]
  induction t with
  | nil => rfl
  | cons c t ih =>
      obtain ⟨p, ps, hpieces⟩ := List.exists_cons_of_ne_nil
        (List.splitOnP_ne_nil (fun d => d == separator) t)
      rw [pieces, List.splitOnP_cons_eq_if_modifyHead, ih, hpieces]
      by_cases h : c = separator
      · rw [if_pos h, if_pos (beq_iff_eq.2 h)]
      · rw [if_neg h, if_neg (by simpa using h)]
        rfl

/-- Joining puts the separator between the texts. -/
theorem joinWith_eq_intercalate (separator : Text) (ts : List Text) :
    joinWith separator ts = separator.intercalate ts := by
  fun_induction joinWith separator ts with
  | case1 => rfl
  | case2 t => rw [List.intercalate_singleton]
  | case3 t ts hts ih => rw [ih, List.intercalate_cons_of_ne_nil hts]

end TagTemplate.Text
