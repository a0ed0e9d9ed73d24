import Mathlib.Data.List.Forall2

/-!
# Computations that may fail

A computation that is made of others fails as the first of them that does. For
a traversal, which makes a step for one element of a list after the other, this
is the first step that fails; if none does, the results are those of the steps.
-/

namespace TagTemplate.Fallible

variable {α β ε : Type} {e : ε}

/-! ## One behind the other -/

section

variable {r : Except ε α} {b : β}

theorem bind_eq_ok_iff {f : α → Except ε β} : r.bind f = .ok b ↔ ∃ a, r = .ok a ∧ f a = .ok b := by
  cases r <;> simp [Except.bind]

theorem bind_eq_error_iff {f : α → Except ε β} :
    r.bind f = .error e ↔ r = .error e ∨ ∃ a, r = .ok a ∧ f a = .error e := by
  cases r <;> simp [Except.bind]

theorem map_eq_ok_iff {f : α → β} : r.map f = .ok b ↔ ∃ a, r = .ok a ∧ f a = b := by
  cases r <;> simp [Except.map]

theorem map_eq_error_iff {f : α → β} : r.map f = .error e ↔ r = .error e := by
  cases r <;> simp [Except.map]

theorem exists_map_iff {f : α → β} : (∃ b, r.map f = .ok b) ↔ ∃ a, r = .ok a := by
  cases r <;> simp [Except.map]

end

/-! ## Traversals -/

variable {f g : α → Except ε β} {l : List α}

theorem mapM_congr (h : ∀ a ∈ l, f a = g a) : l.mapM f = l.mapM g := by
  induction l with
  | nil => rfl
  | cons a l ih =>
      rw [List.mapM_cons, List.mapM_cons, h a (by simp), ih fun a' ha' => h a' (by simp [ha'])]

/-- A traversal succeeds if each of its steps does. -/
theorem mapM_eq_ok_iff {l' : List β} :
    l.mapM f = .ok l' ↔ List.Forall₂ (fun a b => f a = .ok b) l l' := by
  induction l generalizing l' with
  | nil =>
      rw [List.mapM_nil, List.forall₂_nil_left_iff]
      exact ⟨fun h => (Except.ok.inj h).symm, fun h => congrArg _ h.symm⟩
  | cons a l ih =>
      rw [List.mapM_cons, List.forall₂_cons_left_iff]
      constructor
      · intro h
        cases ha : f a with
        | error e =>
            rw [ha] at h
            cases h
        | ok b =>
            cases hl : l.mapM f with
            | error e =>
                rw [ha, hl] at h
                cases h
            | ok bs =>
                rw [ha, hl] at h
                cases h
                exact ⟨b, bs, rfl, ih.1 hl, rfl⟩
      · intro hex
        obtain ⟨b, bs, ha, hl, rfl⟩ := hex
        rw [ha, ih.2 hl]
        rfl

/-- The results of a traversal are related to the elements if those of its steps are. -/
theorem mapM_eq_ok_iff_of_forall {R : β → α → Prop} {bs : List β}
    (h : ∀ a ∈ l, ∀ b, f a = .ok b ↔ R b a) : l.mapM f = .ok bs ↔ List.Forall₂ R bs l := by
  rw [mapM_eq_ok_iff]
  induction l generalizing bs with
  | nil => rw [List.forall₂_nil_left_iff, List.forall₂_nil_right_iff]
  | cons a l ih =>
      obtain ⟨ha, hl⟩ := List.forall_mem_cons.1 h
      rw [List.forall₂_cons_left_iff, List.forall₂_cons_right_iff]
      simp only [ha, ih hl]

theorem exists_mapM_iff : (∃ bs, l.mapM f = .ok bs) ↔ ∀ a ∈ l, ∃ b, f a = .ok b := by
  simp only [mapM_eq_ok_iff]
  induction l with
  | nil => exact ⟨fun _ => nofun, fun _ => ⟨[], .nil⟩⟩
  | cons a l ih =>
      rw [List.forall_mem_cons, ← ih]
      constructor
      · rintro ⟨_, hb | ⟨hb, hbs⟩⟩
        exact ⟨⟨_, hb⟩, _, hbs⟩
      · rintro ⟨⟨b, hb⟩, bs, hbs⟩
        exact ⟨b :: bs, .cons hb hbs⟩

/-- A traversal whose steps succeed where `P` holds comes to `a` with `front` behind it. -/
def Reaches (P : α → Prop) (l front : List α) (a : α) : Prop :=
  (∃ back, l = front ++ a :: back) ∧ ∀ x ∈ front, P x

/-- Two lists have the same front, with `a` in the one and `a'` in the other behind it. -/
def SameFront {α : Type} (l l' front : List α) (a a' : α) : Prop :=
  (∃ back, l = front ++ a :: back) ∧ ∃ back', l' = front ++ a' :: back'

theorem reaches_cons_iff {P : α → Prop} {front : List α} {a x : α} :
    Reaches P (a :: l) front x ↔
      front = [] ∧ a = x ∨ ∃ front', front = a :: front' ∧ P a ∧ Reaches P l front' x := by
  constructor
  · rintro ⟨⟨back, hl⟩, hfront⟩
    cases front with
    | nil => exact .inl ⟨rfl, (List.cons.inj hl).1⟩
    | cons y front =>
        obtain ⟨rfl, rfl⟩ := List.cons.inj hl
        obtain ⟨hy, hfront⟩ := List.forall_mem_cons.1 hfront
        exact .inr ⟨front, rfl, hy, ⟨back, rfl⟩, hfront⟩
  · rintro (⟨rfl, rfl⟩ | ⟨front', rfl, ha, ⟨back, rfl⟩, hfront⟩)
    · exact ⟨⟨l, rfl⟩, nofun⟩
    · exact ⟨⟨back, rfl⟩, List.forall_mem_cons.2 ⟨ha, hfront⟩⟩

section Reaches

variable {P : α → Prop} {front : List α} {a x : α} {i : Nat}

theorem Reaches.mem (h : Reaches P l front a) : a ∈ l := by
  obtain ⟨⟨back, rfl⟩, -⟩ := h
  exact List.mem_append_right front List.mem_cons_self

theorem Reaches.getElem? (h : Reaches P l front a) : l[front.length]? = some a := by
  obtain ⟨⟨back, rfl⟩, -⟩ := h
  simp

/-- An element is in front of the one that a traversal comes to, or this one, or behind it. -/
theorem Reaches.index_cases (h : Reaches P l front a) (hi : l[i]? = some x) :
    P x ∨ i = front.length ∧ x = a ∨ front.length < i := by
  obtain ⟨⟨back, rfl⟩, hfront⟩ := h
  rcases Nat.lt_trichotomy i front.length with hlt | rfl | hgt
  · rw [List.getElem?_append_left hlt] at hi
    exact .inl (hfront _ (List.mem_of_getElem? hi))
  · rw [List.getElem?_append_right (Nat.le_refl _), Nat.sub_self] at hi
    exact .inr (.inl ⟨rfl, (Option.some.inj hi).symm⟩)
  · exact .inr (.inr hgt)

/-- Lists with the same front are traversed alike. -/
theorem Reaches.of_same_length {l' done : List α} {b b' : α} (h : Reaches P l front a)
    (hsame : SameFront l l' done b b') (hlength : front.length = done.length) :
    a = b ∧ Reaches P l' front b' := by
  obtain ⟨⟨back, rfl⟩, hfront⟩ := h
  obtain ⟨⟨back₁, hl⟩, back', rfl⟩ := hsame
  obtain ⟨rfl, hrest⟩ := List.append_inj hl hlength
  exact ⟨(List.cons.inj hrest).1, ⟨back', rfl⟩, hfront⟩

end Reaches

/-- A traversal fails as the first step that fails, whatever is behind it. -/
theorem mapM_eq_error_iff :
    l.mapM f = .error e ↔
      ∃ front a, Reaches (fun x => ∃ b, f x = .ok b) l front a ∧ f a = .error e := by
  induction l with
  | nil =>
      refine ⟨nofun, ?_⟩
      rintro ⟨front, a, ⟨⟨back, hl⟩, -⟩, -⟩
      exact absurd hl.symm (List.append_ne_nil_of_right_ne_nil _ (List.cons_ne_nil a back))
  | cons a l ih =>
      rw [List.mapM_cons]
      simp only [reaches_cons_iff]
      cases ha : f a with
      | error e' =>
          constructor
          · rintro ⟨⟩
            exact ⟨[], a, .inl ⟨rfl, rfl⟩, ha⟩
          · rintro ⟨front, x, ⟨-, rfl⟩ | ⟨_, -, ⟨b, hb⟩, -⟩, hx⟩
            · obtain rfl := Except.error.inj (ha.symm.trans hx)
              rfl
            · cases hb
      | ok b =>
          have hrest : (do let bs ← l.mapM f; pure (b :: bs)) = .error e ↔ l.mapM f = .error e := by
            cases l.mapM f <;> simp [bind, Except.bind, pure, Except.pure]
          refine hrest.trans (ih.trans ?_)
          constructor
          · rintro ⟨front, x, hreach, hx⟩
            exact ⟨a :: front, x, .inr ⟨front, rfl, ⟨b, rfl⟩, hreach⟩, hx⟩
          · rintro ⟨front, x, ⟨-, rfl⟩ | ⟨front', -, -, hreach⟩, hx⟩
            · exact absurd (ha.symm.trans hx) nofun
            · exact ⟨front', x, hreach, hx⟩

/-! ## Steps that may give nothing -/

/-- A traversal has a result if each of its steps has one, be it a failure. -/
theorem mapM_total {f : α → ExceptT ε Option β} {g : α → Except ε β}
    (h : ∀ a ∈ l, f a = ExceptT.mk (some (g a))) : (l.mapM f).run = some (l.mapM g) := by
  induction l with
  | nil => rfl
  | cons a l ih =>
      obtain ⟨ha, hl⟩ := List.forall_mem_cons.1 h
      rw [List.mapM_cons, List.mapM_cons, ha, ExceptT.run_bind, ExceptT.run_mk,
        Option.bind_eq_bind, Option.bind_some]
      cases g a with
      | error e => rfl
      | ok b =>
          dsimp only
          rw [ExceptT.run_bind, ih hl, Option.bind_eq_bind, Option.bind_some]
          cases l.mapM g <;> rfl

end TagTemplate.Fallible
