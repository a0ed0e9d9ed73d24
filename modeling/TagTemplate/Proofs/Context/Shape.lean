import TagTemplate.Proofs.Context.Outline

/-!
# Contexts of one shape

Two contexts have the same shape if they differ in the contents of their
scalars alone: the same keys are bound, to scalars or to rows in both, a key is
true in both or in none, there are as many rows with the same fields, and a
scalar is printed as nothing in both or in none. What a template can find out
about a context without printing it is its shape.
-/

namespace TagTemplate

/-- Texts that are both empty or both not. -/
def Text.Alike (t t' : Text) : Prop := t = [] ↔ t' = []

instance (t t' : Text) : Decidable (Text.Alike t t') :=
  inferInstanceAs (Decidable (t = [] ↔ t' = []))

/-- Scalars that are printed as nothing, both or none of them. -/
def Scalar.Alike (s s' : Scalar) : Prop := Text.Alike s.render s'.render

instance (s s' : Scalar) : Decidable (Scalar.Alike s s') :=
  inferInstanceAs (Decidable (Text.Alike s.render s'.render))

/-- Rows with the same fields. -/
def Row.SameShape (r r' : Row) : Prop :=
  ∀ key, Option.Rel Scalar.Alike (r.find? key) (r'.find? key)

/-- Values that a key is bound to in contexts of the same shape. -/
inductive Value.SameShape : Value → Value → Prop where
  | scalar {s s' : Scalar} (truthy : s.isTruthy = s'.isTruthy) (alike : s.Alike s') :
      SameShape (.scalar s) (.scalar s')
  | rows {rs rs' : List Row} (alike : List.Forall₂ Row.SameShape rs rs') :
      SameShape (.rows rs) (.rows rs')

/-- Contexts with the same keys, bound to values of the same shape. -/
def Context.SameShape (c c' : Context) : Prop :=
  ∀ key, Option.Rel Value.SameShape (c.find? key) (c'.find? key)

/-! ## Shape and outline -/

theorem Row.SameShape.matched {r r' : Row} (h : r.SameShape r') : Row.Matched Text.Alike r r' := by
  intro key
  have hkey := h key
  rw [Row.value, Row.value]
  generalize r.find? key = s, r'.find? key = s' at hkey
  cases hkey with
  | none => exact .none
  | some hs => exact .some hs

theorem Value.SameShape.matched {v v' : Value} (h : v.SameShape v') :
    v.Matched Text.Alike v' := by
  cases h with
  | scalar truthy alike => exact .scalar truthy alike
  | rows alike => exact .rows (alike.imp fun _ _ => Row.SameShape.matched)

namespace Context.SameShape

variable {c c' : Context}

/-- Contexts of one shape have one outline, and are printed as nothing in the same places. -/
theorem matched (h : c.SameShape c') : c.Matched Text.Alike c' :=
  fun key => rel_of_some (h key) fun _ _ _ _ => Value.SameShape.matched

theorem isTruthy_eq (h : c.SameShape c') (key : Text) : c.isTruthy key = c'.isTruthy key :=
  h.matched.isTruthy_eq key

end Context.SameShape

/-- A context with one key. -/
def Context.single (key : Text) (s : Scalar) : Context :=
  ⟨[(key, .scalar s)], List.nodup_singleton key⟩

theorem Context.matched_single {R : Text → Text → Prop} (key : Text) {s s' : Scalar}
    (htruthy : s.isTruthy = s'.isTruthy) (hrelated : R s.render s'.render) :
    (Context.single key s).Matched R (Context.single key s') := by
  intro k
  show Option.Rel _ (if key = k then _ else none) (if key = k then _ else none)
  by_cases hk : key = k
  · rw [if_pos hk, if_pos hk]
    exact .some (.scalar htruthy hrelated)
  · rw [if_neg hk, if_neg hk]
    exact .none

theorem Context.sameShape_single (key : Text) {s s' : Scalar} (htruthy : s.isTruthy = s'.isTruthy)
    (halike : s.Alike s') : (Context.single key s).SameShape (Context.single key s') := by
  intro k
  show Option.Rel _ (if key = k then _ else none) (if key = k then _ else none)
  by_cases hk : key = k
  · rw [if_pos hk, if_pos hk]
    exact .some (.scalar htruthy halike)
  · rw [if_neg hk, if_neg hk]
    exact .none

end TagTemplate
