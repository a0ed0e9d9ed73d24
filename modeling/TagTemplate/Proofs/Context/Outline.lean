import TagTemplate.Proofs.Marked.Filling
import Mathlib.Data.List.Forall2

/-!
# Contexts of one outline

What a template can ask of a context without printing it is its outline: which
keys it binds, to scalars or to rows, which keys are true, how many rows there
are and which fields they have. Contexts of one outline differ in what their
scalars are printed as. Scalars in the same place face each other, and how the
contexts differ is how the texts that face each other do: `Matched R` says that
all of them are related by `R`.
-/

namespace TagTemplate

/-- A relation between optional values, told what the values are. -/
theorem rel_of_some {α β : Type} {R S : α → β → Prop} {x : Option α} {y : Option β}
    (h : Option.Rel S x y) (hR : ∀ a b, x = some a → y = some b → S a b → R a b) :
    Option.Rel R x y := by
  cases h with
  | none => exact .none
  | some hab => exact .some (hR _ _ rfl rfl hab)

section

variable (R : Text → Text → Prop)

/-- Rows with the same fields, printed as texts that are related. -/
def Row.Matched (r r' : Row) : Prop := ∀ key, Option.Rel R (r.value key) (r'.value key)

/-- Values of one outline, printed as texts that are related. -/
inductive Value.Matched : Value → Value → Prop where
  | scalar {s s' : Scalar} (truthy : s.isTruthy = s'.isTruthy) (related : R s.render s'.render) :
      Matched (.scalar s) (.scalar s')
  | rows {rs rs' : List Row} (matched : List.Forall₂ (Row.Matched R) rs rs') :
      Matched (.rows rs) (.rows rs')

/-- Contexts of one outline, whose scalars are printed as texts that are related. -/
def Context.Matched (c c' : Context) : Prop :=
  ∀ key, Option.Rel (Value.Matched R) (c.find? key) (c'.find? key)

end

/-- Contexts that differ in what their scalars are printed as and in nothing else. -/
abbrev Context.SameOutline (c c' : Context) : Prop := c.Matched (fun _ _ => True) c'

/-- The texts that scalars in the same place of two contexts are printed as: those of a key, or
those of a field of a row. -/
inductive Context.Facing (c c' : Context) : Text → Text → Prop where
  | key {k t t' : Text} (h : c.value k = some t) (h' : c'.value k = some t') : Facing c c' t t'
  | field {k field t t' : Text} {i : Nat} {r r' : Row} (hrow : (c.rows k)[i]? = some r)
      (hrow' : (c'.rows k)[i]? = some r') (h : r.value field = some t)
      (h' : r'.value field = some t') : Facing c c' t t'

theorem Value.Matched.isTruthy_eq {R : Text → Text → Prop} {v v' : Value}
    (h : v.Matched R v') : v.isTruthy = v'.isTruthy := by
  cases h with
  | scalar truthy _ => exact truthy
  | rows matched =>
      cases matched with
      | nil => rfl
      | cons _ _ => rfl

namespace Context

variable {R : Text → Text → Prop} {c c' : Context}

namespace Matched

theorem isTruthy_eq (h : c.Matched R c') (key : Text) : c.isTruthy key = c'.isTruthy key := by
  have hkey := h key
  rw [Context.isTruthy, Context.isTruthy]
  generalize c.find? key = v, c'.find? key = v' at hkey
  cases hkey with
  | none => rfl
  | some hv => exact hv.isTruthy_eq

theorem rows (h : c.Matched R c') (key : Text) :
    List.Forall₂ (Row.Matched R) (c.rows key) (c'.rows key) := by
  have hkey := h key
  rw [Context.rows, Context.rows]
  generalize c.find? key = v, c'.find? key = v' at hkey
  cases hkey with
  | none => exact .nil
  | some hv =>
      cases hv with
      | scalar _ _ => exact .nil
      | rows matched => exact matched

theorem value (h : c.Matched R c') (key : Text) :
    Option.Rel R (c.value key) (c'.value key) := by
  have hkey := h key
  rw [Context.value, Context.value, Context.scalar?, Context.scalar?]
  generalize c.find? key = v, c'.find? key = v' at hkey
  cases hkey with
  | none => exact .none
  | some hv =>
      cases hv with
      | scalar _ related => exact .some related
      | rows _ => exact .none

end Matched

/-! ## What faces what -/

theorem Facing.symm {t t' : Text} (h : c.Facing c' t t') : c'.Facing c t' t := by
  cases h with
  | key h h' => exact .key h' h
  | field hrow hrow' h h' => exact .field hrow' hrow h' h

theorem SameOutline.symm (h : c.SameOutline c') : c'.SameOutline c := by
  have hrow : ∀ {r r' : Row}, Row.Matched (fun _ _ => True) r r' →
      Row.Matched (fun _ _ => True) r' r := by
    intro r r' hr field
    have hfield := hr field
    generalize r.value field = t, r'.value field = t' at hfield
    cases hfield with
    | none => exact .none
    | some _ => exact .some trivial
  intro key
  have hkey := h key
  generalize c.find? key = v, c'.find? key = v' at hkey
  cases hkey with
  | none => exact .none
  | some hv =>
      cases hv with
      | scalar truthy _ => exact .some (.scalar truthy.symm trivial)
      | rows matched => exact .some (.rows (matched.flip.imp fun _ _ hr => hrow hr))

theorem value_of_scalar {key : Text} {s : Scalar} (h : c.find? key = some (.scalar s)) :
    c.value key = some s.render := by
  rw [value, scalar?, h]
  rfl

theorem rows_of_rows {key : Text} {rs : List Row} (h : c.find? key = some (.rows rs)) :
    c.rows key = rs := by
  rw [rows, h]
  rfl

/-- Contexts of one outline match in whatever holds of all texts that face each other. -/
theorem SameOutline.matched (h : c.SameOutline c') (hR : ∀ t t', c.Facing c' t t' → R t t') :
    c.Matched R c' := by
  intro key
  refine rel_of_some (h key) fun v v' hv hv' hvalue => ?_
  cases hvalue with
  | scalar truthy _ =>
      exact .scalar truthy (hR _ _ (.key (value_of_scalar hv) (value_of_scalar hv')))
  | rows matched =>
      obtain ⟨hlength, hrows⟩ := List.forall₂_iff_get.1 matched
      refine .rows (List.forall₂_iff_get.2 ⟨hlength, fun i hi hi' field => ?_⟩)
      refine rel_of_some (hrows i hi hi' field) fun t t' ht ht' _ => hR t t' ?_
      refine .field (k := key) (i := i) ?_ ?_ ht ht'
      · rw [rows_of_rows hv]
        exact List.getElem?_eq_getElem hi
      · rw [rows_of_rows hv']
        exact List.getElem?_eq_getElem hi'

end Context

end TagTemplate
