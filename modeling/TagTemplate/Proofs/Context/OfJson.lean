import TagTemplate.Context.OfJson
import TagTemplate.Proofs.Bindings
import TagTemplate.Proofs.Json.Ordered
import TagTemplate.Proofs.Fallible

/-!
# Which JSON values are contexts

A JSON value is made a context by three traversals, one inside the other: of the
members of the object, of the items of an array, and of the fields of an item.
Each succeeds if all of its steps do, and so a value becomes a context if it has
the shape of one: `exists_ofJson`. The context then has the keys of the object
in their order, with what the values are: `ofJson_eq_ok_iff`.
-/

namespace TagTemplate

namespace Json

/-- Neither an array nor an object. -/
def IsScalar : Json → Prop
  | .array _ | .object _ => False
  | _ => True

/-- An object of scalars. -/
def IsRow : Json → Prop
  | .object members => ∀ m ∈ members, m.2.IsScalar
  | _ => False

/-- A scalar or an array of objects of scalars. -/
def IsValue : Json → Prop
  | .array items => ∀ item ∈ items, item.IsRow
  | value => value.IsScalar

/-- An object whose values are scalars and arrays of objects of scalars. -/
def IsContext : Json → Prop
  | .object members => ∀ m ∈ members, m.2.IsValue
  | _ => False

end Json

/-- Bindings with the keys of an object, in its order, and what its values stand for. -/
def Bindings.Mirrors {β : Type} (R : β → Json → Prop) (b : Bindings β) : Json → Prop
  | .object members => List.Forall₂ (fun e m => e.1 = m.1 ∧ R e.2 m.2) b.entries members
  | _ => False

/-- The scalar that a JSON value is. -/
inductive Scalar.Mirrors : Scalar → Json → Prop where
  | null : Mirrors .null .null
  | bool (b : Bool) : Mirrors (.bool b) (.bool b)
  | number (n : Number) : Mirrors (.number n) (.number n)
  | text (t : Text) : Mirrors (.text t) (.text t)

/-- The scalar that a JSON value is, or the rows of its items. -/
inductive Value.Mirrors : Value → Json → Prop where
  | scalar {s : Scalar} {j : Json} (h : s.Mirrors j) : Mirrors (.scalar s) j
  | rows {rs : List Row} {items : List Json}
      (h : List.Forall₂ (Bindings.Mirrors Scalar.Mirrors) rs items) :
      Mirrors (.rows rs) (.array items)

/-- A context with the keys of an object, in its order, and what its values stand for. -/
def Context.Mirrors (c : Context) (j : Json) : Prop := Bindings.Mirrors Value.Mirrors c j

namespace Context

open Bindings (ofList)
open Fallible (exists_map_iff map_eq_ok_iff)

variable {β : Type} {place key : Text} {j : Json} {members : List (Text × Json)}
  {items : List Json}

/-! ## The traversals -/

/-- A step for a member. -/
def memberwise (f : Text → Json → Except ContextFault β) (m : Text × Json) :
    Except ContextFault (Text × β) :=
  (f m.1 m.2).map (Prod.mk m.1)

/-- The row that an item makes. -/
def rowOf (place : Text) : Json → Except ContextFault Row
  | .object members => (fieldsOf place members).map ofList
  | _ => .error (.notRow place)

theorem fieldsOf_eq (place : Text) (members : List (Text × Json)) :
    fieldsOf place members =
      members.mapM (memberwise fun name => scalarOf (place ++ '.' :: name)) := by
  induction members with
  | nil => rfl
  | cons m members ih =>
      obtain ⟨name, value⟩ := m
      rw [fieldsOf, List.mapM_cons, ih, memberwise]
      cases scalarOf (place ++ '.' :: name) value <;> rfl

theorem rowsOf_eq (key : Text) (index : Nat) (items : List Json) :
    rowsOf key index items =
      (items.zipIdx index).mapM fun x => rowOf (key ++ '[' :: natText x.2 ++ [']']) x.1 := by
  induction items generalizing index with
  | nil => rfl
  | cons item items ih =>
      rw [List.zipIdx_cons, List.mapM_cons, ← ih]
      cases item with
      | object members =>
          simp only [rowsOf, rowOf]
          cases fieldsOf (key ++ '[' :: natText index ++ [']']) members <;> rfl
      | _ => rfl

theorem entriesOf_eq (members : List (Text × Json)) :
    entriesOf members = members.mapM (memberwise valueOf) := by
  induction members with
  | nil => rfl
  | cons m members ih =>
      obtain ⟨key, value⟩ := m
      rw [entriesOf, List.mapM_cons, ih, memberwise]
      cases valueOf key value <;> rfl

/-! ## Success -/

theorem memberwise_eq_ok_iff {f : Text → Json → Except ContextFault β} {m : Text × Json}
    {x : Text × β} : memberwise f m = .ok x ↔ x.1 = m.1 ∧ f m.1 m.2 = .ok x.2 := by
  obtain ⟨k, b⟩ := x
  rw [memberwise]
  cases f m.1 m.2 with
  | error e => simp [Except.map]
  | ok b' => simp [Except.map, eq_comm]

theorem exists_memberwise {f : Text → Json → Except ContextFault β} {m : Text × Json} :
    (∃ x, memberwise f m = .ok x) ↔ ∃ b, f m.1 m.2 = .ok b := by
  simp only [memberwise_eq_ok_iff]
  exact ⟨fun ⟨x, hx⟩ => ⟨x.2, hx.2⟩, fun ⟨b, hb⟩ => ⟨(m.1, b), rfl, hb⟩⟩

theorem exists_scalarOf : (∃ s, scalarOf place j = .ok s) ↔ j.IsScalar := by
  cases j <;> simp [scalarOf, Json.IsScalar]

theorem exists_rowOf : (∃ r, rowOf place j = .ok r) ↔ j.IsRow := by
  cases j with
  | object members =>
      rw [rowOf, exists_map_iff, fieldsOf_eq, Fallible.exists_mapM_iff]
      simp only [exists_memberwise, exists_scalarOf]
      rfl
  | _ => simp [rowOf, Json.IsRow]

theorem exists_rowsOf : (∃ rs, rowsOf key 0 items = .ok rs) ↔ ∀ item ∈ items, item.IsRow := by
  rw [rowsOf_eq, Fallible.exists_mapM_iff]
  simp only [exists_rowOf]
  constructor
  · intro h item hitem
    obtain ⟨i, hi⟩ := List.mem_iff_getElem?.1 hitem
    exact h (item, i) (List.mk_mem_zipIdx_iff_getElem?.2 hi)
  · rintro h ⟨item, i⟩ hitem
    exact h item (List.mem_of_getElem? (List.mk_mem_zipIdx_iff_getElem?.1 hitem))

theorem exists_valueOf : (∃ v, valueOf key j = .ok v) ↔ j.IsValue := by
  cases j with
  | array items => exact exists_map_iff.trans exists_rowsOf
  | _ => simp only [Json.IsValue, valueOf, exists_map_iff, exists_scalarOf]

/-- **A JSON value is made a context** if it has the shape of one. -/
theorem exists_ofJson : (∃ c, ofJson j = .ok c) ↔ j.IsContext := by
  cases j with
  | object members =>
      have hentries : (∃ es, entriesOf members = .ok es) ↔ (Json.object members).IsContext := by
        rw [entriesOf_eq, Fallible.exists_mapM_iff]
        simp only [exists_memberwise, exists_valueOf]
        rfl
      rw [← hentries, ofJson]
      cases entriesOf members <;> simp
  | _ => simp [ofJson, Json.IsContext]

/-- Members in order make bindings with the same keys in this order. -/
theorem map_ofList_eq_ok_iff {f : Text → Json → Except ContextFault β} {R : β → Json → Prop}
    {b : Bindings β} (horder : Json.InKeyOrder members)
    (h : ∀ m ∈ members, ∀ b, f m.1 m.2 = .ok b ↔ R b m.2) :
    (members.mapM (memberwise f)).map ofList = .ok b ↔ b.Mirrors R (.object members) := by
  have hentries : ∀ es, members.mapM (memberwise f) = .ok es ↔
      List.Forall₂ (fun e m => e.1 = m.1 ∧ R e.2 m.2) es members := by
    refine fun es => Fallible.mapM_eq_ok_iff_of_forall fun m hm e => ?_
    rw [memberwise_eq_ok_iff, h m hm]
  -- the keys of the entries are those of the members, and so no entry replaces another
  have hsame : ∀ es : List (Text × β), List.Forall₂ (fun e m => e.1 = m.1 ∧ R e.2 m.2) es members →
      (ofList es).entries = es := by
    intro es hes
    have hkeys : es.map Prod.fst = members.map Prod.fst := by
      refine List.forall₂_eq_eq_eq ▸ List.forall₂_map_left_iff.2 (List.forall₂_map_right_iff.2 ?_)
      exact hes.imp fun _ _ hem => hem.1
    exact Bindings.entries_ofList (hkeys ▸ horder.nodup)
  rw [map_eq_ok_iff]
  constructor
  · rintro ⟨es, hes, rfl⟩
    have hes := (hentries es).1 hes
    show List.Forall₂ _ (ofList es).entries members
    rwa [hsame es hes]
  · intro hb
    refine ⟨b.entries, (hentries _).2 hb, ?_⟩
    exact Bindings.eq_of_entries (hsame _ hb)

theorem scalarOf_eq_ok_iff {s : Scalar} : scalarOf place j = .ok s ↔ s.Mirrors j := by
  constructor
  · intro h
    cases j <;> cases h <;> constructor
  · intro h
    cases h <;> rfl

theorem rowOf_eq_ok_iff {r : Row} (hj : j.Ordered) :
    rowOf place j = .ok r ↔ Bindings.Mirrors Scalar.Mirrors r j := by
  cases hj with
  | object horder _ =>
      rw [rowOf, fieldsOf_eq]
      exact map_ofList_eq_ok_iff horder fun _ _ _ => scalarOf_eq_ok_iff
  | _ => simp [rowOf, Bindings.Mirrors]

theorem rowsOf_eq_ok_iff {rs : List Row} (hitems : ∀ item ∈ items, item.Ordered) :
    rowsOf key 0 items = .ok rs ↔ List.Forall₂ (Bindings.Mirrors Scalar.Mirrors) rs items := by
  have hsteps : rowsOf key 0 items = .ok rs ↔
      List.Forall₂ (fun r x => Bindings.Mirrors Scalar.Mirrors r x.1) rs (items.zipIdx 0) := by
    rw [rowsOf_eq]
    refine Fallible.mapM_eq_ok_iff_of_forall fun x hx r => rowOf_eq_ok_iff ?_
    exact hitems x.1 (List.mem_of_getElem? (List.mk_mem_zipIdx_iff_getElem?.1 hx))
  rw [hsteps, ← List.forall₂_map_right_iff, List.zipIdx_map_fst]

theorem valueOf_eq_ok_iff {v : Value} (hj : j.Ordered) : valueOf key j = .ok v ↔ v.Mirrors j := by
  cases hj with
  | array hitems =>
      rw [valueOf, map_eq_ok_iff]
      constructor
      · rintro ⟨rs, hrs, rfl⟩
        exact .rows ((rowsOf_eq_ok_iff hitems).1 hrs)
      · intro h
        cases h with
        | scalar h => cases h
        | rows h => exact ⟨_, (rowsOf_eq_ok_iff hitems).2 h, rfl⟩
  | _ =>
    simp only [valueOf, map_eq_ok_iff, scalarOf_eq_ok_iff]
    constructor
    · rintro ⟨s, hs, rfl⟩
      exact .scalar hs
    · intro h
      cases h with
      | scalar h => exact ⟨_, h, rfl⟩

/-- **The context that a JSON value makes** has its keys in their order, with what the values
are. -/
theorem ofJson_eq_ok_iff {c : Context} (hj : j.Ordered) : ofJson j = .ok c ↔ c.Mirrors j := by
  cases hj with
  | object horder hvalues =>
      refine Iff.trans ?_
        (map_ofList_eq_ok_iff horder fun m hm b => valueOf_eq_ok_iff (hvalues m hm))
      rw [ofJson, entriesOf_eq]
      cases List.mapM (memberwise valueOf) _ <;> simp [Except.map]
  | _ => simp [ofJson, Context.Mirrors, Bindings.Mirrors]

end Context
end TagTemplate
