import TagTemplate.Proofs.Context.OfJson

/-!
# What a JSON value is blamed for

An object that is no context has places where something is wrong: the value of a
member, an item of an array, or a field of an item. The three traversals come to
the first of these places, in the order of keys, items and fields, and the error
names it. Nothing behind it is looked at.
-/

namespace TagTemplate

open Fallible (Reaches SameFront map_eq_error_iff)

/-! ## Traversing members -/

namespace Json

variable {members members' front : List (Text × Json)} {P : Text × Json → Prop} {key : Text}
  {v : Json}

/-- A member is in front of the one that a traversal comes to, or this one, or of a later key. -/
theorem InKeyOrder.member_cases {k : Text} {w : Json} (horder : InKeyOrder members)
    (h : Reaches P members front (key, v)) (hm : (k, w) ∈ members) :
    P (k, w) ∨ k = key ∧ w = v ∨ Text.bytes key < Text.bytes k := by
  obtain ⟨⟨back, rfl⟩, hfront⟩ := h
  rcases List.mem_append.1 hm with hm | hm
  · exact .inl (hfront _ hm)
  rcases List.mem_cons.1 hm with heq | hm
  · exact .inr (.inl (Prod.mk.inj heq))
  · have hback := (List.pairwise_cons.1 (List.pairwise_append.1 horder).2.1).1
    exact .inr (.inr (hback _ hm))

/-- Members with the same front are traversed alike. -/
theorem InKeyOrder.of_same_key {done : List (Text × Json)} {w w' : Json}
    (horder : InKeyOrder members) (h : Reaches P members front (key, v))
    (hsame : SameFront members members' done (key, w) (key, w')) :
    v = w ∧ Reaches P members' front (key, w') := by
  refine (h.of_same_length hsame ?_).imp_left fun heq => (Prod.mk.inj heq).2
  obtain ⟨⟨back, rfl⟩, -⟩ := h
  obtain ⟨⟨back₁, hl⟩, -⟩ := hsame
  -- the key stands in one place only
  have hkeys := congrArg (List.map Prod.fst) hl
  have hfresh := horder.nodup
  simp only [List.map_append, List.map_cons, List.nodup_middle, List.nodup_cons,
    List.mem_append, not_or] at hkeys hfresh
  have hfront := ((List.append_cons_inj_of_notMem hfresh.1.1 hfresh.1.2).1 hkeys).1
  simpa using congrArg List.length hfront

end Json

/-! ## Places -/

/-- A place in an object that is to be a context. -/
inductive Place where
  | member (key : Text)
  | item (key : Text) (index : Nat)
  | field (key : Text) (index : Nat) (name : Text)

namespace Place

variable {members members' : List (Text × Json)} {p q : Place}

/-- The key of the member that a place is in. -/
def key : Place → Text
  | .member key | .item key _ | .field key _ _ => key

/-- The number of the item that a place is in. -/
def index? : Place → Option Nat
  | .member _ => none
  | .item _ index | .field _ index _ => some index

/-- How a place is written. -/
def text : Place → Text
  | .member key => key
  | .item key index => key ++ '[' :: natText index ++ [']']
  | .field key index name => key ++ '[' :: natText index ++ [']'] ++ '.' :: name

/-- The fault of a wrong place: an item has to be a row, anything else a scalar. -/
def fault : Place → ContextFault
  | .item key index => .notRow (text (.item key index))
  | p => .notScalar p.text

/-- The order of places: by key, then by item, then by field. -/
inductive Before : Place → Place → Prop where
  | key {p q : Place} (h : Text.bytes p.key < Text.bytes q.key) : Before p q
  | index {p q : Place} {i j : Nat} (hkey : p.key = q.key) (hp : p.index? = some i)
      (hq : q.index? = some j) (h : i < j) : Before p q
  | field {key name name' : Text} {i : Nat} (h : Text.bytes name < Text.bytes name') :
      Before (.field key i name) (.field key i name')

/-- Something is wrong at a place in the value of its member: the value is an object, an item of an
array is none, or a field of an item is no scalar. -/
inductive WrongIn : Json → Place → Prop where
  | member {fields : List (Text × Json)} {key : Text} : WrongIn (.object fields) (.member key)
  | item {items : List Json} {item : Json} {key : Text} {i : Nat} (hi : items[i]? = some item)
      (hitem : ∀ fields, item ≠ .object fields) : WrongIn (.array items) (.item key i)
  | field {items : List Json} {fields : List (Text × Json)} {key name : Text} {i : Nat} {v : Json}
      (hi : items[i]? = some (.object fields)) (hf : (name, v) ∈ fields) (hv : ¬ v.IsScalar) :
      WrongIn (.array items) (.field key i name)

/-- Something is wrong at a place. -/
def Wrong (p : Place) (members : List (Text × Json)) : Prop :=
  ∃ v, (p.key, v) ∈ members ∧ WrongIn v p

/-- The traversals come to a place in the value of its member. -/
inductive FirstIn : Json → Place → Prop where
  | member {fields : List (Text × Json)} {key : Text} : FirstIn (.object fields) (.member key)
  | item {items done : List Json} {item : Json} {key : Text} {i : Nat}
      (h : Reaches Json.IsRow items done item) (hi : done.length = i)
      (hitem : ∀ fields, item ≠ .object fields) : FirstIn (.array items) (.item key i)
  | field {items done : List Json} {fields past : List (Text × Json)} {key name : Text} {i : Nat}
      {v : Json} (h : Reaches Json.IsRow items done (.object fields)) (hi : done.length = i)
      (hf : Reaches (·.2.IsScalar) fields past (name, v)) (hv : ¬ v.IsScalar) :
      FirstIn (.array items) (.field key i name)

/-- The traversals come to a place. -/
def First (p : Place) (members : List (Text × Json)) : Prop :=
  ∃ front v, Reaches (·.2.IsValue) members front (p.key, v) ∧ FirstIn v p

/-- Two values of a member are the same up to a place, this place included. -/
inductive SameIn : Json → Json → Place → Prop where
  | member {v : Json} {key : Text} : SameIn v v (.member key)
  | item {items items' done : List Json} {item : Json} {key : Text} {i : Nat}
      (h : SameFront items items' done item item) (hi : done.length = i) :
      SameIn (.array items) (.array items') (.item key i)
  | field {items items' done : List Json} {fields fields' past : List (Text × Json)}
      {key name : Text} {i : Nat} {v : Json}
      (h : SameFront items items' done (.object fields) (.object fields')) (hi : done.length = i)
      (hf : SameFront fields fields' past (name, v) (name, v)) :
      SameIn (.array items) (.array items') (.field key i name)

/-- Two objects are the same up to a place, this place included. -/
def SameUntil (p : Place) (members members' : List (Text × Json)) : Prop :=
  ∃ front v v', SameFront members members' front (p.key, v) (p.key, v') ∧ SameIn v v' p

/-! ## The first wrong place -/

theorem FirstIn.wrongIn {v : Json} (h : FirstIn v p) : WrongIn v p := by
  cases h with
  | member => exact .member
  | item h hi hitem => exact .item (hi ▸ h.getElem?) hitem
  | field h hi hf hv => exact .field (hi ▸ h.getElem?) hf.mem hv

/-- Something is wrong at the place that the traversals come to. -/
theorem First.wrong (h : p.First members) : p.Wrong members := by
  obtain ⟨front, v, hmember, hv⟩ := h
  exact ⟨v, hmember.mem, hv.wrongIn⟩

theorem exists_object_of_isRow {j : Json} (h : j.IsRow) : ∃ fields, j = .object fields := by
  cases j with
  | object fields => exact ⟨fields, rfl⟩
  | _ => cases h

/-- A value in which something is wrong is none that a key can be bound to. -/
theorem WrongIn.not_isValue {v : Json} (h : WrongIn v p) : ¬ v.IsValue := by
  cases h with
  | member => exact id
  | item hi hitem =>
      intro hitems
      obtain ⟨fields, hfields⟩ := exists_object_of_isRow (hitems _ (List.mem_of_getElem? hi))
      exact hitem fields hfields
  | field hi hf hv =>
      intro hitems
      have hrow : Json.IsRow (.object _) := hitems _ (List.mem_of_getElem? hi)
      exact hv (hrow _ hf)

/-- The fields of an item are in the order of their names. -/
theorem inKeyOrder_of_item {items : List Json} {fields : List (Text × Json)}
    (h : (Json.array items).Ordered) (hmem : .object fields ∈ items) : Json.InKeyOrder fields := by
  cases h with
  | array hitems =>
      cases hitems _ hmem with
      | object horder _ => exact horder

theorem FirstIn.before {v : Json} (hp : FirstIn v p) (hv : v.Ordered) (hq : WrongIn v q)
    (hkey : p.key = q.key) : q = p ∨ p.Before q := by
  cases hp with
  | member =>
      cases hq
      exact .inl (congrArg Place.member hkey.symm)
  | item h hi hitem =>
      subst hi
      cases hq with
      | item hj hother =>
          rcases h.index_cases hj with hrow | ⟨rfl, -⟩ | hlt
          · obtain ⟨fields, hfields⟩ := exists_object_of_isRow hrow
            exact absurd hfields (hother fields)
          · exact .inl (congrArg (Place.item · _) hkey.symm)
          · exact .inr (.index hkey rfl rfl hlt)
      | field hj hf hw =>
          rcases h.index_cases hj with hrow | ⟨-, hobject⟩ | hlt
          · exact absurd (hrow _ hf) hw
          · exact absurd hobject.symm (hitem _)
          · exact .inr (.index hkey rfl rfl hlt)
  | field h hi hf hscalar =>
      subst hi
      cases hq with
      | item hj hother =>
          rcases h.index_cases hj with hrow | ⟨-, hobject⟩ | hlt
          · obtain ⟨fields, hfields⟩ := exists_object_of_isRow hrow
            exact absurd hfields (hother fields)
          · exact absurd hobject (hother _)
          · exact .inr (.index hkey rfl rfl hlt)
      | field hj hg hw =>
          rcases h.index_cases hj with hrow | ⟨rfl, hobject⟩ | hlt
          · exact absurd (hrow _ hg) hw
          · cases hobject
            cases hkey
            rcases (inKeyOrder_of_item hv h.mem).member_cases hf hg with hgood | ⟨rfl, -⟩ | hlt
            · exact absurd hgood hw
            · exact .inl rfl
            · exact .inr (.field hlt)
          · exact .inr (.index hkey rfl rfl hlt)

/-- **The place that the traversals come to** is before all others where something is wrong. -/
theorem First.before (hp : p.First members) (hmembers : (Json.object members).Ordered)
    (hq : q.Wrong members) : q = p ∨ p.Before q := by
  obtain ⟨front, v, hmember, hv⟩ := hp
  obtain ⟨w, hm, hw⟩ := hq
  cases hmembers with
  | object horder hvalues =>
      rcases horder.member_cases hmember hm with hvalue | ⟨hkey, rfl⟩ | hlt
      · exact absurd hvalue hw.not_isValue
      · exact hv.before (hvalues _ hmember.mem) hw hkey.symm
      · exact .inr (.key hlt)

/-! ## What is behind the place -/

theorem FirstIn.of_sameIn {v v' : Json} (hv : v.Ordered) (hp : FirstIn v p)
    (hsame : SameIn v v' p) : FirstIn v' p := by
  cases hp with
  | member =>
      cases hsame
      exact .member
  | item h hi hitem =>
      cases hsame with
      | item hfront hdone =>
          obtain ⟨rfl, h'⟩ := h.of_same_length hfront (hi.trans hdone.symm)
          exact .item h' hi hitem
  | field h hi hf hscalar =>
      cases hsame with
      | field hfront hdone hfields =>
          obtain ⟨heq, h'⟩ := h.of_same_length hfront (hi.trans hdone.symm)
          cases heq
          obtain ⟨rfl, hf'⟩ := (inKeyOrder_of_item hv h.mem).of_same_key hf hfields
          exact .field h' hi hf' hscalar

/-- **Nothing behind the place** that the traversals come to matters. -/
theorem First.of_sameUntil (hp : p.First members) (hmembers : (Json.object members).Ordered)
    (hsame : p.SameUntil members members') : p.First members' := by
  obtain ⟨front, v, hmember, hv⟩ := hp
  obtain ⟨done, w, w', hfront, hin⟩ := hsame
  cases hmembers with
  | object horder hvalues =>
      obtain ⟨rfl, hmember'⟩ := horder.of_same_key hmember hfront
      exact ⟨front, w', hmember', hv.of_sameIn (hvalues _ hmember.mem) hin⟩

end Place

namespace Context

variable {β : Type} {place key : Text} {j : Json} {members : List (Text × Json)}
  {items : List Json} {e : ContextFault}

/-! ## Failure -/

theorem scalarOf_eq_error_iff :
    scalarOf place j = .error e ↔ ¬ j.IsScalar ∧ e = .notScalar place := by
  cases j <;> simp [scalarOf, Json.IsScalar, eq_comm]

/-- A traversal of members fails as the first step that fails. -/
theorem mapM_memberwise_eq_error_iff {f : Text → Json → Except ContextFault β} {P : Json → Prop}
    (h : ∀ key j, (∃ b, f key j = .ok b) ↔ P j) :
    members.mapM (memberwise f) = .error e ↔
      ∃ front key v, Reaches (P ·.2) members front (key, v) ∧ f key v = .error e := by
  rw [Fallible.mapM_eq_error_iff]
  simp only [exists_memberwise, h]
  simp only [memberwise, map_eq_error_iff, Prod.exists]

theorem fieldsOf_eq_error_iff :
    fieldsOf place members = .error e ↔ ∃ past name v,
      Reaches (·.2.IsScalar) members past (name, v) ∧ ¬ v.IsScalar ∧
        e = .notScalar (place ++ '.' :: name) := by
  rw [fieldsOf_eq]
  refine (mapM_memberwise_eq_error_iff (f := fun name => scalarOf (place ++ '.' :: name))
    fun _ _ => exists_scalarOf).trans ?_
  simp only [scalarOf_eq_error_iff]

theorem rowOf_eq_error_iff :
    rowOf place j = .error e ↔ (∀ fields, j ≠ .object fields) ∧ e = .notRow place ∨
      ∃ fields, j = .object fields ∧ fieldsOf place fields = .error e := by
  cases j with
  | object fields => simp [rowOf, map_eq_error_iff]
  | _ => simp [rowOf, eq_comm]

theorem rowsOf_eq_error_iff :
    rowsOf key 0 items = .error e ↔ ∃ done item, Reaches Json.IsRow items done item ∧
      rowOf (Place.item key done.length).text item = .error e := by
  rw [rowsOf_eq, Fallible.mapM_eq_error_iff]
  simp only [exists_rowOf]
  constructor
  · rintro ⟨front, ⟨item, i⟩, ⟨⟨back, hsplit⟩, hfront⟩, hitem⟩
    obtain ⟨done, rest, rfl, rfl, hrest⟩ := List.zipIdx_eq_append_iff.1 hsplit
    obtain ⟨x, later, rfl, hx, -⟩ := List.zipIdx_eq_cons_iff.1 hrest.symm
    cases hx
    refine ⟨done, item, ⟨⟨later, rfl⟩, fun y hy => ?_⟩, ?_⟩
    · obtain ⟨k, hk⟩ := List.mem_iff_getElem?.1 hy
      exact hfront (y, k) (List.mk_mem_zipIdx_iff_getElem?.2 hk)
    · rwa [Nat.zero_add] at hitem
  · rintro ⟨done, item, ⟨⟨later, rfl⟩, hdone⟩, hitem⟩
    refine ⟨done.zipIdx, (item, done.length), ⟨⟨later.zipIdx (done.length + 1), ?_⟩, ?_⟩, hitem⟩
    · rw [List.zipIdx_append, List.zipIdx_cons, Nat.zero_add]
    · intro x hx
      exact hdone x.1 (List.mem_of_getElem? (List.mk_mem_zipIdx_iff_getElem?.1 hx))

theorem valueOf_eq_error_iff :
    valueOf key j = .error e ↔ ∃ p : Place, p.key = key ∧ Place.FirstIn j p ∧ e = p.fault := by
  constructor
  · intro h
    cases j with
    | array items =>
        rw [valueOf, map_eq_error_iff, rowsOf_eq_error_iff] at h
        obtain ⟨done, item, hdone, hitem⟩ := h
        rcases rowOf_eq_error_iff.1 hitem with ⟨hobject, rfl⟩ | ⟨fields, rfl, hfields⟩
        · exact ⟨.item key done.length, rfl, .item hdone rfl hobject, rfl⟩
        · obtain ⟨past, name, v, hpast, hv, rfl⟩ := fieldsOf_eq_error_iff.1 hfields
          exact ⟨.field key done.length name, rfl, .field hdone rfl hpast hv, rfl⟩
    | object fields =>
        simp only [valueOf, map_eq_error_iff, scalarOf_eq_error_iff] at h
        exact ⟨.member key, rfl, .member, h.2⟩
    | _ => cases h
  · rintro ⟨p, rfl, hp, rfl⟩
    cases hp with
    | member => rfl
    | item hdone hi hitem =>
        subst hi
        rw [valueOf, map_eq_error_iff, rowsOf_eq_error_iff]
        exact ⟨_, _, hdone, rowOf_eq_error_iff.2 (.inl ⟨hitem, rfl⟩)⟩
    | field hdone hi hpast hv =>
        subst hi
        rw [valueOf, map_eq_error_iff, rowsOf_eq_error_iff]
        refine ⟨_, _, hdone, rowOf_eq_error_iff.2 (.inr ⟨_, rfl, ?_⟩)⟩
        exact fieldsOf_eq_error_iff.2 ⟨_, _, _, hpast, hv, rfl⟩

/-- **An object is refused** for the place that the traversals come to. -/
theorem entriesOf_eq_error_iff :
    entriesOf members = .error e ↔ ∃ p : Place, p.First members ∧ e = p.fault := by
  rw [entriesOf_eq]
  refine (mapM_memberwise_eq_error_iff (f := valueOf) fun _ _ => exists_valueOf).trans ?_
  simp only [valueOf_eq_error_iff]
  constructor
  · rintro ⟨front, key, v, hmember, p, rfl, hp, rfl⟩
    exact ⟨p, ⟨front, v, hmember, hp⟩, rfl⟩
  · rintro ⟨p, ⟨front, v, hmember, hp⟩, rfl⟩
    exact ⟨front, p.key, v, hmember, p, rfl, hp, rfl⟩

/-- **A JSON value makes a context or is blamed for the first wrong place.** It makes one if it is
an object of scalars and arrays of rows, and the context has its keys in their order with what the
values are. Of any other object the first place is named where something is wrong, in the order of
keys, items and fields; what comes behind this place may be anything. -/
theorem ofJson_blames_first (value : Json) (h : value.Ordered) :
    ((∃ c, ofJson value = .ok c) ↔ value.IsContext) ∧
      (∀ c, ofJson value = .ok c ↔ c.Mirrors value) ∧
      ((∀ members, value ≠ .object members) →
        ofJson value = .error (.invalidContext .notObject)) ∧
      ∀ members, value = .object members → ¬ value.IsContext →
        ∃ p : Place, p.Wrong members ∧ (∀ q : Place, q.Wrong members → q = p ∨ p.Before q) ∧
          ofJson value = .error (.invalidContext p.fault) ∧
          ∀ members', p.SameUntil members members' →
            ofJson (.object members') = .error (.invalidContext p.fault) := by
  refine ⟨exists_ofJson, fun c => ofJson_eq_ok_iff h, fun hvalue => ?_, ?_⟩
  · cases value with
    | object members => exact absurd rfl (hvalue members)
    | _ => rfl
  · rintro members rfl hshape
    have hfails : ∀ c, ofJson (.object members) ≠ .ok c := fun c hc =>
      hshape (exists_ofJson.1 ⟨c, hc⟩)
    cases hentries : entriesOf members with
    | ok es => exact absurd (by rw [ofJson, hentries]) (hfails (Bindings.ofList es))
    | error e =>
        obtain ⟨p, hp, rfl⟩ := entriesOf_eq_error_iff.1 hentries
        have hblames : ∀ members', p.First members' →
            ofJson (.object members') = .error (.invalidContext p.fault) := by
          intro members' hp'
          rw [ofJson, entriesOf_eq_error_iff.2 ⟨p, hp', rfl⟩]
        exact ⟨p, hp.wrong, fun q => hp.before h, hblames members hp,
          fun members' hsame => hblames members' (hp.of_sameUntil h hsame)⟩

/-- The second row has an array for a field, which is found before the object of a later key. -/
theorem ofJson_blames_first_of_two :
    let rows : List Json := [.object [(['x'], .text ['0'])],
      .object [(['x'], .null), (['y'], .array [])]]
    let members : List (Text × Json) := [(['a'], .array rows), (['b'], .object [])]
    ((Json.object members).Ordered ∧ ¬ (Json.object members).IsContext) ∧
      ∃ p : Place, p.text = "a[1].y".toList ∧ p.Wrong members ∧ p.Before (.member ['b']) ∧
        ofJson (.object members) = .error (.invalidContext (.notScalar p.text)) := by
  intro rows members
  have hrows : ∀ row ∈ rows, row.Ordered := by
    refine List.forall_mem_cons.2 ⟨.object (by decide) ?_, List.forall_mem_cons.2
      ⟨.object (by decide) ?_, nofun⟩⟩
    · exact List.forall_mem_cons.2 ⟨.text _, nofun⟩
    · exact List.forall_mem_cons.2 ⟨.null, List.forall_mem_cons.2 ⟨.array nofun, nofun⟩⟩
  have h : (Json.object members).Ordered := by
    refine .object (by decide) (List.forall_mem_cons.2 ⟨.array hrows, ?_⟩)
    exact List.forall_mem_cons.2 ⟨.object List.Pairwise.nil nofun, nofun⟩
  have hlater : (Place.member ['b']).Wrong members := ⟨.object [], .tail _ (.head _), .member⟩
  have hshape : ¬ (Json.object members).IsContext := fun hvalues =>
    hvalues _ (.tail _ (.head _))
  obtain ⟨-, -, -, hblames⟩ := ofJson_blames_first (.object members) h
  obtain ⟨p, hp, hleast, herror, -⟩ := hblames members rfl hshape
  have hfault : p.fault = .notScalar "a[1].y".toList := by
    have hrun : ofJson (.object members) = .error (.invalidContext (.notScalar "a[1].y".toList)) :=
      rfl
    exact Error.invalidContext.inj (Except.error.inj (herror.symm.trans hrun))
  have htext : p.text = "a[1].y".toList := by
    cases p with
    | item key i => cases hfault
    | _ => exact ContextFault.notScalar.inj hfault
  refine ⟨⟨h, hshape⟩, p, htext, hp, ?_, by rw [herror, hfault, htext]⟩
  rcases hleast _ hlater with rfl | hbefore
  · cases htext
  · exact hbefore

end Context
end TagTemplate
