import TagTemplate.Json.Reader
import TagTemplate.Proofs.Text.Order

/-!
# The order of members

The members of an object are in the order of the bytes of their keys, which are
all different. What is read from text is ordered: the reader puts every member in
its place, and keeps in its frames nothing but ordered values.
-/

namespace TagTemplate.Json

variable {key : Text} {value v : Json} {members done : List (Text × Json)} {frames : List Frame}

/-- Members in the order of the bytes of their keys. -/
def InKeyOrder (members : List (Text × Json)) : Prop :=
  members.Pairwise fun m n => Text.bytes m.1 < Text.bytes n.1

instance (members : List (Text × Json)) : Decidable (InKeyOrder members) :=
  inferInstanceAs (Decidable (List.Pairwise _ members))

/-- Values whose objects have their members in order, at any depth. -/
inductive Ordered : Json → Prop where
  | null : Ordered .null
  | bool (b : Bool) : Ordered (.bool b)
  | number (n : Number) : Ordered (.number n)
  | text (t : Text) : Ordered (.text t)
  | array {items : List Json} (hitems : ∀ item ∈ items, Ordered item) : Ordered (.array items)
  | object {members : List (Text × Json)} (horder : InKeyOrder members)
      (hvalues : ∀ m ∈ members, Ordered m.2) : Ordered (.object members)

/-- Members in order have different keys. -/
theorem InKeyOrder.nodup (h : InKeyOrder members) : (members.map Prod.fst).Nodup := by
  refine List.pairwise_map.2 (h.imp fun hlt heq => ?_)
  rw [heq] at hlt
  exact List.lt_irrefl _ hlt

/-! ## Putting a member in its place -/

theorem mem_put {m : Text × Json} (h : m ∈ put key value members) :
    m = (key, value) ∨ m ∈ members := by
  induction members with
  | nil => exact .inl (List.mem_singleton.1 h)
  | cons e members ih =>
      obtain ⟨k, v⟩ := e
      rw [put] at h
      split at h
      · exact List.mem_cons.1 h
      · exact (List.mem_cons.1 h).imp_right (List.mem_cons_of_mem _)
      · rcases List.mem_cons.1 h with heq | hrest
        · exact .inr (heq ▸ List.mem_cons_self)
        · exact (ih hrest).imp_right (List.mem_cons_of_mem _)

theorem inKeyOrder_put (key : Text) (value : Json) (h : InKeyOrder members) :
    InKeyOrder (put key value members) := by
  induction members with
  | nil => exact List.pairwise_singleton _ _
  | cons e members ih =>
      obtain ⟨k, v⟩ := e
      obtain ⟨hfirst, hrest⟩ := List.pairwise_cons.1 h
      rw [put]
      split
      next hlt =>
        -- the new key is before the first, and so before all of them
        have hbefore := Text.order_eq_lt_iff.1 hlt
        refine List.pairwise_cons.2 ⟨fun m hm => ?_, h⟩
        rcases List.mem_cons.1 hm with rfl | hm
        · exact hbefore
        · exact List.lt_trans hbefore (hfirst m hm)
      next heq =>
        obtain rfl := Text.order_eq_iff.1 heq
        exact List.pairwise_cons.2 ⟨hfirst, hrest⟩
      next hgt =>
        have hafter : Text.bytes k < Text.bytes key := by
          refine Text.order_eq_lt_iff.1 ?_
          rw [Text.order_swap key k, hgt]
          rfl
        refine List.pairwise_cons.2 ⟨fun m hm => ?_, ih hrest⟩
        rcases mem_put hm with rfl | hm
        · exact hafter
        · exact hfirst m hm

theorem Ordered.put (hdone : Ordered (.object members)) (hvalue : value.Ordered) (key : Text) :
    Ordered (.object (Json.put key value members)) := by
  cases hdone with
  | object horder hvalues =>
      refine .object (inKeyOrder_put key value horder) fun m hm => ?_
      rcases mem_put hm with rfl | hm
      · exact hvalue
      · exact hvalues m hm

/-! ## Reading -/

/-- Frames that keep ordered values. -/
def Frame.Ordered : Frame → Prop
  | .items done => ∀ item ∈ done, item.Ordered
  | .members done _ => Json.Ordered (.object done)

/-- States that keep ordered values. -/
def State.Ordered : State → Prop
  | .value frames | .firstItem frames | .firstKey frames => ∀ f ∈ frames, f.Ordered
  | .key done frames | .colon done _ frames => Json.Ordered (.object done) ∧ ∀ f ∈ frames, f.Ordered
  | .after v frames => v.Ordered ∧ ∀ f ∈ frames, f.Ordered

theorem ordered_startValue {token : Token} {s : State} (hframes : ∀ f ∈ frames, f.Ordered)
    (h : startValue frames token = some s) : s.Ordered := by
  cases token <;> simp only [startValue, Option.ite_none_right_eq_some, Option.some.injEq,
    reduceCtorEq] at h
  case openArray | openObject =>
    obtain ⟨-, rfl⟩ := h
    exact hframes
  case null =>
    subst h
    exact ⟨.null, hframes⟩
  case bool b =>
    subst h
    exact ⟨.bool b, hframes⟩
  case number n =>
    subst h
    exact ⟨.number n, hframes⟩
  case text t =>
    subst h
    exact ⟨.text t, hframes⟩

/-- **Every token** leaves a state that keeps ordered values. -/
theorem State.Ordered.step {s s' : State} {token : Token} (hs : s.Ordered)
    (h : s.step token = some s') : s'.Ordered := by
  unfold State.step at h
  split at h
  case h_1 => exact ordered_startValue hs h
  case h_2 frames =>
    cases h
    exact ⟨.array nofun, hs⟩
  case h_3 frames token _ =>
    have hempty : (Frame.items []).Ordered := nofun
    exact ordered_startValue (List.forall_mem_cons.2 ⟨hempty, hs⟩) h
  case h_4 frames =>
    cases h
    exact ⟨.object List.Pairwise.nil nofun, hs⟩
  case h_5 frames t =>
    cases h
    exact ⟨.object List.Pairwise.nil nofun, hs⟩
  case h_6 done frames t =>
    cases h
    exact hs
  case h_7 done k frames =>
    cases h
    exact List.forall_mem_cons.2 hs
  case h_8 v done frames =>
    cases h
    obtain ⟨hv, hframes⟩ := hs
    obtain ⟨hdone, hframes⟩ := List.forall_mem_cons.1 hframes
    exact List.forall_mem_cons.2 ⟨List.forall_mem_cons.2 ⟨hv, hdone⟩, hframes⟩
  case h_9 v done frames =>
    cases h
    obtain ⟨hv, hframes⟩ := hs
    obtain ⟨hdone, hframes⟩ := List.forall_mem_cons.1 hframes
    refine ⟨.array fun item hitem => ?_, hframes⟩
    exact List.forall_mem_cons.2 ⟨hv, hdone⟩ item (List.mem_reverse.1 hitem)
  case h_10 v done k frames =>
    cases h
    obtain ⟨hv, hframes⟩ := hs
    obtain ⟨hdone, hframes⟩ := List.forall_mem_cons.1 hframes
    exact ⟨hdone.put hv k, hframes⟩
  case h_11 v done k frames =>
    cases h
    obtain ⟨hv, hframes⟩ := hs
    obtain ⟨hdone, hframes⟩ := List.forall_mem_cons.1 hframes
    exact ⟨hdone.put hv k, hframes⟩
  case h_12 => cases h

theorem State.Ordered.run {s s' : State} (hs : s.Ordered) (tokens : List Token)
    (h : tokens.foldlM State.step s = some s') : s'.Ordered := by
  induction tokens generalizing s with
  | nil =>
      cases h
      exact hs
  | cons token tokens ih =>
      rw [List.foldlM_cons] at h
      obtain ⟨mid, hmid, hrest⟩ := Option.bind_eq_some_iff.1 h
      exact ih (hs.step hmid) hrest

/-- **What is read** from text is ordered. -/
theorem ordered_of_read? {t : Text} (h : read? t = some value) : value.Ordered := by
  obtain ⟨tokens, -, htokens⟩ := Option.bind_eq_some_iff.1 h
  obtain ⟨s, hrun, hresult⟩ := Option.bind_eq_some_iff.1 htokens
  have hs : s.Ordered := State.Ordered.run (s := .value []) nofun tokens hrun
  unfold State.result? at hresult
  split at hresult
  · cases hresult
    exact hs.1
  · cases hresult

end TagTemplate.Json
