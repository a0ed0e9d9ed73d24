import TagTemplate.Bindings
import Mathlib.Data.List.Induction
import Mathlib.Data.List.Nodup

/-!
# Bindings made one after the other

Binding a key changes its own entry and no other. Bindings made from a list of
pairs have the keys of the list, each where it comes first, and give each key
the value that it has last.
-/

namespace TagTemplate.Bindings

variable {β : Type} {key k : Text} {value v : β} {es pairs : List (Text × β)}

theorem eq_of_entries {b c : Bindings β} (h : b.entries = c.entries) : b = c := by
  obtain ⟨entries, _⟩ := b
  cases h
  rfl

/-- An entry after a key is bound is the new one or an old one of another key. -/
theorem mem_put (h : (es.map Prod.fst).Nodup) (hmem : (k, v) ∈ put key value es) :
    k = key ∧ v = value ∨ (k, v) ∈ es ∧ k ≠ key := by
  induction es with
  | nil => exact .inl (Prod.mk.inj (List.mem_singleton.1 hmem))
  | cons e es ih =>
      obtain ⟨k', v'⟩ := e
      obtain ⟨hfresh, hrest⟩ := List.nodup_cons.1 h
      rw [put] at hmem
      split at hmem
      next heq =>
        rcases List.mem_cons.1 hmem with hnew | hold
        · exact .inl (Prod.mk.inj hnew)
        · refine .inr ⟨List.mem_cons_of_mem _ hold, ?_⟩
          rintro rfl
          have hkey : k ∈ es.map Prod.fst := List.mem_map_of_mem hold
          exact hfresh (heq ▸ hkey)
      next hne =>
        rcases List.mem_cons.1 hmem with hhead | htail
        · obtain ⟨rfl, rfl⟩ := Prod.mk.inj hhead
          exact .inr ⟨List.mem_cons_self, hne⟩
        · exact (ih hrest htail).imp_right fun h => ⟨List.mem_cons_of_mem _ h.1, h.2⟩

theorem put_of_not_mem (h : key ∉ es.map Prod.fst) (value : β) :
    put key value es = es ++ [(key, value)] := by
  induction es with
  | nil => rfl
  | cons e es ih =>
      obtain ⟨k, v⟩ := e
      obtain ⟨hne, hrest⟩ := not_or.1 (mt List.mem_cons.2 h)
      rw [put, if_neg (Ne.symm hne), ih hrest]
      rfl

theorem ofList_snoc (pairs : List (Text × β)) (key : Text) (value : β) :
    ofList (pairs ++ [(key, value)]) = (ofList pairs).insert key value := by
  rw [ofList, List.foldl_append, ← ofList]
  rfl

/-- One more key comes last, unless it was there before. -/
theorem eraseDups_concat (names : List Text) (key : Text) :
    (names ++ [key]).eraseDups =
      if key ∈ names.eraseDups then names.eraseDups else names.eraseDups ++ [key] := by
  rw [List.eraseDups_append, List.removeAll, List.filter_cons, List.filter_nil]
  by_cases h : key ∈ names
  · rw [if_pos (List.mem_eraseDups.2 h), if_neg (by simpa using h)]
    exact List.append_nil _
  · rw [if_neg (mt List.mem_eraseDups.1 h), if_pos (by simpa using h)]
    rfl

/-- Keys that are those of a list, each where it comes first, stay so when one more is bound. -/
theorem keys_insert_of_eraseDups {b : Bindings β} {names : List Text}
    (h : b.keys = names.eraseDups) (key : Text) (value : β) :
    (b.insert key value).keys = (names ++ [key]).eraseDups := by
  rw [keys_insert, eraseDups_concat, h]

/-- The keys of bindings made from a list are those of the list, each where it comes first. -/
theorem keys_ofList (pairs : List (Text × β)) :
    (ofList pairs).keys = (pairs.map Prod.fst).eraseDups := by
  induction pairs using List.reverseRecOn with
  | nil => rfl
  | append_singleton pairs p ih =>
      rw [ofList_snoc, keys_insert_of_eraseDups ih, List.map_append]
      rfl

/-- Pairs with different keys are the entries of the bindings that they make. -/
theorem entries_ofList (h : (pairs.map Prod.fst).Nodup) : (ofList pairs).entries = pairs := by
  induction pairs using List.reverseRecOn with
  | nil => rfl
  | append_singleton pairs p ih =>
      rw [List.map_append] at h
      have hpairs := ih h.of_append_left
      have hnew : p.1 ∉ (ofList pairs).entries.map Prod.fst := by
        rw [hpairs]
        exact fun hmem => List.disjoint_of_nodup_append h hmem List.mem_cons_self
      rw [ofList_snoc]
      show put p.1 p.2 (ofList pairs).entries = _
      rw [put_of_not_mem hnew, hpairs]

/-- The value that some pairs give a key last. -/
def Last (pairs : List (Text × β)) (key : Text) (value : β) : Prop :=
  ∃ front back, pairs = front ++ (key, value) :: back ∧ key ∉ back.map Prod.fst

/-- Bindings made from a list give each key its last value. -/
theorem last_of_mem_ofList (h : (key, value) ∈ (ofList pairs).entries) : Last pairs key value := by
  induction pairs using List.reverseRecOn with
  | nil => cases h
  | append_singleton pairs p ih =>
      obtain ⟨k, v⟩ := p
      rw [ofList_snoc] at h
      rcases mem_put (ofList pairs).nodup h with ⟨rfl, rfl⟩ | ⟨hold, hne⟩
      · exact ⟨pairs, [], rfl, List.not_mem_nil⟩
      · obtain ⟨front, back, rfl, hback⟩ := ih hold
        refine ⟨front, back ++ [(k, v)], by simp, ?_⟩
        rw [List.map_append, List.mem_append]
        rintro (hlater | hlast)
        · exact hback hlater
        · exact hne (List.mem_singleton.1 hlast)

end TagTemplate.Bindings
