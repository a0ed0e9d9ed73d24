import TagTemplate.Proofs.Bindings

/-!
# Bindings after a history

Bindings come about by edits: a key is bound, a list of pairs is bound from the
start, other bindings are merged in. What they hold after any edits can be told
from the edits alone: the keys, in the order in which they were first named, and
for each key the value that it was bound to last, where merging counts for the
keys that had none. Both follow from what one edit does.

Merging puts the other bindings' missing entries behind those that are there,
which says everything about it: `entries_mergeMissing`. So it is idempotent and
associative, and empty bindings are its unit.
-/

namespace TagTemplate.Bindings

variable {β : Type} {b c d : Bindings β} {key k : Text} {value : β} {es : List (Text × β)}

/-! ## Keys and entries -/

theorem isSome_lookup : (lookup key es).isSome = true ↔ key ∈ es.map Prod.fst := by
  induction es with
  | nil => simp [lookup]
  | cons e es ih =>
      obtain ⟨k, v⟩ := e
      by_cases h : k = key
      · simp [lookup, h]
      · rw [lookup, if_neg h, ih, List.map_cons, List.mem_cons]
        exact ⟨.inr, fun hmem => hmem.resolve_left (Ne.symm h)⟩

theorem contains_iff : b.contains key = true ↔ key ∈ b.keys := isSome_lookup

theorem contains_eq_false_iff : b.contains key = false ↔ key ∉ b.keys := by
  rw [← contains_iff, Bool.not_eq_true]

theorem put_of_mem (hnodup : (es.map Prod.fst).Nodup) (h : key ∈ es.map Prod.fst) (value : β) :
    put key value es = es.map fun e => if e.1 = key then (key, value) else e := by
  induction es with
  | nil => cases h
  | cons e es ih =>
      obtain ⟨k, v⟩ := e
      obtain ⟨hfresh, hrest⟩ := List.nodup_cons.1 hnodup
      by_cases hk : k = key
      · -- no later entry has the key
        have hothers : es.map (fun e => if e.1 = key then (key, value) else e) = es := by
          refine (List.map_congr_left fun e he => if_neg fun heq => hfresh ?_).trans es.map_id
          exact List.mem_map.2 ⟨e, he, heq.trans hk.symm⟩
        rw [put, if_pos hk, List.map_cons, if_pos hk, hothers]
      · rw [put, if_neg hk, List.map_cons, if_neg hk,
          ih hrest ((List.mem_cons.1 h).resolve_left (Ne.symm hk))]

/-- Binding a key changes its value where it stands, and a new key comes last. -/
theorem entries_insert (b : Bindings β) (key : Text) (value : β) :
    (b.insert key value).entries =
      if key ∈ b.keys then b.entries.map fun e => if e.1 = key then (key, value) else e
      else b.entries ++ [(key, value)] := by
  by_cases hk : key ∈ b.keys
  · rw [if_pos hk]
    exact put_of_mem b.nodup hk value
  · rw [if_neg hk]
    exact put_of_not_mem hk value

/-- A key has the value that a list of pairs gives it last. -/
theorem find?_ofList (pairs : List (Text × β)) (key : Text) :
    (ofList pairs).find? key = lookup key pairs.reverse := by
  induction pairs using List.reverseRecOn with
  | nil => rfl
  | append_singleton pairs p ih =>
      rw [ofList_snoc, find?_insert, ih, List.reverse_append]
      rfl

/-! ## Merging -/

/-- Entries are added one by one. -/
theorem addMissing_cons (b : Bindings β) (key : Text) (value : β) (es : List (Text × β)) :
    b.addMissing ((key, value) :: es) =
      (if key ∈ b.keys then b else b.insert key value).addMissing es := by
  simp only [← contains_iff]
  rfl

theorem entries_addMissing (b : Bindings β) (h : (es.map Prod.fst).Nodup) :
    (b.addMissing es).entries = b.entries ++ es.filter fun e => e.1 ∉ b.keys := by
  induction es generalizing b with
  | nil => exact (List.append_nil _).symm
  | cons e es ih =>
      obtain ⟨k, v⟩ := e
      obtain ⟨hfresh, hrest⟩ := List.nodup_cons.1 h
      rw [addMissing_cons, ih _ hrest]
      by_cases hk : k ∈ b.keys
      · rw [if_pos hk, List.filter_cons_of_neg (by simpa using hk)]
      · -- the new key is in none of the entries that are still to come
        have hsame : es.filter (fun e => e.1 ∉ (b.insert k v).keys) =
            es.filter fun e => e.1 ∉ b.keys := by
          refine List.filter_congr fun e he => ?_
          have hne : e.1 ≠ k := fun heq => hfresh (List.mem_map.2 ⟨e, he, heq⟩)
          rw [keys_insert, if_neg hk]
          simp [hne]
        have hnew : (b.insert k v).entries = b.entries ++ [(k, v)] := put_of_not_mem hk v
        rw [if_neg hk, hsame, hnew, List.filter_cons_of_pos (by simpa using hk),
          List.append_assoc]
        rfl

/-- **Merging** leaves the entries as they are and puts behind them the entries of the other
bindings whose keys are missing. -/
theorem entries_mergeMissing (b c : Bindings β) :
    (b.mergeMissing c).entries = b.entries ++ c.entries.filter fun e => e.1 ∉ b.keys :=
  entries_addMissing b c.nodup

theorem keys_mergeMissing (b c : Bindings β) :
    (b.mergeMissing c).keys = b.keys ++ c.keys.filter (· ∉ b.keys) := by
  rw [keys, entries_mergeMissing, List.map_append, keys, keys, List.filter_map]
  rfl

theorem mem_keys_mergeMissing : k ∈ (b.mergeMissing c).keys ↔ k ∈ b.keys ∨ k ∈ c.keys := by
  rw [keys_mergeMissing, List.mem_append, List.mem_filter]
  by_cases hk : k ∈ b.keys <;> simp [hk]

/-- Merging changes nothing if no key is missing. -/
theorem mergeMissing_of_subset (h : c.keys ⊆ b.keys) : b.mergeMissing c = b := by
  refine eq_of_entries ((entries_mergeMissing b c).trans ?_)
  have hnone : c.entries.filter (fun e => e.1 ∉ b.keys) = [] := by
    refine List.filter_eq_nil_iff.2 fun e he => ?_
    simpa using h (List.mem_map_of_mem he)
  rw [hnone, List.append_nil]

theorem mergeMissing_self (b : Bindings β) : b.mergeMissing b = b :=
  mergeMissing_of_subset (List.Subset.refl _)

/-- Merging a second time changes nothing. -/
theorem mergeMissing_mergeMissing (b c : Bindings β) :
    (b.mergeMissing c).mergeMissing c = b.mergeMissing c :=
  mergeMissing_of_subset fun _ hk => mem_keys_mergeMissing.2 (.inr hk)

theorem mergeMissing_empty (b : Bindings β) : b.mergeMissing empty = b := rfl

theorem empty_mergeMissing (b : Bindings β) : empty.mergeMissing b = b := by
  refine eq_of_entries ((entries_mergeMissing empty b).trans ?_)
  exact List.filter_eq_self.2 fun _ _ => rfl

/-- Merging is associative: an entry is missing in the first two if it is missing in both. -/
theorem mergeMissing_assoc (b c d : Bindings β) :
    (b.mergeMissing c).mergeMissing d = b.mergeMissing (c.mergeMissing d) := by
  refine eq_of_entries ?_
  have hmissing : (fun e : Text × β => decide (e.1 ∉ (b.mergeMissing c).keys)) =
      fun e => decide (e.1 ∉ c.keys) && decide (e.1 ∉ b.keys) := by
    funext e
    rw [← Bool.decide_and, decide_eq_decide, mem_keys_mergeMissing]
    tauto
  rw [entries_mergeMissing, entries_mergeMissing, entries_mergeMissing, entries_mergeMissing,
    List.filter_append, List.filter_filter, List.append_assoc, hmissing]
  simp only [Bool.and_comm]

/-- Keys that are those of a list, each where it comes first, stay so when entries are added. -/
theorem keys_addMissing_of_eraseDups {names : List Text} (h : b.keys = names.eraseDups)
    (es : List (Text × β)) : (b.addMissing es).keys = (names ++ es.map Prod.fst).eraseDups := by
  induction es generalizing b names with
  | nil =>
      rw [List.map_nil, List.append_nil]
      exact h
  | cons e es ih =>
      obtain ⟨k, v⟩ := e
      have hnext : (if k ∈ b.keys then b else b.insert k v).keys = (names ++ [k]).eraseDups := by
        rw [← keys_insert_of_eraseDups h k v]
        split
        next hk => rw [keys_insert, if_pos hk]
        · rfl
      rw [addMissing_cons, ih hnext, List.map_cons, List.append_assoc]
      rfl

theorem find?_addMissing (b : Bindings β) (es : List (Text × β)) (key : Text) :
    (b.addMissing es).find? key = (b.find? key).or (lookup key es) := by
  induction es generalizing b with
  | nil => exact Option.or_none.symm
  | cons e es ih =>
      obtain ⟨k, v⟩ := e
      rw [addMissing_cons, ih]
      by_cases hk : k ∈ b.keys
      · obtain ⟨w, hw⟩ := Option.isSome_iff_exists.1 (contains_iff.2 hk)
        rw [if_pos hk]
        by_cases heq : k = key
        · subst heq
          rw [hw]
          rfl
        · rw [lookup, if_neg heq]
      · have hnone : b.find? k = none := by
          simpa [contains] using contains_eq_false_iff.2 hk
        rw [if_neg hk, find?_insert]
        by_cases heq : k = key
        · subst heq
          rw [if_pos rfl, hnone, lookup, if_pos rfl]
          rfl
        · rw [if_neg heq, lookup, if_neg heq]

theorem find?_mergeMissing (b c : Bindings β) (key : Text) :
    (b.mergeMissing c).find? key = (b.find? key).or (c.find? key) :=
  find?_addMissing b c.entries key

/-! ## Edits -/

/-- One change of bindings. -/
inductive Edit (β : Type) where
  | bind (key : Text) (value : β)
  | startFrom (pairs : List (Text × β))
  | merge (other : Bindings β)

namespace Edit

/-- The bindings after a change. -/
def apply (b : Bindings β) : Edit β → Bindings β
  | bind key value => b.insert key value
  | startFrom pairs => ofList pairs
  | merge other => b.mergeMissing other

/-- The keys that have been named after a change, given those that were named before. -/
def names (before : List Text) : Edit β → List Text
  | bind key _ => before ++ [key]
  | startFrom pairs => pairs.map Prod.fst
  | merge other => before ++ other.keys

/-- The value of a key after a change, given the one before. -/
def valueOf (key : Text) (before : Option β) : Edit β → Option β
  | bind k value => if k = key then some value else before
  | startFrom pairs => lookup key pairs.reverse
  | merge other => before.or (other.find? key)

theorem find?_apply (b : Bindings β) (e : Edit β) (key : Text) :
    (e.apply b).find? key = e.valueOf key (b.find? key) := by
  cases e with
  | bind k value => exact find?_insert b k key value
  | startFrom pairs => exact find?_ofList pairs key
  | merge other => exact find?_mergeMissing b other key

/-- Keys in the order in which they were first named stay so. -/
theorem keys_apply (e : Edit β) {before : List Text} (h : b.keys = before.eraseDups) :
    (e.apply b).keys = (e.names before).eraseDups := by
  cases e with
  | bind key value => exact keys_insert_of_eraseDups h key value
  | startFrom pairs => exact keys_ofList pairs
  | merge other => exact keys_addMissing_of_eraseDups h other.entries

end Edit

/-- The bindings after some changes. -/
def after (b : Bindings β) (edits : List (Edit β)) : Bindings β := edits.foldl Edit.apply b

theorem keys_after (edits : List (Edit β)) {before : List Text} (h : b.keys = before.eraseDups) :
    (b.after edits).keys = (edits.foldl Edit.names before).eraseDups := by
  induction edits generalizing b before with
  | nil => exact h
  | cons e edits ih => exact ih (e.keys_apply h)

theorem find?_after (b : Bindings β) (edits : List (Edit β)) (key : Text) :
    (b.after edits).find? key = edits.foldl (Edit.valueOf key) (b.find? key) := by
  induction edits generalizing b with
  | nil => rfl
  | cons e edits ih => exact (ih (e.apply b)).trans (by rw [e.find?_apply]; rfl)

/-- Names that differ are each where they come first. -/
theorem eraseDups_of_nodup {names : List Text} (h : names.Nodup) : names.eraseDups = names := by
  induction names using List.reverseRecOn with
  | nil => rfl
  | append_singleton names key ih =>
      have hnames := ih h.of_append_left
      have hnew : key ∉ names := fun hmem =>
        List.disjoint_of_nodup_append h hmem List.mem_cons_self
      rw [eraseDups_concat, hnames, if_neg hnew]

/-- **Bindings are an ordered map after any history.** Each key is there once, in the order in
which the keys were first named, with the value it was given last. Binding a key changes this
value alone, where it stands. Merging leaves all entries in their places and puts the missing ones
behind them in their order. So it changes nothing when it is repeated, empty bindings are its unit
on both sides, and it is associative, in the entries and in their order. -/
theorem after_isOrdered (b : Bindings β) (edits : List (Edit β)) :
    let m := b.after edits
    m.keys.Nodup ∧
      m.keys = (edits.foldl Edit.names b.keys).eraseDups ∧
      (∀ key, m.find? key = edits.foldl (Edit.valueOf key) (b.find? key)) ∧
      (∀ key value, (m.insert key value).entries =
        if key ∈ m.keys then m.entries.map fun e => if e.1 = key then (key, value) else e
        else m.entries ++ [(key, value)]) ∧
      (∀ c : Bindings β,
        (m.mergeMissing c).entries = m.entries ++ c.entries.filter (fun e => e.1 ∉ m.keys) ∧
        (m.mergeMissing c).mergeMissing c = m.mergeMissing c) ∧
      m.mergeMissing m = m ∧ m.mergeMissing empty = m ∧ empty.mergeMissing m = m ∧
      ∀ c d : Bindings β,
        (m.mergeMissing c).mergeMissing d = m.mergeMissing (c.mergeMissing d) := by
  intro m
  have hkeys : m.keys = (edits.foldl Edit.names b.keys).eraseDups :=
    keys_after edits (eraseDups_of_nodup b.nodup).symm
  refine ⟨m.nodup, hkeys, find?_after b edits, entries_insert m, fun c => ?_, mergeMissing_self m,
    mergeMissing_empty m, empty_mergeMissing m, mergeMissing_assoc m⟩
  exact ⟨entries_mergeMissing m c, mergeMissing_mergeMissing m c⟩

/-- Two keys are merged in behind the first, which is then bound anew; what a later merge says of
them is not heard. -/
theorem after_isOrdered_of_overlap :
    let b : Bindings Nat := .ofList [(['x'], 1)]
    let edits : List (Edit Nat) := [.merge (.ofList [(['z'], 2), (['x'], 9), (['y'], 3)]),
      .bind ['x'] 4, .merge (.ofList [(['y'], 8), (['u'], 5)])]
    let m := b.after edits
    let c : Bindings Nat := .ofList [(['v'], 6), (['z'], 7)]
    let d : Bindings Nat := .ofList [(['z'], 0), (['w'], 1), (['v'], 2)]
    m.entries = [(['x'], 4), (['z'], 2), (['y'], 3), (['u'], 5)] ∧
      m.keys = (edits.foldl Edit.names b.keys).eraseDups ∧
      ((m.mergeMissing c).mergeMissing d).entries =
        m.entries ++ [(['v'], 6), (['w'], 1)] ∧
      (m.mergeMissing c).mergeMissing d = m.mergeMissing (c.mergeMissing d) := by
  intro b edits m c d
  obtain ⟨-, hkeys, -, -, -, -, -, -, hassoc⟩ := after_isOrdered b edits
  exact ⟨by decide +kernel, hkeys, by decide +kernel, hassoc c d⟩

end TagTemplate.Bindings
