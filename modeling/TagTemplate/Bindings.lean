import TagTemplate.Text.Basic

/-!
# Bindings

Values bound to keys, in the order in which the keys were first bound. Each key
is bound once: binding it again changes its value and leaves it in its place.
-/

namespace TagTemplate

/-- Keys with their values, in order, each key once. -/
structure Bindings (β : Type) where
  entries : List (Text × β)
  nodup : (entries.map Prod.fst).Nodup
  deriving Repr

namespace Bindings

variable {κ β : Type} [DecidableEq κ]

/-! ## Entries -/

/-- The value that a list of entries has for a key. -/
def lookup (key : κ) : List (κ × β) → Option β
  | [] => none
  | (k, v) :: es => if k = key then some v else lookup key es

/-- A list of entries with a key bound anew. -/
def put (key : κ) (value : β) : List (κ × β) → List (κ × β)
  | [] => [(key, value)]
  | (k, v) :: es => if k = key then (key, value) :: es else (k, v) :: put key value es

theorem lookup_put (key k : κ) (value : β) (es : List (κ × β)) :
    lookup k (put key value es) = if key = k then some value else lookup k es := by
  induction es with
  | nil => simp [put, lookup]
  | cons e es ih =>
      obtain ⟨k', v⟩ := e
      by_cases h : k' = key
      · subst h
        by_cases hk : k' = k <;> simp [put, lookup, hk]
      · by_cases hk : k' = k
        · subst hk
          simp [put, lookup, h, Ne.symm h]
        · simp [put, lookup, h, hk, ih]

theorem map_fst_put (key : κ) (value : β) (es : List (κ × β)) :
    (put key value es).map Prod.fst =
      if key ∈ es.map Prod.fst then es.map Prod.fst else es.map Prod.fst ++ [key] := by
  induction es with
  | nil => simp [put]
  | cons e es ih =>
      obtain ⟨k, v⟩ := e
      by_cases h : k = key
      · simp [put, h]
      · simp only [put, h, if_false, List.map_cons, ih, List.mem_cons, Ne.symm h, false_or]
        split <;> rfl

theorem nodup_put {es : List (κ × β)} (h : (es.map Prod.fst).Nodup) (key : κ) (value : β) :
    ((put key value es).map Prod.fst).Nodup := by
  rw [map_fst_put]
  split
  · exact h
  next hnew =>
    refine List.nodup_append.2 ⟨h, List.pairwise_singleton _ key, ?_⟩
    intro k hk k' hk' heq
    rw [heq, List.mem_singleton.1 hk'] at hk
    exact hnew hk

/-! ## Bindings -/

/-- No bindings. -/
def empty : Bindings β := ⟨[], List.nodup_nil⟩

instance : Inhabited (Bindings β) := ⟨empty⟩

/-- The keys in order. -/
def keys (b : Bindings β) : List Text := b.entries.map Prod.fst

/-- Number of keys. -/
def size (b : Bindings β) : Nat := b.entries.length

/-- Whether nothing is bound. -/
def isEmpty (b : Bindings β) : Bool := b.entries.isEmpty

/-- The value of a key. -/
def find? (b : Bindings β) (key : Text) : Option β := lookup key b.entries

/-- Whether a key is bound. -/
def contains (b : Bindings β) (key : Text) : Bool := (b.find? key).isSome

/-- The bindings with a key bound anew. -/
def insert (b : Bindings β) (key : Text) (value : β) : Bindings β :=
  ⟨put key value b.entries, nodup_put b.nodup key value⟩

/-- The bindings that a list of pairs makes, one after the other. -/
def ofList (pairs : List (Text × β)) : Bindings β :=
  pairs.foldl (fun b (key, value) => b.insert key value) empty

/-- The bindings with those entries of a list whose keys are not bound, one after the other. -/
def addMissing (b : Bindings β) (entries : List (Text × β)) : Bindings β :=
  entries.foldl (fun b (key, value) => if b.contains key then b else b.insert key value) b

/-- The bindings with those of `other` whose keys are not bound. -/
def mergeMissing (b other : Bindings β) : Bindings β := b.addMissing other.entries

/-- A key has the value it was bound to last. -/
theorem find?_insert (b : Bindings β) (key k : Text) (value : β) :
    (b.insert key value).find? k = if key = k then some value else b.find? k :=
  lookup_put key k value b.entries

/-- A key keeps its place when it is bound again, and a new key comes last. -/
theorem keys_insert (b : Bindings β) (key : Text) (value : β) :
    (b.insert key value).keys = if key ∈ b.keys then b.keys else b.keys ++ [key] := by
  have h := map_fst_put key value b.entries
  by_cases hk : key ∈ b.keys
  · rw [if_pos hk]
    exact h.trans (if_pos hk)
  · rw [if_neg hk]
    exact h.trans (if_neg hk)

end Bindings

end TagTemplate
