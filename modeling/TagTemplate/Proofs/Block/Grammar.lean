import TagTemplate.Proofs.Block.Runs

/-!
# The grammar of blocks

Whether the marks of a text fit together depends on their roles alone: a word of
roles is balanced if it can be read as blocks one behind the other and in one
another, each with at most one divider. `Derives` is the same grammar on marks,
with the outermost blocks that a word is read as. A scan takes every balanced
word and completes these blocks.
-/

namespace TagTemplate.Block

variable {ms : List Mark} {bs : List Block}

/-- A word of roles that can be read as blocks one behind the other and in one another. -/
inductive Balanced : List Role → Prop where
  | nil : Balanced []
  | block {body rest : List Role} (key : Text) (hb : Balanced body) (hr : Balanced rest) :
      Balanced (.opens key :: (body ++ .closes :: rest))
  | blockElse {body alternative rest : List Role} (key : Text) (hb : Balanced body)
      (ha : Balanced alternative) (hr : Balanced rest) :
      Balanced (.opens key :: (body ++ .divides :: (alternative ++ .closes :: rest)))

theorem Balanced.append {v w : List Role} (hv : Balanced v) (hw : Balanced w) :
    Balanced (v ++ w) := by
  induction hv with
  | nil => exact hw
  | block key hb _ _ ih =>
      simp only [List.cons_append, List.append_assoc]
      exact .block key hb ih
  | blockElse key hb ha _ _ _ ih =>
      simp only [List.cons_append, List.append_assoc]
      exact .blockElse key hb ha ih

/-- The roles of some marks. -/
def roles (ms : List Mark) : List Role := ms.map Mark.role

@[simp] theorem roles_nil : roles [] = [] := rfl

@[simp] theorem roles_cons (m : Mark) (ms : List Mark) : roles (m :: ms) = m.role :: roles ms := rfl

@[simp] theorem roles_append (ms ms' : List Mark) : roles (ms ++ ms') = roles ms ++ roles ms' :=
  List.map_append

@[simp] theorem roles_shift (n : Nat) (ms : List Mark) :
    roles (ms.map (Mark.shift n)) = roles ms := by
  rw [roles, List.map_map]
  rfl

/-! ## The blocks of a word -/

/-- Marks that can be read as blocks, and the outermost of these in order: the body lies between
the opening tag and the next tag of the block, what comes after its divider between that and the
closing tag. -/
inductive Derives : List Mark → List Block → Prop where
  | nil : Derives [] []
  | block {body rest : List Mark} {inner bs : List Block} (key : Text) (opener closer : Span)
      (hb : Derives body inner) (hr : Derives rest bs) :
      Derives (⟨.opens key, opener⟩ :: (body ++ ⟨.closes, closer⟩ :: rest))
        (⟨key, ⟨opener.start, closer.stop⟩, ⟨opener.stop, closer.start⟩, none⟩ :: bs)
  | blockElse {body alternative rest : List Mark} {inner inner' bs : List Block} (key : Text)
      (opener divider closer : Span) (hb : Derives body inner) (ha : Derives alternative inner')
      (hr : Derives rest bs) :
      Derives
        (⟨.opens key, opener⟩ ::
          (body ++ ⟨.divides, divider⟩ :: (alternative ++ ⟨.closes, closer⟩ :: rest)))
        (⟨key, ⟨opener.start, closer.stop⟩, ⟨opener.stop, divider.start⟩,
          some ⟨divider.stop, closer.start⟩⟩ :: bs)

theorem Derives.balanced (h : Derives ms bs) : Balanced (roles ms) := by
  induction h with
  | nil => exact .nil
  | block key opener closer _ _ ihb ihr =>
      rw [roles_cons, roles_append, roles_cons]
      exact .block key ihb ihr
  | blockElse key opener divider closer _ _ _ ihb iha ihr =>
      rw [roles_cons, roles_append, roles_cons, roles_append, roles_cons]
      exact .blockElse key ihb iha ihr

/-- Marks whose roles are balanced can be read as blocks. -/
theorem Balanced.exists_derives (h : Balanced (roles ms)) : ∃ bs, Derives ms bs := by
  generalize hw : roles ms = w at h
  induction h generalizing ms with
  | nil =>
      rw [List.map_eq_nil_iff.1 hw]
      exact ⟨[], .nil⟩
  | block key _ _ ihb ihr =>
      obtain ⟨⟨role, o⟩, ms, rfl, ho, hw⟩ := List.map_eq_cons_iff.1 hw
      obtain ⟨body, ms, rfl, hbody, hw⟩ := List.map_eq_append_iff.1 hw
      obtain ⟨⟨role', c⟩, rest, rfl, hc, hrest⟩ := List.map_eq_cons_iff.1 hw
      cases ho
      cases hc
      obtain ⟨inner, hinner⟩ := ihb hbody
      obtain ⟨bs, hbs⟩ := ihr hrest
      exact ⟨_, .block key o c hinner hbs⟩
  | blockElse key _ _ _ ihb iha ihr =>
      obtain ⟨⟨role, o⟩, ms, rfl, ho, hw⟩ := List.map_eq_cons_iff.1 hw
      obtain ⟨body, ms, rfl, hbody, hw⟩ := List.map_eq_append_iff.1 hw
      obtain ⟨⟨role', d⟩, ms, rfl, hd, hw⟩ := List.map_eq_cons_iff.1 hw
      obtain ⟨alternative, ms, rfl, halternative, hw⟩ := List.map_eq_append_iff.1 hw
      obtain ⟨⟨role'', c⟩, rest, rfl, hc, hrest⟩ := List.map_eq_cons_iff.1 hw
      cases ho
      cases hd
      cases hc
      obtain ⟨inner, hinner⟩ := ihb hbody
      obtain ⟨inner', hinner'⟩ := iha halternative
      obtain ⟨bs, hbs⟩ := ihr hrest
      exact ⟨_, .blockElse key o d c hinner hinner' hbs⟩

/-- A scan takes marks that can be read as blocks, and completes these blocks. -/
theorem Derives.runs (h : Derives ms bs) : Runs .start ms ⟨[], bs⟩ := by
  induction h with
  | nil => exact .nil _
  | block key o c _ _ ihb ihr =>
      have hrest := ihr.behind [Pending.close ⟨key, o, none⟩ c]
      exact .cons (.opens key o [] [])
        ((ihb.inside _ [] []).append (.cons (.closesOuter _ c []) hrest))
  | blockElse key o d c _ _ _ ihb iha ihr =>
      have hrest := ihr.behind [Pending.close ⟨key, o, some d⟩ c]
      have halternative := (iha.inside ⟨key, o, some d⟩ [] []).append
        (.cons (.closesOuter _ c []) hrest)
      exact .cons (.opens key o [] []) ((ihb.inside _ [] []).append
        (.cons (.divides key o d [] []) halternative))

/-- A scan takes every balanced word. -/
theorem Balanced.runs (h : Balanced (roles ms)) : ∃ bs, Runs .start ms ⟨[], bs⟩ := by
  obtain ⟨bs, hbs⟩ := h.exists_derives
  exact ⟨bs, hbs.runs⟩

end TagTemplate.Block
