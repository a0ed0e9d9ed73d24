import TagTemplate.Proofs.Slices.Text
import TagTemplate.Proofs.Tag.Lexing

/-!
# Finding tags by bytes

The scan for tags, told with the byte offset that it has come to: it looks for
opening braces in the text from there on, for closing braces in the text behind
them, and cuts out what stands between. Behind a tag it goes on where the tag
ends. At braces that start no tag it goes on one byte further, which is behind a
brace and so between two characters.
-/

namespace TagTemplate.Tag

/-- One step of a scan: the tag that it finds, if any, and the byte where the scan goes on. -/
structure Step where
  found : Option Tag
  pos : Nat

/-- The step of a scan from byte `pos` on, if there is anything left to look at. -/
def next? (t : Text) (pos : Nat) : Option (Option Step) := do
  let rest ← Text.slice? t ⟨pos, Text.size t⟩
  match Text.cut? openMark rest with
  | none => pure none
  | some (before, _) =>
    let start := pos + Text.size before
    let first := start + Text.size openMark
    let rest ← Text.slice? t ⟨first, Text.size t⟩
    match Text.cut? closeMark rest with
    | none => pure none
    | some (before, _) =>
      let last := first + Text.size before
      let stop := last + Text.size closeMark
      let interior ← Text.slice? t ⟨first, last⟩
      match classify interior with
      | some kind => pure (some ⟨some ⟨kind, ⟨start, stop⟩⟩, stop⟩)
      | none => pure (some ⟨none, start + 1⟩)

/-! ## The tags behind the first braces -/

variable {t before after interior behind : Text} {pos : Nat}

/-- Without opening braces there are no tags. -/
theorem scan_of_not_opened (h : Text.cut? openMark t = none) (offset : Nat) :
    scan offset 0 t = [] := by
  refine List.eq_nil_iff_forall_not_mem.2 fun tag htag => ?_
  obtain ⟨a, w, b, rfl, ⟨i, rfl, -⟩, -⟩ := mem_scan_iff.1 htag
  refine absurd h (Text.cut?_ne_none ⟨a, i ++ closeMark ++ b, ?_⟩)
  simp only [List.append_assoc]

/-- Without closing braces behind opening ones there are no tags. -/
theorem scan_of_not_closed (h : Text.cut? closeMark after = none) (offset : Nat) :
    scan offset 0 (openMark ++ after) = [] := by
  refine List.eq_nil_iff_forall_not_mem.2 fun tag htag => ?_
  obtain ⟨a, w, b, heq, ⟨i, rfl, -⟩, -⟩ := mem_scan_iff.1 htag
  have hlong : openMark.length ≤ (a ++ openMark ++ i).length := by
    simp only [List.length_append]
    omega
  rw [show a ++ (openMark ++ i ++ closeMark) ++ b = (a ++ openMark ++ i) ++ (closeMark ++ b) by
    simp only [List.append_assoc]] at heq
  -- the closing braces stand behind the first opening ones
  obtain ⟨x, hx⟩ := List.prefix_of_prefix_length_le ⟨after, rfl⟩ ⟨closeMark ++ b, heq.symm⟩ hlong
  rw [← hx, List.append_assoc, List.append_cancel_left_eq] at heq
  refine absurd h (Text.cut?_ne_none ⟨x, b, ?_⟩)
  rw [heq, List.append_assoc]

/-- No tag starts before the first opening braces. -/
theorem scan_of_opened (h : Text.cut? openMark t = some (before, after)) (offset : Nat) :
    scan offset 0 t = scan (offset + Text.size before) 0 (openMark ++ after) := by
  induction t generalizing before offset with
  | nil => cases h
  | cons c t ih =>
      rw [Text.cut?] at h
      split at h
      next rest hrest =>
        cases h
        rw [Text.isPrefixOf?_eq_some_iff.1 hrest]
        rfl
      next hnot =>
        obtain ⟨⟨front, back⟩, hcut, heq⟩ := Option.map_eq_some_iff.1 h
        obtain ⟨rfl, rfl⟩ := Prod.mk.inj heq
        have hnone : opening? (c :: t) = none := by
          rw [opening?, hnot]
          rfl
        rw [scan_char hnone, ih hcut, Text.size_cons, Nat.add_assoc]

/-- Behind a tag the scan goes on where the tag ends. -/
theorem scan_of_kind {kind : Kind} (h : Text.cut? closeMark after = some (interior, behind))
    (hkind : classify interior = some kind) (offset : Nat) :
    let stop := offset + Text.size (openMark ++ interior ++ closeMark)
    scan offset 0 (openMark ++ after) = ⟨kind, ⟨offset, stop⟩⟩ :: scan stop 0 behind := by
  obtain rfl := Text.eq_append_of_cut? h
  have hspells : Spells kind (openMark ++ interior ++ closeMark) :=
    ⟨interior, rfl, hkind, cut?_closeMark_iff.1 h⟩
  have hscan := scan_spells hspells offset behind
  rw [List.append_assoc, List.append_assoc] at hscan
  rw [List.append_assoc interior]
  exact hscan

/-- At braces that start no tag it goes on behind the first of them. -/
theorem scan_of_no_kind (h : Text.cut? closeMark after = some (interior, behind))
    (hkind : classify interior = none) (offset : Nat) :
    scan offset 0 (openMark ++ after) = scan (offset + 1) 0 ('{' :: after) := by
  have hbrace : '{'.utf8Size = 1 := by decide
  have hnone : opening? (openMark ++ after) = none := by
    rw [opening?, Text.isPrefixOf?_eq_some_iff.2 rfl, Option.bind_eq_bind, Option.bind_some, h]
    show (classify interior >>= fun kind => pure (kind, interior)) = none
    rw [hkind]
    rfl
  rw [← hbrace]
  exact scan_char hnone offset

/-! ## One step -/

/-- What stands behind some characters `a` can be cut out. -/
theorem slice?_behind (a rest : Text) :
    Text.slice? (a ++ rest) ⟨Text.size a, Text.size (a ++ rest)⟩ = some rest :=
  Text.slice?_eq_some_iff.2 ⟨a, [], by simp, rfl, by simp⟩

theorem next?_of_not_opened (h : Text.cut? openMark t = none) (a : Text) :
    next? (a ++ t) (Text.size a) = some none := by
  rw [next?, slice?_behind, Option.bind_eq_bind, Option.bind_some, h]
  rfl

theorem next?_of_opened (h : Text.cut? openMark t = some (before, after)) (a : Text) :
    next? (a ++ t) (Text.size a) =
      let start := Text.size (a ++ before)
      match Text.cut? closeMark after with
      | none => some none
      | some (interior, _) =>
        let stop := start + Text.size (openMark ++ interior ++ closeMark)
        match classify interior with
        | some kind => some (some ⟨some ⟨kind, ⟨start, stop⟩⟩, stop⟩)
        | none => some (some ⟨none, start + 1⟩) := by
  have hafter := slice?_behind (a ++ before ++ openMark) after
  rw [next?, slice?_behind, Option.bind_eq_bind, Option.bind_some, h]
  obtain rfl := Text.eq_append_of_cut? h
  simp only [List.append_assoc, Text.size_append, Nat.add_assoc] at hafter ⊢
  rw [hafter, Option.bind_some]
  cases hclose : Text.cut? closeMark after with
  | none => rfl
  | some parts =>
      obtain ⟨interior, behind⟩ := parts
      have hinterior := Text.slice?_mid (a ++ before ++ openMark) interior (closeMark ++ behind)
      rw [Text.eq_append_of_cut? hclose]
      simp only [List.append_assoc, Text.size_append, Nat.add_assoc] at hinterior ⊢
      rw [hinterior, Option.bind_some]
      cases classify interior <;> rfl

/-- The step of a scan behind some characters `a`: if there is none, no tags are left, else they are
the one that is found and those behind the characters that the step has passed. -/
theorem next?_cases (a rest : Text) :
    (next? (a ++ rest) (Text.size a) = some none ∧ scan (Text.size a) 0 rest = []) ∨
      ∃ found x b, rest = x ++ b ∧ x ≠ [] ∧
        next? (a ++ rest) (Text.size a) = some (some ⟨found, Text.size (a ++ x)⟩) ∧
        scan (Text.size a) 0 rest = found.toList ++ scan (Text.size (a ++ x)) 0 b := by
  cases hopen : Text.cut? openMark rest with
  | none => exact .inl ⟨next?_of_not_opened hopen a, scan_of_not_opened hopen _⟩
  | some parts =>
      obtain ⟨before, after⟩ := parts
      rw [next?_of_opened hopen, scan_of_opened hopen, ← Text.size_append]
      obtain rfl := Text.eq_append_of_cut? hopen
      cases hclose : Text.cut? closeMark after with
      | none => exact .inl ⟨rfl, scan_of_not_closed hclose _⟩
      | some parts =>
          obtain ⟨interior, behind⟩ := parts
          right
          dsimp only
          cases hkind : classify interior with
          | some kind =>
              have hpassed : Text.size (a ++ (before ++ (openMark ++ interior ++ closeMark))) =
                  Text.size (a ++ before) + Text.size (openMark ++ interior ++ closeMark) := by
                rw [← List.append_assoc, Text.size_append]
              refine ⟨some ⟨kind, ⟨Text.size (a ++ before), Text.size (a ++ before) +
                Text.size (openMark ++ interior ++ closeMark)⟩⟩,
                before ++ (openMark ++ interior ++ closeMark), behind, ?_, by simp [openMark], ?_,
                ?_⟩
              · rw [Text.eq_append_of_cut? hclose]
                simp only [List.append_assoc]
              · rw [hpassed]
              · rw [scan_of_kind hclose hkind, hpassed]
                rfl
          | none =>
              have hpassed : Text.size (a ++ (before ++ ['{'])) = Text.size (a ++ before) + 1 := by
                rw [← List.append_assoc, Text.size_append]
                rfl
              refine ⟨none, before ++ ['{'], '{' :: after, by simp [openMark], by simp, ?_, ?_⟩
              · rw [hpassed]
              · rw [scan_of_no_kind hclose hkind, hpassed]
                rfl

/-! ## The scan -/

/-- A scan goes on behind where it has come to, and within the text. -/
theorem lt_of_next? {step : Step} (h : next? t pos = some (some step)) :
    pos < step.pos ∧ step.pos ≤ Text.size t := by
  obtain ⟨rest, hrest, -⟩ := Option.bind_eq_some_iff.1 h
  obtain ⟨a, b, rfl, rfl, hstop⟩ := Text.slice?_eq_some_iff.1 hrest
  obtain rfl : b = [] := by
    simp only [Text.size_append] at hstop
    exact Text.size_eq_zero_iff.1 (by omega)
  rw [List.append_nil] at h ⊢
  rcases next?_cases a rest with ⟨hnone, -⟩ | ⟨found, x, b, rfl, hx, hsome, -⟩
  · cases hnone.symm.trans h
  · cases hsome.symm.trans h
    have hpos : 0 < Text.size x := Nat.pos_of_ne_zero fun h => hx (Text.size_eq_zero_iff.1 h)
    simp only [Text.size_append]
    omega

/-- The tags of a text from byte `pos` on. -/
def lexFrom? (t : Text) (pos : Nat) : Option (List Tag) :=
  match h : next? t pos with
  | none => none
  | some none => some []
  | some (some step) =>
    have := lt_of_next? h
    (lexFrom? t step.pos).map (step.found.toList ++ ·)
termination_by Text.size t - pos

/-- The tags of a text, in order. -/
def lex? (t : Text) : Option (List Tag) := lexFrom? t 0

theorem lexFrom?_of_none (h : next? t pos = some none) : lexFrom? t pos = some [] := by
  rw [lexFrom?]
  split
  next h' => cases h.symm.trans h'
  next => rfl
  next h' => cases h.symm.trans h'

theorem lexFrom?_of_some {step : Step} (h : next? t pos = some (some step)) :
    lexFrom? t pos = (lexFrom? t step.pos).map (step.found.toList ++ ·) := by
  rw [lexFrom?]
  split
  next h' => cases h.symm.trans h'
  next h' => cases h.symm.trans h'
  next h' =>
    cases h.symm.trans h'
    rfl

theorem lexFrom?_eq (a rest : Text) :
    lexFrom? (a ++ rest) (Text.size a) = some (scan (Text.size a) 0 rest) := by
  induction hn : rest.length using Nat.strong_induction_on generalizing a rest with
  | _ n ih =>
      subst hn
      rcases next?_cases a rest with ⟨hnone, hscan⟩ | ⟨found, x, b, hrest, hx, hsome, hscan⟩
      · rw [lexFrom?_of_none hnone, hscan]
      · have hlength := List.length_pos_iff.2 hx
        have hfurther := ih b.length (by rw [hrest, List.length_append]; omega) (a ++ x) b rfl
        rw [List.append_assoc, ← hrest] at hfurther
        rw [lexFrom?_of_some hsome, hfurther, hscan]
        rfl

/-- The scan by bytes cuts out nothing but parts of the text, and finds its tags. -/
theorem lex?_eq (t : Text) : lex? t = some (lex t) := lexFrom?_eq [] t

end TagTemplate.Tag
