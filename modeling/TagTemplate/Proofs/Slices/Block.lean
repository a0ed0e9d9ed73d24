import TagTemplate.Block.Bounds
import TagTemplate.Check
import TagTemplate.Proofs.Block.Matching
import TagTemplate.Proofs.Slices.Lexer

/-!
# Blocks in range

A search for blocks cuts out text in one place only: for the position of a
marker that it reports. What it finds are ranges, put together from the ends of
different tags, which are cut out later on.
-/

namespace TagTemplate

/-! ## Reports -/

/-- A defect reported, its position counted in the text before it. -/
def report? (policy : Policy) (text : Text) (offset : Nat) (defect : Defect) :
    Option (Except Error Unit) :=
  match policy with
  | .strict => do
    let position ← Text.positionAt? text offset
    pure (.error (.malformed position defect))
  | .passThrough => pure (.ok ())

theorem report?_eq {text : Text} {offset : Nat} (h : Text.Boundary text offset) (policy : Policy)
    (defect : Defect) :
    report? policy text offset defect = some (report policy text offset defect) := by
  cases policy with
  | strict =>
      rw [report?, Text.positionAt?_eq h]
      rfl
  | passThrough => rfl

/-- Reports the first malformed tag of one of some forms. -/
def reportMalformed? (policy : Policy) (forms : List Form) (text : Text) :
    List Tag → Option (Except Error Unit)
  | [] => pure (.ok ())
  | tag :: tags =>
    match tag.kind with
    | .malformed form fault =>
      if form ∈ forms then do
        match ← report? policy text tag.span.start (.badTag form fault) with
        | .error e => pure (.error e)
        | .ok () => reportMalformed? policy forms text tags
      else reportMalformed? policy forms text tags
    | _ => reportMalformed? policy forms text tags

theorem reportMalformed?_eq {text : Text} {tags : List Tag}
    (h : ∀ tag ∈ tags, Text.Boundary text tag.span.start) (policy : Policy) (forms : List Form) :
    reportMalformed? policy forms text tags =
      some (reportMalformed policy forms text tags) := by
  induction tags with
  | nil => rfl
  | cons tag tags ih =>
      obtain ⟨htag, htags⟩ := List.forall_mem_cons.1 h
      unfold reportMalformed? reportMalformed
      cases tag.kind with
      | malformed form fault =>
          dsimp only
          by_cases hform : form ∈ forms
          · rw [if_pos hform, if_pos hform, report?_eq htag, Option.bind_eq_bind, Option.bind_some]
            cases report policy text tag.span.start (.badTag form fault) with
            | error e => rfl
            | ok u => exact ih htags
          · rw [if_neg hform, if_neg hform]
            exact ih htags
      | _ => exact ih htags

namespace Block

variable {family : Family} {policy : Policy} {text : Text} {ms : List Mark} {bs : List Block}

/-! ## Searches -/

/-- One mark further. -/
def Progress.step? (family : Family) (policy : Policy) (text : Text) (s : Progress) (m : Mark) :
    Option (Except Error Progress) :=
  let skip (defect : Defect) : Option (Except Error Progress) := do
    let reported ← report? policy text m.span.start defect
    pure (reported.map fun _ => s)
  match m.role, s.pending with
  | .opens key, open_ => pure (.ok { s with pending := ⟨key, m.span, none⟩ :: open_ })
  | .divides, [] => skip .strayElse
  | .divides, top :: rest =>
    match top.divider with
    | none => pure (.ok { s with pending := { top with divider := some m.span } :: rest })
    | some _ => skip .secondElse
  | .closes, [] => skip (.strayCloser family)
  | .closes, [top] => pure (.ok ⟨[], s.done ++ [top.close m.span]⟩)
  | .closes, _ :: rest => pure (.ok { s with pending := rest })
  | .malformed fault, _ => skip (.badOpener family fault)

/-- A scan over some marks. -/
def Progress.run? (family : Family) (policy : Policy) (text : Text) :
    Progress → List Mark → Option (Except Error Progress)
  | s, [] => pure (.ok s)
  | s, m :: ms => do
    match ← s.step? family policy text m with
    | .error e => pure (.error e)
    | .ok s => s.run? family policy text ms

/-- The blocks that at most `scans` scans find. -/
def findWithin? (family : Family) (policy : Policy) (text : Text) :
    (scans : Nat) → List Mark → Option (Except Error (Option (List Block)))
  | 0, _ => pure (.ok none)
  | scans + 1, ms => do
    match ← Progress.start.run? family policy text ms with
    | .error e => pure (.error e)
    | .ok s =>
      match s.pending.getLast? with
      | none => pure (.ok (some s.done))
      | some outermost =>
        match ← report? policy text outermost.opener.start (.unterminated family) with
        | .error e => pure (.error e)
        | .ok () =>
          findWithin? family policy text scans (ms.filter fun m => m.span ≠ outermost.opener)

/-- The outermost blocks of a family in a text, in order. -/
def find? (family : Family) (policy : Policy) (text : Text) :
    Option (Except Error (List Block)) := do
  let tags ← Tag.lex? text
  let ms := marks family tags
  let found ← findWithin? family policy text (ms.countP Mark.isOpener + 1) ms
  pure (found.map fun found => found.getD [])

theorem Progress.step?_eq {s : Progress} {m : Mark} (h : Text.Boundary text m.span.start) :
    s.step? family policy text m = some (s.step family policy text m) := by
  have hskip : ∀ d, (do
      let reported ← report? policy text m.span.start d
      pure (reported.map fun _ => s)) =
        some ((report policy text m.span.start d).map fun _ => s) := by
    intro d
    rw [report?_eq h]
    rfl
  obtain ⟨role, span⟩ := m
  obtain ⟨pending, done⟩ := s
  cases role with
  | opens key => rfl
  | divides =>
      cases pending with
      | nil => exact hskip _
      | cons top rest =>
          obtain ⟨key, opener, divider⟩ := top
          cases divider with
          | none => rfl
          | some d => exact hskip _
  | closes =>
      match pending with
      | [] => exact hskip _
      | [_] => rfl
      | _ :: _ :: _ => rfl
  | malformed fault => exact hskip _

theorem Progress.run?_eq (h : ∀ m ∈ ms, Text.Boundary text m.span.start) (s : Progress) :
    s.run? family policy text ms = some (s.run family policy text ms) := by
  induction ms generalizing s with
  | nil => rfl
  | cons m ms ih =>
      obtain ⟨hm, hms⟩ := List.forall_mem_cons.1 h
      rw [run?, run, step?_eq hm, Option.bind_eq_bind, Option.bind_some]
      cases s.step family policy text m with
      | error e => rfl
      | ok s => exact ih hms s

/-- The outermost open block is reported where its opening tag begins. -/
theorem findWithin?_eq (h : ∀ m ∈ ms, Text.Boundary text m.span.start) (scans : Nat) :
    findWithin? family policy text scans ms = some (findWithin family policy text scans ms) := by
  induction scans generalizing ms with
  | zero => rfl
  | succ scans ih =>
      rw [findWithin?, findWithin, Progress.run?_eq h, Option.bind_eq_bind, Option.bind_some]
      cases hrun : Progress.start.run family policy text ms with
      | error e => rfl
      | ok s =>
          dsimp only
          cases hlast : s.pending.getLast? with
          | none => rfl
          | some outermost =>
              have hfrom : s.From (ms.map Mark.span) :=
                Progress.From.run ⟨by simp [Progress.start], by simp [Progress.start]⟩
                  (fun m hm => List.mem_map_of_mem hm) hrun
              obtain ⟨m, hm, hopener⟩ :=
                List.mem_map.1 (hfrom.1 outermost (List.mem_of_getLast? hlast)).1
              have hboundary := h m hm
              rw [hopener] at hboundary
              dsimp only
              rw [report?_eq hboundary, Option.bind_eq_bind, Option.bind_some]
              cases report policy text outermost.opener.start (.unterminated family) with
              | error e => rfl
              | ok u => exact ih fun m hm => h m (List.mem_filter.1 hm).1

theorem find?_eq (family : Family) (policy : Policy) (text : Text) :
    find? family policy text = some (find family policy text) := by
  rw [find?, Tag.lex?_eq, Option.bind_eq_bind, Option.bind_some]
  dsimp only
  rw [findWithin?_eq fun m hm => (marks_spec hm).2.1]
  rfl

end Block

end TagTemplate
