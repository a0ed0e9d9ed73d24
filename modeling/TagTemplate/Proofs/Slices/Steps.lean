import TagTemplate.Proofs.Block.Steps
import TagTemplate.Proofs.Inclusion.Basic
import TagTemplate.Proofs.Marked.Filling
import TagTemplate.Proofs.Slices.Block

/-!
# Partials, conditionals and loops in range

The first three steps of a render work on plain text. Each of them looks for
tags or blocks and cuts out what stands between and in them. Tags and blocks
stand in order, apart from each other and between characters, so all of these
ranges are good; the parts of blocks are new texts, of which the same is said
again.
-/

namespace TagTemplate

/-! ## Partials -/

namespace Inclusion

/-- The contents of some references, one after the other. -/
def contents? (resolve? : Text → Registry → Option (Except Error Text × Registry)) :
    List (Span × Text) → Registry → Option (Except Error (List (Span × Text)) × Registry)
  | [], r => pure (.ok [], r)
  | (s, name) :: refs, r => do
    match ← resolve? name r with
    | (.error e, r) => pure (.error e, r)
    | (.ok content, r) =>
      match ← contents? resolve? refs r with
      | (.error e, r) => pure (.error e, r)
      | (.ok edits, r) => pure (.ok ((s, content) :: edits), r)

/-- A text with its references replaced, given how a name is resolved. -/
def expandWith? (policy : Policy)
    (resolve? : Text → Registry → Option (Except Error Text × Registry)) (text : Text)
    (r : Registry) : Option (Except Error Text × Registry) := do
  let tags ← Tag.lex? text
  match ← reportMalformed? policy [.inclusion] text tags with
  | .error e => pure (.error e, r)
  | .ok () =>
    match ← contents? resolve? (tags.filterMap reference?) r with
    | (.error e, r) => pure (.error e, r)
    | (.ok edits, r) => do
      let spliced ← Text.splice? text edits
      pure (.ok spliced, r)

/-- The expanded content of a partial. -/
def resolve? (loader : Loader) (rules : Rules) (room : Nat) (chain : List Text) (name : Text)
    (r : Registry) : Option (Except Error Text × Registry) :=
  match r.expanded.find? name with
  | some content => pure (.ok content, r)
  | none =>
    if chain.contains name then pure (.error (.cyclic (chain ++ [name])), r)
    else
      match room with
      | 0 => pure (.error (.tooDeep name rules.depth), r)
      | room + 1 =>
        let request : Request := ⟨.fragment, name⟩
        let r := r.asked request
        match loader.ask request with
        | .error e => pure (.error e, r)
        | .ok raw => do
          match ← expandWith? rules.policy (resolve? loader rules room (chain ++ [name])) raw r with
          | (.error e, r) => pure (.error e, r)
          | (.ok content, r) => pure (.ok content, r.remember name content)

theorem span_of_reference? (tag : Tag) : ∀ e ∈ reference? tag, e.1 = tag.span := by
  intro e he
  rw [reference?] at he
  split at he
  · cases he
    rfl
  · cases he

section

variable {resolve : Text → Registry → Except Error Text × Registry}
  {resolve? : Text → Registry → Option (Except Error Text × Registry)}

/-- Each reference is replaced where it stands. -/
theorem spans_of_contents {refs edits : List (Span × Text)} {r r' : Registry}
    (h : contents resolve refs r = (.ok edits, r')) :
    edits.map Prod.fst = refs.map Prod.fst := by
  induction refs generalizing r edits with
  | nil =>
      cases h
      rfl
  | cons ref refs ih =>
      obtain ⟨s, name⟩ := ref
      rw [contents_cons] at h
      obtain ⟨content, r₁, -, h⟩ := andThen_eq_ok h
      obtain ⟨edits', r₂, hrest, h⟩ := andThen_eq_ok h
      cases h
      rw [List.map_cons, List.map_cons, ih hrest]

variable (h : ∀ name r, resolve? name r = some (resolve name r))

include h

theorem contents?_eq (refs : List (Span × Text)) (r : Registry) :
    contents? resolve? refs r = some (contents resolve refs r) := by
  induction refs generalizing r with
  | nil => rfl
  | cons ref refs ih =>
      obtain ⟨s, name⟩ := ref
      rw [contents?, h, contents_cons, Option.bind_eq_bind, Option.bind_some]
      obtain ⟨e | content, r₁⟩ := resolve name r
      · rfl
      · rw [andThen_ok]
        dsimp only
        rw [ih, Option.bind_eq_bind, Option.bind_some]
        obtain ⟨e | edits, r₂⟩ := contents resolve refs r₁ <;> rfl

theorem expandWith?_eq (policy : Policy) (text : Text) (r : Registry) :
    expandWith? policy resolve? text r = some (expandWith policy resolve text r) := by
  rw [expandWith?, Tag.lex?_eq, Option.bind_eq_bind, Option.bind_some, reportMalformed?_eq
    fun tag htag => (Tag.boundary_of_mem_lex htag).1, expandWith_eq, Option.bind_eq_bind,
    Option.bind_some]
  cases reportMalformed policy [.inclusion] text (Tag.lex text) with
  | error e => rfl
  | ok u =>
      rw [andThen_ok]
      dsimp only
      rw [contents?_eq h, Option.bind_eq_bind, Option.bind_some, ← references]
      rcases hcontents : contents resolve (references text) r with ⟨e | edits, r₁⟩
      · rfl
      · have hfits : Text.SpansFit text 0 (edits.map Prod.fst) := by
          rw [spans_of_contents hcontents]
          exact Ink.spansFit_filterMap (List.Sublist.refl _) span_of_reference?
        rw [andThen_ok]
        dsimp only
        rw [Text.splice?_eq hfits]
        rfl

end

theorem resolve?_eq (loader : Loader) (rules : Rules) (room : Nat) (chain : List Text)
    (name : Text) (r : Registry) :
    resolve? loader rules room chain name r = some (resolve loader rules room chain name r) := by
  induction room generalizing chain name r with
  | zero =>
      unfold resolve? resolve
      cases r.expanded.find? name with
      | some content => rfl
      | none =>
          dsimp only
          by_cases hmem : name ∈ chain
          · rw [if_pos hmem, if_pos (List.contains_iff_mem.2 hmem)]
            rfl
          · rw [if_neg hmem, if_neg (mt List.contains_iff_mem.1 hmem)]
            rfl
  | succ room ih =>
      unfold resolve? resolve
      cases r.expanded.find? name with
      | some content => rfl
      | none =>
          dsimp only
          by_cases hmem : name ∈ chain
          · rw [if_pos hmem, if_pos (List.contains_iff_mem.2 hmem)]
            rfl
          · rw [if_neg hmem, if_neg (mt List.contains_iff_mem.1 hmem)]
            cases loader.ask ⟨.fragment, name⟩ with
            | error e => rfl
            | ok raw =>
                dsimp only
                rw [expandWith?_eq (ih (chain ++ [name])), Option.bind_eq_bind, Option.bind_some]
                obtain ⟨e | content, r₁⟩ := expandWith rules.policy
                  (resolve loader rules room (chain ++ [name])) raw (r.asked ⟨.fragment, name⟩) <;>
                  rfl

end Inclusion

namespace Registry

/-- A text with its references to partials replaced. -/
def expand? (loader : Loader) (rules : Rules) (text : Text) (r : Registry) :
    Option (Except Error Text × Registry) :=
  Inclusion.expandWith? rules.policy (Inclusion.resolve? loader rules rules.depth []) text r

theorem expand?_eq (loader : Loader) (rules : Rules) (text : Text) (r : Registry) :
    expand? loader rules text r = some (expand loader rules text r) :=
  Inclusion.expandWith?_eq (Inclusion.resolve?_eq loader rules rules.depth []) rules.policy text r

end Registry

/-! ## Conditionals -/

namespace Conditional

variable {policy : Policy} {context : Context} {text : Text}

theorem length_lt_of_slice? {blocks : List Block} {b : Block} {part : Span} {body : Text}
    (hf : Block.find? .conditional policy text = some (.ok blocks)) (hb : b ∈ blocks)
    (hp : b.taken context = some part) (hs : Text.slice? text part = some body) :
    body.length < text.length := by
  rw [Block.find?_eq] at hf
  have hlt := length_taken_lt (Option.some.inj hf) hb hp
  rw [Text.slice, hs] at hlt
  exact hlt

/-- The text with its conditionals resolved. -/
def resolve? (policy : Policy) (context : Context) (text : Text) : Option (Except Error Text) :=
  match hf : Block.find? .conditional policy text with
  | none => none
  | some (.error e) => pure (.error e)
  | some (.ok blocks) => do
    let edits ← ExceptT.run (blocks.attach.mapM fun ⟨b, hb⟩ =>
      match hp : b.taken context with
      | none => pure (b.span, [])
      | some part =>
        match hs : Text.slice? text part with
        | none => ExceptT.mk none
        | some body =>
          have := length_lt_of_slice? hf hb hp hs
          (ExceptT.mk (resolve? policy context body)).map fun t => (b.span, t))
    match edits with
    | .error e => pure (.error e)
    | .ok edits => do
      let spliced ← Text.splice? text edits
      pure (.ok spliced)
termination_by text.length

/-- The edit that a block of a text stands for. -/
def edit? (policy : Policy) (context : Context) (text : Text) (b : Block) :
    ExceptT Error Option (Span × Text) :=
  match b.taken context with
  | none => pure (b.span, [])
  | some part =>
    match Text.slice? text part with
    | none => ExceptT.mk none
    | some body => (ExceptT.mk (resolve? policy context body)).map fun t => (b.span, t)

theorem resolve?_of_error {e : Error}
    (hfind : Block.find? .conditional policy text = some (.error e)) :
    resolve? policy context text = some (.error e) := by
  rw [resolve?]
  split
  next h => cases hfind.symm.trans h
  next h =>
    cases hfind.symm.trans h
    rfl
  next h => cases hfind.symm.trans h

/-- The blocks of a text without the proofs that they are its blocks. -/
theorem resolve?_of_ok {blocks : List Block}
    (hfind : Block.find? .conditional policy text = some (.ok blocks)) :
    resolve? policy context text = (do
      match ← (blocks.mapM (edit? policy context text)).run with
      | .error e => pure (.error e)
      | .ok edits => do
        let spliced ← Text.splice? text edits
        pure (.ok spliced)) := by
  have hattach : (blocks.attach.mapM fun x => edit? policy context text x.1) =
      blocks.mapM (edit? policy context text) := by
    simp
  rw [resolve?]
  split
  next h => cases hfind.symm.trans h
  next h => cases hfind.symm.trans h
  next h =>
    cases hfind.symm.trans h
    rw [← hattach]
    congr 2
    refine congrArg (blocks.attach.mapM ·) (funext fun x => ?_)
    obtain ⟨b, hb⟩ := x
    dsimp only [edit?]
    split
    next hp => rw [hp]
    next part hp =>
      rw [hp]
      dsimp only
      split
      next hs => rw [hs]
      next body hs => rw [hs]

theorem edit?_eq {blocks : List Block} {b : Block}
    (hfind : Block.find .conditional policy text = .ok blocks) (hb : b ∈ blocks)
    (hshorter : ∀ u : Text, u.length < text.length →
      resolve? policy context u = some (resolve policy context u)) :
    edit? policy context text b = ExceptT.mk (some (edit policy context text b)) := by
  rw [edit?, edit]
  cases hp : b.taken context with
  | none => rfl
  | some part =>
      have hs := Text.slice?_eq_of_exists (Block.exists_slice_of_find hfind hb (taken_cases hp))
      dsimp only
      rw [hs]
      dsimp only
      rw [hshorter _ (length_taken_lt hfind hb hp)]
      cases resolve policy context (Text.slice text part) <;> rfl

/-- The parts of blocks are shorter than the text, so the induction is on the length. -/
theorem resolve?_eq (policy : Policy) (context : Context) (text : Text) :
    resolve? policy context text = some (resolve policy context text) := by
  induction hn : text.length using Nat.strong_induction_on generalizing text with
  | _ n ih =>
      subst hn
      rw [resolve_eq]
      cases hfind : Block.find .conditional policy text with
      | error e =>
          rw [resolve?_of_error (by rw [Block.find?_eq, hfind])]
          rfl
      | ok blocks =>
          have hedit : ∀ b ∈ blocks, edit? policy context text b =
              ExceptT.mk (some (edit policy context text b)) :=
            fun b hb => edit?_eq hfind hb fun u hu => ih _ hu u rfl
          rw [resolve?_of_ok (by rw [Block.find?_eq, hfind]), Fallible.mapM_total hedit]
          show _ = some ((blocks.mapM (edit policy context text)).map (Text.splice text))
          cases hedits : blocks.mapM (edit policy context text) with
          | error e => rfl
          | ok edits =>
              have hfits : Text.SpansFit text 0 (edits.map Prod.fst) := by
                rw [spans_of_edits (Fallible.mapM_eq_ok_iff.1 hedits)]
                exact Block.fits_of_find hfind
              show (Text.splice? text edits >>= _) = _
              rw [Text.splice?_eq hfits]
              rfl

end Conditional

/-! ## Loops -/

namespace Loop

/-- The body from byte `pos` on with placeholders replaced. -/
def fillFrom? (body : Text) (pos : Nat) : List (Span × Text) → Option (List Piece)
  | [] => do
    let rest ← Text.slice? body ⟨pos, Text.size body⟩
    pure [.template rest]
  | (s, value) :: fields => do
    let gap ← Text.slice? body ⟨pos, s.start⟩
    let rest ← fillFrom? body s.stop fields
    pure (.template gap :: .data value :: rest)

/-- A copy of the body for one row. -/
def copy? (body : Text) (row : Row) : Option (List Piece) := do
  let tags ← Tag.lex? body
  fillFrom? body 0 (tags.filterMap (field? row))

/-- The copies of the body for some rows. -/
def copies? (body : Text) : List Row → Option (List Piece)
  | [] => pure []
  | [row] => copy? body row
  | row :: rows => do
    let first ← copy? body row
    let rest ← copies? body rows
    pure (first ++ .template ['\n'] :: rest)

/-- The text from byte `pos` on with its loops expanded. -/
def expandFrom? (context : Context) (text : Text) (pos : Nat) :
    List Block → Option (List Piece)
  | [] => do
    let rest ← Text.slice? text ⟨pos, Text.size text⟩
    pure [.template rest]
  | b :: blocks => do
    let gap ← Text.slice? text ⟨pos, b.span.start⟩
    let body ← Text.slice? text b.body
    let copied ← copies? body (context.rows b.key)
    let rest ← expandFrom? context text b.span.stop blocks
    pure (.template gap :: (copied ++ rest))

/-- The text with its loops expanded. -/
def expand? (policy : Policy) (context : Context) (text : Text) :
    Option (Except Error Marked) := do
  match ← Block.find? .loop policy text with
  | .error e => pure (.error e)
  | .ok blocks => do
    let pieces ← expandFrom? context text 0 blocks
    pure (.ok (Marked.ofPieces pieces))

theorem fillFrom?_eq {body : Text} {pos : Nat} {fields : List (Span × Text)}
    (h : Text.SpansFit body pos (fields.map Prod.fst)) :
    fillFrom? body pos fields = some (fillFrom body pos fields) := by
  induction fields generalizing pos with
  | nil =>
      rw [fillFrom?, Text.slice?_eq_slice h (Text.boundary_size body) h.le]
      rfl
  | cons field fields ih =>
      obtain ⟨s, value⟩ := field
      obtain ⟨hpos, hstart, hle, -, hrest⟩ := h
      rw [fillFrom?, Text.slice?_eq_slice hpos hstart hle, ih hrest]
      rfl

theorem span_of_field? (row : Row) (tag : Tag) : ∀ e ∈ field? row tag, e.1 = tag.span := by
  intro e he
  rw [field?] at he
  split at he
  · obtain ⟨scalar, -, rfl⟩ := Option.map_eq_some_iff.1 he
    rfl
  · cases he

theorem copy?_eq (body : Text) (row : Row) : copy? body row = some (copy body row) := by
  rw [copy?, Tag.lex?_eq, Option.bind_eq_bind, Option.bind_some]
  exact fillFrom?_eq (Ink.spansFit_filterMap (List.Sublist.refl _) (span_of_field? row))

theorem copies?_eq (body : Text) (rows : List Row) :
    copies? body rows = some (copies body rows) := by
  induction rows with
  | nil => rfl
  | cons row rows ih =>
      cases rows with
      | nil => exact copy?_eq body row
      | cons row' rows =>
          rw [copies?, copy?_eq, ih]
          · rfl
          · exact fun h => nomatch h

/-- The blocks fit the text behind byte `pos`, and their bodies can be cut out. -/
theorem expandFrom?_eq {context : Context} {text : Text} {pos : Nat} {bs : List Block}
    (hfits : Text.SpansFit text pos (bs.map Block.span))
    (hbody : ∀ b ∈ bs, ∃ u, Text.slice? text b.body = some u) :
    expandFrom? context text pos bs = some (expandFrom context text pos bs) := by
  induction bs generalizing pos with
  | nil =>
      rw [expandFrom?, Text.slice?_eq_slice hfits (Text.boundary_size text) hfits.le]
      rfl
  | cons b bs ih =>
      obtain ⟨hpos, hstart, hle, -, hrest⟩ := hfits
      obtain ⟨hb, hbs⟩ := List.forall_mem_cons.1 hbody
      rw [expandFrom?, Text.slice?_eq_slice hpos hstart hle, Text.slice?_eq_of_exists hb]
      show (copies? (Text.slice text b.body) (context.rows b.key) >>= _) = _
      rw [copies?_eq, ih hrest hbs]
      rfl

theorem expand?_eq (policy : Policy) (context : Context) (text : Text) :
    expand? policy context text = some (expand policy context text) := by
  rw [expand?, expand, Block.find?_eq, Option.bind_eq_bind, Option.bind_some]
  cases hfind : Block.find .loop policy text with
  | error e => rfl
  | ok bs =>
      have hbody : ∀ b ∈ bs, ∃ u, Text.slice? text b.body = some u :=
        fun b hb => Block.exists_slice_of_find hfind hb (.inl rfl)
      show (expandFrom? context text 0 bs >>= _) = _
      rw [expandFrom?_eq (Block.fits_of_find hfind) hbody]
      rfl

end Loop

end TagTemplate
