import TagTemplate.Proofs.CheckedRender
import TagTemplate.Proofs.Text.Settled

/-!
# Values come out as they are

A value between two texts without braces is data from the step that fills it in
on. No later step takes a tag out of it, or makes one of it, whatever it looks
like. Only the line breaks of the result are joined at the end, those of the
value among them, so a value in which no run of line breaks is longer than a
blank line is written as it is.
-/

namespace TagTemplate

/-! ## Marked text without tags -/

namespace Marked

variable {m : Marked}

theorem splice_nil (hm : Separate m.pieces) : m.splice [] = m := by
  refine eq_of_marks (separate_splice m []) hm ?_
  rw [marks_splice fun _ he => absurd he List.not_mem_nil]
  exact spliced_nil Ink.weight_pos m.marks

section

variable (hm : Separate m.pieces) (hbrace : ('{', Origin.template) ∉ m.marks)

include hm hbrace

theorem tags_eq_nil : m.tags = [] := by
  rw [tags_eq hm, Ink.tags_eq_nil_of_left hbrace]

/-- Without braces of the template there is no link to write. -/
theorem writeLinks_eq_self (policy : Policy) (pretty : Bool) :
    m.writeLinks policy pretty = .ok m := by
  rw [writeLinks, tags_eq_nil hm hbrace]
  show Except.ok (m.splice []) = _
  rw [splice_nil hm]

/-- Without braces of the template there is no tag to remove. -/
theorem strip_eq_self : m.strip = m := by
  rw [strip, tags_eq_nil hm hbrace]
  exact splice_nil hm

end

end Marked

/-! ## A value in a frame -/

/-- Two texts without braces for a value to stand between. The first begins with a character that
is not blank, and the second ends with one. -/
structure Frame where
  front : Plain
  back : Plain
  first : ∃ c t, front.text = c :: t ∧ Text.isBlank c = false
  last : ∃ t c, back.text = t ++ [c] ∧ Text.isBlank c = false

namespace Frame

/-- The placeholder of a key in a frame. -/
def around (f : Frame) (key : Key) : Tree := .text f.front (.value key (.text f.back .nil))

/-- Templates that have a placeholder in a frame, or come to have one: the key is bound by the
context, or by the one row of a loop around the frame or in it. -/
inductive Holds (f : Frame) (context : Context) (key : Key) (value : Text) : Tree → Prop where
  | ofContext (h : context.value key.text = some value) :
      f.Holds context key value (f.around key)
  | ofRow {rows : Key} {row : Row} (hrows : context.rows rows.text = [row])
      (h : row.value key.text = some value) :
      f.Holds context key value (.loop rows (f.around key) .nil)
  | ofRowWithin {rows : Key} {row : Row} (hrows : context.rows rows.text = [row])
      (h : row.value key.text = some value) :
      f.Holds context key value (.text f.front (.loop rows (.value key .nil) (.text f.back .nil)))

/-- The frame filled with a value. -/
def filled (f : Frame) (value : Text) : Marked :=
  .ofPieces [.template f.front.text, .data value, .template f.back.text]

variable {f : Frame} {context : Context} {key : Key} {value : Text} {t : Tree}

theorem marks_filled : (f.filled value).marks = Ink.ofText .template f.front.text ++
    (Ink.ofText .data value ++ Ink.ofText .template f.back.text) := by
  rw [filled, Marked.marks_ofPieces]
  show _ ++ (_ ++ (_ ++ [])) = _
  rw [List.append_nil]
  rfl

theorem separate_filled : Separate (f.filled value).pieces := Marked.separate_ofPieces _

theorem text_filled : (f.filled value).text = f.front.text ++ value ++ f.back.text := by
  rw [Marked.text_eq, marks_filled, Ink.text_append, Ink.text_append, Ink.text_ofText,
    Ink.text_ofText, Ink.text_ofText, List.append_assoc]

theorem brace_not_mem_filled : ('{', Origin.template) ∉ (f.filled value).marks := by
  rw [marks_filled, List.mem_append, List.mem_append]
  rintro (hfront | hvalue | hback)
  · exact Ink.not_mem_ofText f.front.noOpen hfront
  · exact Ink.not_mem_ofText_data _ _ hvalue
  · exact Ink.not_mem_ofText f.back.noOpen hback

theorem Holds.filled_eq (h : f.Holds context key value t) :
    t.filled context =
      [.cell (.literal f.front), .cell (.value key (some value)), .cell (.literal f.back)] := by
  cases h with
  | ofContext h =>
      show [Item.cell (.literal f.front), .cell (.value key (none.or (context.value key.text))),
        .cell (.literal f.back)] = _
      rw [h]
      rfl
  | @ofRow rows row hrows h =>
      show (betweenRows _ (context.rows rows.text) ++ []).map _ = _
      rw [hrows, List.append_nil]
      show [Item.cell (.literal f.front),
        .cell (.value key ((none.or (row.value key.text)).or (context.value key.text))),
        .cell (.literal f.back)] = _
      rw [h]
      rfl
  | @ofRowWithin rows row hrows h =>
      show (Item.cell (.literal f.front) :: (betweenRows _ (context.rows rows.text) ++
        [Item.cell (.literal f.back)])).map _ = _
      rw [hrows]
      show [Item.cell (.literal f.front),
        .cell (.value key ((none.or (row.value key.text)).or (context.value key.text))),
        .cell (.literal f.back)] = _
      rw [h]
      rfl

/-- The steps that use the context fill the frame, and do nothing else. -/
theorem Holds.insertContext (h : f.Holds context key value t) (policy : Policy) :
    insertContext policy context t.print = .ok (f.filled value) := by
  obtain ⟨m, hinsert, hm, hmarks⟩ := t.insertContext_print context policy
  have hfilled : m.marks = (f.filled value).marks := by
    rw [hmarks, h.filled_eq, marks_filled]
    show _ ++ (_ ++ (_ ++ [])) = _
    rw [List.append_nil]
    rfl
  rw [hinsert, Marked.eq_of_marks hm separate_filled hfilled]

theorem Holds.names_eq_nil (h : f.Holds context key value t) : t.names = [] := by
  cases h <;> rfl

theorem Holds.references_eq_nil (h : f.Holds context key value t) :
    Inclusion.references t.print = [] := by
  refine List.eq_nil_iff_forall_not_mem.2 fun ref href => ?_
  have hname : ref.2 ∈ t.names := Tree.mentions_print.1 (Inclusion.mentions_of_mem href)
  rw [h.names_eq_nil] at hname
  exact absurd hname List.not_mem_nil

/-- A filled frame is cleaned by joining line breaks. -/
theorem clean_filled : (f.filled value).clean =
    Text.collapseBreaks (f.front.text ++ value ++ f.back.text) := by
  rw [Marked.clean, Marked.strip_eq_self separate_filled brace_not_mem_filled, text_filled]

theorem dark_filled : Text.Dark (f.front.text ++ value ++ f.back.text) :=
  Text.dark_of_ends f.first f.last

end Frame

/-- **Values come out as they are.** A value in a frame, from the context or from the one row of a
loop, is data when the context is filled in, and neither writing links nor removing tags changes
anything then. In the end the line breaks of the whole are joined: a whole that is settled comes
out unchanged, and between parts without line feeds, the first of which does not end with a
carriage return, nothing changes but the line breaks of the value. -/
theorem Renderer.renderText_frame (r : Renderer) (loader : Loader) {context : Context} {f : Frame}
    {key : Key} {value : Text} {t : Tree} (h : f.Holds context key value t) :
    let whole := f.front.text ++ value ++ f.back.text
    let result := (r.renderText loader context t.print).result
    (insertContext r.rules.policy context t.print = .ok (f.filled value) ∧
        (f.filled value).writeLinks r.rules.policy r.prettyLinks = .ok (f.filled value) ∧
        (f.filled value).strip = f.filled value) ∧
      result = .ok (Text.collapseBreaks whole) ∧
      (Text.Settled whole → result = .ok whole) ∧
      ('\n' ∉ f.front.text → f.front.text.getLast? ≠ some '\r' → '\n' ∉ f.back.text →
        result = .ok (f.front.text ++ Text.collapseBreaks value ++ f.back.text) ∧
        (Text.Settled value → result = .ok whole)) := by
  intro whole result
  have hbrace : ('{', Origin.template) ∉ (f.filled value).marks := Frame.brace_not_mem_filled
  have hlinks := Marked.writeLinks_eq_self Frame.separate_filled hbrace r.rules.policy
    r.prettyLinks
  have hstrip := Marked.strip_eq_self Frame.separate_filled hbrace
  have hresult : result = .ok (Text.collapseBreaks whole) := by
    show (r.renderText loader context t.print).result = _
    rw [renderText_of_references h.references_eq_nil t.faultless_print, finish_eq,
      h.insertContext]
    show (((f.filled value).writeLinks r.rules.policy r.prettyLinks).map _) = _
    rw [hlinks]
    show Except.ok (Text.trim (f.filled value).clean) = _
    rw [Frame.clean_filled, Frame.dark_filled.collapseBreaks.trim_eq]
  refine ⟨⟨h.insertContext _, hlinks, hstrip⟩, hresult, fun hsettled => ?_,
    fun hfront hlast hback => ?_⟩
  · rw [hresult, hsettled.collapseBreaks_eq]
  · have hne : f.back.text ≠ [] := by
      obtain ⟨x, c, hx, -⟩ := f.last
      rw [hx]
      exact List.append_ne_nil_of_right_ne_nil x (List.cons_ne_nil c [])
    have hbetween := Text.collapseBreaks_between (v := value) hfront hlast hback hne
    refine ⟨by rw [hresult, hbetween], fun hsettled => ?_⟩
    rw [hresult, hbetween, hsettled.collapseBreaks_eq]

/-- A value that looks like tags, with a blank line in it, in the one row of a loop. -/
theorem Renderer.renderText_frame_of_row :
    let key : Key := ⟨['v'], by decide, by decide⟩
    let f : Frame := ⟨⟨['<'], by decide, by decide⟩, ⟨['>'], by decide, by decide⟩,
      ⟨'<', [], rfl, by decide⟩, ⟨[], '>', rfl, by decide⟩⟩
    let value := "\x7b\x7bv\x7d\x7d\n\n\x7b\x7b#link:\x7d\x7d\x7d\r".toList
    let context : Context := .ofList [("rows".toList, .rows [.ofList [(['v'], .text value)]])]
    let text := "\x7b\x7b#foreach:rows\x7d\x7d<\x7b\x7bv\x7d\x7d>\x7b\x7b#endforeach\x7d\x7d".toList
    (∃ t : Tree, t.print = text ∧ f.Holds context key value t) ∧
      ((Renderer.mk true ⟨.strict, 32⟩).renderText (fun _ _ => .error .noSuchSource) context
        text).result = .ok (['<'] ++ value ++ ['>']) := by
  intro key f value context text
  have hholds : f.Holds context key value
      (.loop ⟨"rows".toList, by decide, by decide⟩ (f.around key) .nil) :=
    @Frame.Holds.ofRow f context key value _ (.ofList [(['v'], .text value)]) rfl rfl
  have hprint : (Tree.loop ⟨"rows".toList, by decide, by decide⟩ (f.around key) .nil).print =
      text := rfl
  have hjoined : Text.collapseBreaks (['<'] ++ value ++ ['>']) = ['<'] ++ value ++ ['>'] := by
    decide
  have hrendered := (Renderer.renderText_frame ⟨true, ⟨.strict, 32⟩⟩
    (fun _ _ => .error .noSuchSource) hholds).2.1
  rw [hprint] at hrendered
  exact ⟨⟨_, hprint, hholds⟩, hrendered.trans (congrArg Except.ok hjoined)⟩

/-- **Line breaks of a value are joined** with the others of a text. -/
theorem exists_value_joined :
    let value := "a\n\n\nb".toList
    let result := ((Renderer.mk false ⟨.strict, 32⟩).renderText
      (fun _ _ => .error .noSuchSource) (.single ['v'] (.text value))
      "<\x7b\x7bv\x7d\x7d>".toList).result
    result = .ok "<a\n\nb>".toList ∧ result ≠ .ok ("<".toList ++ value ++ ">".toList) := by
  intro value result
  have hresult : result = .ok "<a\n\nb>".toList := by decide +kernel
  refine ⟨hresult, ?_⟩
  rw [hresult]
  decide

end TagTemplate
