import TagTemplate.Render
import TagTemplate.Source.Store
import Mathlib.Data.List.Induction

/-!
# Handles over a store that changes

Sources are added to a store and replaced in it while handles on them are made,
loaded and rendered. What a history of such events has left can be told without
running it: the store answers with the last text that was added to a place, and
a handle has the first text that was there when it was asked for. So a handle
reads the store each time it is asked until there is a text, and never again.
A render of a handle is the render of that text with the partials that the store
has by then, since nothing is kept from one render to the next but the handle.
-/

namespace TagTemplate

/-- What is done with a store and with handles on its sources. Handles are numbered in the order in
which they are made. -/
inductive Event where
  | add (space : Namespace) (name text : Text)
  | handle (space : Namespace) (name : Text)
  | load (i : Nat)
  | view (i : Nat) (r : Renderer) (context : Context)
  | render (r : Renderer) (context : Context) (name : Text)
  | renderText (r : Renderer) (context : Context) (text : Text)

/-- A store and the handles on it. -/
structure Session where
  store : Store
  handles : List Handle

namespace Session

/-- Nothing is stored and there are no handles. -/
def start : Session := ⟨.empty, []⟩

/-- The session after an event. -/
def next (s : Session) : Event → Session
  | .add space name text => { s with store := s.store.add space name text }
  | .handle space name => { s with handles := s.handles ++ [.new space name] }
  | .load i => { s with handles := s.handles.modify i fun h => (h.load s.store.loader).2.1 }
  | .view i r context =>
    { s with handles := s.handles.modify i fun h => (r.renderHandle s.store.loader context h).2 }
  | .render _ _ _ => s
  | .renderText _ _ _ => s

/-- What an event gives, if it gives something, and what the store is asked for it. -/
def answer (s : Session) : Event → Option (Served Text)
  | .add _ _ _ => none
  | .handle _ _ => none
  | .load i => s.handles[i]?.map fun h =>
    ⟨(h.load s.store.loader).1, (h.load s.store.loader).2.2⟩
  | .view i r context => s.handles[i]?.map fun h => (r.renderHandle s.store.loader context h).1
  | .render r context name => some (r.render s.store.loader context name)
  | .renderText r context text => some (r.renderText s.store.loader context text)

/-- The session after some events. -/
def run (es : List Event) : Session := es.foldl next start

@[simp] theorem run_concat (es : List Event) (e : Event) : run (es ++ [e]) = (run es).next e :=
  List.foldl_append ..

end Session

/-! ## What a history says -/

namespace Event

/-- The text that an event adds to a place. -/
def added? (space : Namespace) (key : Text) : Event → Option Text
  | add space' name text => if space' = space ∧ Store.keyOf name = key then some text else none
  | _ => none

/-- The source that an event makes a handle on. -/
def opened? : Event → Option Request
  | handle space name => some ⟨space, name⟩
  | _ => none

/-- Whether an event asks for the text of a handle. -/
def touches (i : Nat) : Event → Bool
  | load j => j = i
  | view j _ _ => j = i
  | _ => false

end Event

namespace History

/-- What a store answers after some events: the last text that was added to a place, unless it is
empty. -/
def held (es : List Event) : Loader := fun space name =>
  match (es.filterMap (Event.added? space (Store.keyOf name))).getLast? with
  | none => .error .noSuchSource
  | some [] => .error .emptySource
  | some text => .ok text

/-- The sources of the handles that were made. -/
def opened (es : List Event) : List Request := es.filterMap Event.opened?

/-- The text that an event finds for a handle, after the events `past`. -/
def found? (past : List Event) (i : Nat) (e : Event) : Option Text :=
  if e.touches i then
    (opened past)[i]?.bind fun source => (held past source.space source.name).toOption
  else none

/-- The texts that some events find for a handle, after the events `past`. -/
def findings (i : Nat) (past : List Event) : List Event → List Text
  | [] => []
  | e :: es => (found? past i e).toList ++ findings i (past ++ [e]) es

/-- The text that was found for a handle when it was asked for and there was one for the first
time. -/
def firstFound (i : Nat) (es : List Event) : Option Text := (findings i [] es).head?

/-! ## The store -/

theorem find?_add (s : Store) (space space' : Namespace) (name text key : Text) :
    ((s.add space name text).space space').find? key =
      if space = space' ∧ Store.keyOf name = key then some text
      else (s.space space').find? key := by
  cases space <;> cases space' <;>
    simp [Store.add, Store.space, Bindings.find?_insert]

/-- The store has what was added last. -/
theorem find?_run (es : List Event) (space : Namespace) (key : Text) :
    ((Session.run es).store.space space).find? key =
      (es.filterMap (Event.added? space key)).getLast? := by
  induction es using List.reverseRecOn with
  | nil => cases space <;> rfl
  | append_singleton es e ih =>
      rw [Session.run_concat, List.filterMap_append]
      cases e with
      | add space' name text =>
          show (((Session.run es).store.add space' name text).space space).find? key = _
          rw [find?_add, ih]
          by_cases h : space' = space ∧ Store.keyOf name = key
          · simp [Event.added?, h]
          · simp [Event.added?, h]
      | _ => simpa [Event.added?, Session.next] using ih

/-- The store answers by the history. -/
theorem loader_run (es : List Event) : (Session.run es).store.loader = held es := by
  funext space name
  rw [Store.loader, find?_run]
  rfl

/-! ## What is found -/

theorem findings_append (i : Nat) (past es fs : List Event) :
    findings i past (es ++ fs) = findings i past es ++ findings i (past ++ es) fs := by
  induction es generalizing past with
  | nil => simp [findings]
  | cons e es ih => simp [findings, ih]

/-- What was found first stays what was found first. -/
theorem firstFound_append {i : Nat} {es : List Event} {text : Text}
    (h : firstFound i es = some text) (more : List Event) :
    firstFound i (es ++ more) = some text := by
  rw [firstFound, findings_append, List.head?_append, ← firstFound, h]
  rfl

theorem firstFound_concat (i : Nat) (es : List Event) (e : Event) :
    firstFound i (es ++ [e]) = (firstFound i es).or (found? es i e) := by
  have hlast : (findings i es [e]).head? = found? es i e := by
    rw [findings, findings, List.append_nil]
    cases found? es i e <;> rfl
  rw [firstFound, findings_append, List.head?_append, List.nil_append, hlast]
  rfl

theorem opened_concat (es : List Event) (e : Event) :
    opened (es ++ [e]) = opened es ++ e.opened?.toList := by
  rw [opened, List.filterMap_append, ← opened]
  cases h : e.opened? <;> simp [h]

theorem found?_of_not_opened {es : List Event} {i : Nat} (h : (opened es)[i]? = none)
    (e : Event) : found? es i e = none := by
  rw [found?, h]
  split <;> rfl

/-- Nothing is found for a handle before it is made. -/
theorem firstFound_of_not_opened {es : List Event} {i : Nat} (h : (opened es)[i]? = none) :
    firstFound i es = none := by
  induction es using List.reverseRecOn with
  | nil => rfl
  | append_singleton es e ih =>
      have hpast : (opened es)[i]? = none := by
        rw [opened_concat, List.getElem?_eq_none_iff, List.length_append] at h
        exact List.getElem?_eq_none (by omega)
      rw [firstFound_concat, ih hpast, found?_of_not_opened hpast]
      rfl

/-! ## The handles -/

/-- A handle that has been asked for its text. -/
theorem handle_load (h : Handle) (loader : Loader) :
    (h.load loader).2.1 =
      { h with text := h.text.or (loader h.space h.name).toOption } := by
  obtain ⟨space, name, text⟩ := h
  cases text with
  | some text => rfl
  | none =>
      simp only [Handle.load, Loader.ask]
      cases loader space name <;> rfl

theorem handle_renderHandle (r : Renderer) (loader : Loader) (context : Context) (h : Handle) :
    (r.renderHandle loader context h).2 = (h.load loader).2.1 := by
  rw [Renderer.renderHandle]
  obtain ⟨result, h', requests⟩ := h.load loader
  cases result <;> rfl

/-- An event that makes no handle asks for the text of the handle that it touches, and leaves the
others alone. -/
theorem getElem?_next {e : Event} (he : e.opened? = none) (s : Session) (i : Nat) :
    (s.next e).handles[i]? = s.handles[i]?.map fun h =>
      if e.touches i then { h with text := h.text.or (s.store.loader h.space h.name).toOption }
      else h := by
  cases e with
  | handle space name => cases he
  | load j =>
      show (s.handles.modify j _)[i]? = _
      rw [List.getElem?_modify]
      by_cases hj : j = i
      · simp [Event.touches, hj, handle_load]
      · simp [Event.touches, hj]
  | view j r context =>
      show (s.handles.modify j _)[i]? = _
      rw [List.getElem?_modify]
      by_cases hj : j = i
      · simp [Event.touches, hj, handle_renderHandle, handle_load]
      · simp [Event.touches, hj]
  | _ => simp [Event.touches, Session.next]

/-- **The handles after some events** have the texts that were found for them first. -/
theorem handles_run (es : List Event) :
    (Session.run es).handles =
      (opened es).mapIdx fun i source => ⟨source.space, source.name, firstFound i es⟩ := by
  induction es using List.reverseRecOn with
  | nil => rfl
  | append_singleton es e ih =>
      rw [Session.run_concat, opened_concat]
      cases he : e.opened? with
      | none =>
          refine List.ext_getElem? fun i => ?_
          rw [getElem?_next he, ih, loader_run]
          simp only [Option.toList_none, List.append_nil, List.getElem?_mapIdx, Option.map_map]
          refine Option.map_congr fun source hsource => ?_
          rw [firstFound_concat, found?, hsource]
          simp only [Function.comp_apply, Option.bind_some]
          split <;> simp
      | some source =>
          obtain ⟨space, name, rfl⟩ : ∃ space name, e = .handle space name := by
            cases e with
            | handle space name => exact ⟨space, name, rfl⟩
            | _ => cases he
          cases he
          have hnew : firstFound (opened es).length (es ++ [.handle space name]) = none := by
            rw [firstFound_concat, firstFound_of_not_opened (List.getElem?_eq_none (Nat.le_refl _))]
            rfl
          have hold : ∀ i, firstFound i (es ++ [.handle space name]) = firstFound i es := by
            intro i
            rw [firstFound_concat]
            exact Option.or_none
          show (Session.run es).handles ++ [Handle.new space name] = _
          rw [Option.toList_some, List.mapIdx_concat, hnew, ih]
          simp only [hold]
          rfl

/-- A handle that has not been read asks for its source. -/
theorem load_unread (loader : Loader) (source : Request) :
    Handle.load loader ⟨source.space, source.name, none⟩ =
      match loader.ask source with
      | .ok text => (.ok text, ⟨source.space, source.name, some text⟩, [source])
      | .error e => (.error e, ⟨source.space, source.name, none⟩, [source]) := rfl

theorem getElem?_handles_run {es : List Event} {i : Nat} {source : Request}
    (h : (opened es)[i]? = some source) :
    (Session.run es).handles[i]? = some ⟨source.space, source.name, firstFound i es⟩ := by
  rw [handles_run, List.getElem?_mapIdx, h]
  rfl

/-- **A handle reads its source until there is a text.** After any events, if a text was found for
a handle before, then loading the handle gives the text that was found first and asks the store for
nothing, a view is the render of this text with the partials that the store has now, and so it will
be whatever comes. If none was found yet, then loading the handle asks the store for its source
once and gives what is there now, a view asks for it likewise and is the render of what is there or
fails as the store does, and what is there, if it is a text, is found from then on. -/
theorem answer_of_handle (es : List Event) (i : Nat) (source : Request)
    (h : (opened es)[i]? = some source) :
    (∀ text, firstFound i es = some text →
      (Session.run es).answer (.load i) = some ⟨.ok text, []⟩ ∧
      (∀ r context, (Session.run es).answer (.view i r context) =
        some (r.renderText (held es) context text)) ∧
      ∀ more, firstFound i (es ++ more) = some text) ∧
    (firstFound i es = none →
      (Session.run es).answer (.load i) = some ⟨(held es).ask source, [source]⟩ ∧
      (∀ r context, (Session.run es).answer (.view i r context) =
        some (match (held es).ask source with
          | .error e => ⟨.error e, [source]⟩
          | .ok text => ⟨(r.renderText (held es) context text).result,
            source :: (r.renderText (held es) context text).requests⟩)) ∧
      ∀ e, e.touches i = true →
        firstFound i (es ++ [e]) = (held es source.space source.name).toOption) := by
  have hhandle := getElem?_handles_run h
  constructor
  · intro text hfound
    rw [hfound] at hhandle
    refine ⟨?_, fun r context => ?_, firstFound_append hfound⟩
    · rw [Session.answer, hhandle]
      rfl
    · rw [Session.answer, hhandle, loader_run]
      rfl
  · intro hnone
    rw [hnone] at hhandle
    refine ⟨?_, fun r context => ?_, fun e he => ?_⟩
    · rw [Session.answer, hhandle, loader_run]
      show some (Served.mk (Handle.load (held es) ⟨source.space, source.name, none⟩).1
        (Handle.load (held es) ⟨source.space, source.name, none⟩).2.2) = _
      rw [load_unread]
      cases (held es).ask source <;> rfl
    · rw [Session.answer, hhandle, loader_run]
      show some (r.renderHandle (held es) context ⟨source.space, source.name, none⟩).1 = _
      rw [Renderer.renderHandle, load_unread]
      cases (held es).ask source <;> rfl
    · rw [firstFound_concat, hnone, found?, if_pos he, h]
      rfl

/-- A handle on a source that is missing, then empty, then there, and then replaced. -/
theorem answer_of_handle_of_replaced :
    let source : Request := ⟨.template, ['t']⟩
    let early : List Event :=
      [.handle .template ['t'], .load 0, .add .template ['t'] [], .load 0]
    let late := early ++
      [.add .template "t.template".toList ['a'], .load 0, .add .template ['t'] ['b']]
    (Session.run early).answer (.load 0) =
        some ⟨.error (.notFound .template ['t'] .emptySource), [source]⟩ ∧
      (Session.run late).answer (.load 0) = some ⟨.ok ['a'], []⟩ := by
  intro source early late
  have hearly : firstFound 0 early = none := by decide +kernel
  have hlate : firstFound 0 late = some ['a'] := by decide +kernel
  have hempty : (held early).ask source = .error (.notFound .template ['t'] .emptySource) := by
    decide +kernel
  have hloads := ((answer_of_handle early 0 source rfl).2 hearly).1
  rw [hempty] at hloads
  exact ⟨hloads, ((answer_of_handle late 0 source rfl).1 ['a'] hlate).1⟩

end History

end TagTemplate
