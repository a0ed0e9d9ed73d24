import TagTemplate.Proofs.Marked.Blank
import TagTemplate.Proofs.Marked.Matched

/-!
# Values that are printed as nothing

A value that is printed as nothing leaves no piece of data: what stood on its
two sides comes together, and may spell a link without a URL. `Erases` says
which template text a stretch of a filled text comes from: that stretch, and
between its characters the placeholders whose values are nothing. If values are
nothing in these places, and maybe in others, the stretch is there again. So the
more values are printed as nothing, the more links have no URL.
-/

namespace TagTemplate

open Tag (Kind)

/-- A text that is nothing stays nothing. -/
def Text.Fades (t t' : Text) : Prop := t = [] → t' = []

namespace Ink

/-! ## Rewriting from the left -/

variable {f : Kind → Option Ink}

/-- A tag that `f` replaces stands at the start. -/
def Starts (f : Kind → Option Ink) (w : Ink) : Prop :=
  ∃ k v y, (f k).isSome = true ∧ Inscribes k v ∧ w = v ++ y

theorem Starts.append {w : Ink} (h : Starts f w) (z : Ink) : Starts f (w ++ z) := by
  obtain ⟨k, v, y, hf, hv, rfl⟩ := h
  exact ⟨k, v, y ++ z, hf, hv, List.append_assoc _ _ _⟩

theorem rewrite_cons {c : Char × Origin} {w : Ink} (h : ¬ Starts f (c :: w)) :
    rewrite f (c :: w) = c :: rewrite f w := by
  have hparted : Parted (fun k => (f k).isSome) [c] w := by
    intro k x v y hk hv heq
    right
    cases x with
    | nil => exact absurd ⟨k, v, y, hk, hv, heq⟩ h
    | cons d x => simp
  have hsingle : rewrite f [c] = [c] := by
    refine rewrite_eq_self fun tag htag => ?_
    by_contra hne
    obtain ⟨a, v, b, heq, hv, -⟩ := mem_tags_iff.1 htag
    have hvne : v ≠ [] := by
      rintro rfl
      exact hv.1.ne_nil rfl
    have hstart : Starts f [c] := by
      refine ⟨tag.kind, v, b, Option.isSome_iff_ne_none.2 hne, hv, ?_⟩
      cases a with
      | nil => exact heq
      | cons d a =>
          have hlen := congrArg List.length heq
          have := List.length_pos_iff.2 hvne
          simp only [List.length_append, List.length_cons, List.length_nil] at hlen
          omega
    exact h (hstart.append w)
  exact (rewrite_append hparted).trans (congrArg (· ++ rewrite f w) hsingle)

theorem rewrite_tag {k : Kind} {v : Ink} (hv : Inscribes k v) (w : Ink) :
    rewrite f (v ++ w) = (f k).getD v ++ rewrite f w := by
  rw [rewrite_append (parted_mono (sealed_of_spells hv.1 w)), rewrite_of_inscribes f hv]

/-- An ink is read from the left: a tag that `f` replaces, or a character with which none begins,
and then the rest. -/
theorem rewriting_induction {motive : Ink → Prop} (f : Kind → Option Ink) (nil : motive [])
    (char : ∀ c w, ¬ Starts f (c :: w) → motive w → motive (c :: w))
    (tag : ∀ k u w, (f k).isSome = true → Inscribes k u → motive w → motive (u ++ w))
    (w : Ink) : motive w := by
  induction hn : w.length using Nat.strongRecOn generalizing w with
  | _ n ih =>
      subst hn
      by_cases hstarts : Starts f w
      · obtain ⟨k, u, y, hk, hu, rfl⟩ := hstarts
        refine tag k u y hk hu (ih _ ?_ y rfl)
        have hpos := List.length_pos_iff.2 hu.1.ne_nil
        rw [length_text] at hpos
        rw [List.length_append]
        omega
      · cases w with
        | nil => exact nil
        | cons c w => exact char c w hstarts (ih _ (by simp) w rfl)

/-! ## Where a stretch of a filled text comes from -/

/-- Filling in the values leaves nothing of `v` but `b`: the rest are placeholders of values that
are nothing. -/
inductive Erases (value : Text → Option Text) : Ink → Ink → Prop where
  | nil : Erases value [] []
  | char {c : Char × Origin} {v b : Ink} (hstarts : ¬ Starts (fillingInk value) (c :: v))
      (h : Erases value v b) : Erases value (c :: v) (c :: b)
  | tag {k : Kind} {u v b : Ink} (hu : Inscribes k u) (hk : filling value k = some [])
      (h : Erases value v b) : Erases value (u ++ v) b

variable {value value' : Text → Option Text} {v w b : Ink}

/-- What a placeholder is replaced by. -/
theorem exists_filling {k : Kind} (h : (fillingInk value k).isSome = true) :
    ∃ t, filling value k = some t ∧ fillingInk value k = some (ofText .data t) := by
  rw [fillingInk, Option.isSome_map] at h
  obtain ⟨t, ht⟩ := Option.isSome_iff_exists.1 h
  exact ⟨t, ht, by rw [fillingInk, ht]; rfl⟩

/-- Template text at the start of a filled text. -/
theorem exists_erases_of_isPrefix (hb : isTemplate b = true)
    (h : b <+: rewrite (fillingInk value) w) : ∃ v, v <+: w ∧ Erases value v b := by
  induction w using rewriting_induction (fillingInk value) generalizing b with
  | nil =>
      obtain rfl := List.prefix_nil.1 h
      exact ⟨[], List.prefix_rfl, .nil⟩
  | char c w hstarts ih =>
      rw [rewrite_cons hstarts] at h
      cases b with
      | nil => exact ⟨[], List.nil_prefix, .nil⟩
      | cons d b =>
          obtain ⟨rfl, hrest⟩ := List.cons_prefix_cons.1 h
          obtain ⟨v, ⟨z, rfl⟩, hv⟩ :=
            ih (isTemplate_of_subset hb (List.subset_cons_self d b)) hrest
          exact ⟨d :: v, ⟨z, rfl⟩, .char (fun hs => hstarts (hs.append z)) hv⟩
  | tag k u w hk hu ih =>
      obtain ⟨t, ht, hink⟩ := exists_filling hk
      rw [rewrite_tag hu, hink] at h
      cases t with
      | nil =>
          obtain ⟨v, hv, herases⟩ := ih hb h
          exact ⟨u ++ v, (List.prefix_append_right_inj u).2 hv, .tag hu ht herases⟩
      | cons d t =>
          cases b with
          | nil => exact ⟨[], List.nil_prefix, .nil⟩
          | cons c b =>
              -- a value is no template text
              obtain ⟨rfl, -⟩ := List.cons_prefix_cons.1 h
              cases origin_of_isTemplate hb List.mem_cons_self

/-- **Template text in a filled text** comes from template text, in which placeholders of values
that are nothing may have stood. -/
theorem exists_erases_of_isInfix (hb : isTemplate b = true)
    (h : b <:+: rewrite (fillingInk value) w) : ∃ v, v <:+: w ∧ Erases value v b := by
  induction w using rewriting_induction (fillingInk value) with
  | nil =>
      obtain rfl := List.infix_nil.1 h
      exact ⟨[], List.infix_rfl, .nil⟩
  | char c w hstarts ih =>
      rw [rewrite_cons hstarts] at h
      rcases List.infix_cons_iff.1 h with hfront | hpart
      · rw [← rewrite_cons hstarts] at hfront
        obtain ⟨v, hv, herases⟩ := exists_erases_of_isPrefix hb hfront
        exact ⟨v, hv.isInfix, herases⟩
      · obtain ⟨v, hv, herases⟩ := ih hpart
        exact ⟨v, List.infix_cons hv, herases⟩
  | tag k u w hk hu ih =>
      obtain ⟨t, ht, hink⟩ := exists_filling hk
      have hrest : b <:+: rewrite (fillingInk value) w := by
        rw [rewrite_tag hu, hink, Option.getD_some] at h
        cases t with
        | nil => exact h
        | cons d t =>
            rcases (foreign_ofText_data hb (d :: t)).infix_cases (a := []) (by simp [ofText]) h with
              hnil | hrest
            · obtain rfl := List.infix_nil.1 hnil
              exact List.nil_infix
            · exact hrest
      obtain ⟨v, hv, herases⟩ := ih hrest
      exact ⟨v, hv.trans (List.suffix_append u w).isInfix, herases⟩

namespace Erases

/-- What is template text throughout is filled in the same way by other values, if these are
nothing where the first ones are. -/
theorem rewrite_eq (h : Erases value v b)
    (hvalue : ∀ key, Option.Rel Text.Fades (value key) (value' key)) :
    rewrite (fillingInk value') v = b := by
  induction h with
  | nil => rfl
  | @char c v b hstarts _ ih =>
      have hstarts' : ¬ Starts (fillingInk value') (c :: v) := by
        intro hs
        obtain ⟨k, u, y, hk, hu, heq⟩ := hs
        refine hstarts ⟨k, u, y, ?_, hu, heq⟩
        rw [fillingInk, Option.isSome_map] at hk ⊢
        have hrel := rel_filling hvalue k
        generalize filling value k = x, filling value' k = x' at hrel hk
        cases hrel with
        | none => cases hk
        | some _ => rfl
      rw [rewrite_cons hstarts', ih]
  | @tag k u v b hu hk _ ih =>
      have hrel := rel_filling hvalue k
      rw [hk] at hrel
      have hk' : fillingInk value' k = some [] := by
        rw [fillingInk]
        generalize filling value' k = x' at hrel
        obtain ⟨hfades⟩ := hrel
        rw [hfades rfl]
        rfl
      rw [rewrite_tag hu, hk', ih]
      rfl

/-- It comes from template text. -/
theorem isTemplate (h : Erases value v b) (hb : Ink.isTemplate b = true) :
    Ink.isTemplate v = true := by
  induction h with
  | nil => rfl
  | char _ _ ih =>
      simp only [Ink.isTemplate, List.all_cons, Bool.and_eq_true] at hb ⊢
      exact ⟨hb.1, ih hb.2⟩
  | tag hu hk _ ih =>
      have hlink := isLink_of_filling (by rw [hk]; rfl)
      rw [isTemplate_append, hu.isTemplate hlink, ih hb]
      rfl

/-- Only the characters behind the last placeholder are left as they are. -/
theorem exists_tail (h : Erases value v b) :
    (v = b) ∨ ∃ u c t, v = u ++ t ∧ b = c ++ t ∧ Tag.closeMark <:+ u.text := by
  induction h with
  | nil => exact .inl rfl
  | char hstarts h ih =>
      rcases ih with rfl | ⟨u, c', t, rfl, rfl, hu⟩
      · exact .inl rfl
      · exact .inr ⟨_ :: u, _ :: c', t, rfl, rfl, hu.trans (List.suffix_cons _ _)⟩
  | @tag k u v b hu hk h ih =>
      obtain ⟨i, hi, -, -⟩ := hu.1
      rcases ih with rfl | ⟨u', c, t, rfl, rfl, hu'⟩
      · exact .inr ⟨u, [], v, rfl, rfl, _, hi.symm⟩
      · refine .inr ⟨u ++ u', c, t, (List.append_assoc _ _ _).symm, rfl, ?_⟩
        rw [text_append]
        exact hu'.trans (List.suffix_append _ _)

/-- What begins with braces that open a tag comes from text that does. -/
theorem openMark_isPrefix (h : Erases value v b) {n : Nat} (hn : n ≤ 2)
    (hb : List.replicate n '{' <+: b.text) : List.replicate n '{' <+: v.text := by
  induction h generalizing n with
  | nil => exact hb
  | char _ _ ih =>
      cases n with
      | zero => exact List.nil_prefix
      | succ n =>
          obtain ⟨hc, hb⟩ := List.cons_prefix_cons.1 hb
          exact List.cons_prefix_cons.2 ⟨hc, ih (by omega) hb⟩
  | @tag k u v b hu _ _ _ =>
      obtain ⟨i, hi, -, -⟩ := hu.1
      have hopen : List.replicate n '{' <+: Tag.openMark := by
        rcases n with _ | _ | _ | n
        · exact List.nil_prefix
        · exact ⟨['{'], rfl⟩
        · exact List.prefix_rfl
        · omega
      rw [text_append, hi, List.append_assoc, List.append_assoc]
      exact hopen.trans (List.prefix_append _ _)

/-- What ends with braces that close a tag comes from text that does. -/
theorem closeMark_isSuffix (h : Erases value v b) (hb : Tag.closeMark <:+ b.text) :
    Tag.closeMark <:+ v.text := by
  rcases h.exists_tail with rfl | ⟨u, c, t, rfl, rfl, y, hy⟩
  · exact hb
  · rw [text_append] at hb ⊢
    rcases List.suffix_or_suffix_of_suffix hb (List.suffix_append c.text t.text) with ht | ht
    · exact ht.trans (List.suffix_append _ _)
    · -- less than the two braces is left behind the last placeholder, which closes with two
      rw [← hy]
      obtain ⟨z, hz⟩ := ht
      rcases z with _ | ⟨d, _ | ⟨e, _ | ⟨g, z⟩⟩⟩
      · rw [show t.text = Tag.closeMark from hz]
        exact List.suffix_append _ _
      · obtain ⟨rfl, hone⟩ := List.cons.inj hz
        rw [show t.text = ['}'] from hone]
        exact ⟨y ++ ['}'], by simp [Tag.closeMark]⟩
      · obtain ⟨rfl, hone⟩ := List.cons.inj hz
        obtain ⟨rfl, hnone⟩ := List.cons.inj hone
        rw [show t.text = [] from hnone, List.append_nil]
        exact List.suffix_append _ _
      · simp [Tag.closeMark] at hz

end Erases

/-- What comes to template text by itself does so in any place, if it opens and closes like a
tag. -/
theorem Erases.isInfix_rewrite (h : Erases value v b) (hopen : Tag.openMark <+: b.text)
    (hclose : Tag.closeMark <:+ b.text)
    (hvalue : ∀ key, Option.Rel Text.Fades (value key) (value' key)) (hv : v <:+: w) :
    b <:+: rewrite (fillingInk value') w := by
  obtain ⟨x, y, rfl⟩ := hv
  obtain ⟨front, hfront⟩ := h.closeMark_isSuffix hclose
  obtain ⟨back, hback⟩ := h.openMark_isPrefix (Nat.le_refl 2) hopen
  have hend : Parted (fun k => (fillingInk value' k).isSome) (x ++ v) y :=
    parted_of_close _ (z := text x ++ front) (by rw [text_append, ← hfront, List.append_assoc])
  have hstart : Parted (fun k => (fillingInk value' k).isSome) x v :=
    parted_of_open _ hback.symm
  rw [rewrite_append hend, rewrite_append hstart, h.rewrite_eq hvalue]
  exact ⟨_, _, rfl⟩

end Ink

/-! ## Pieces that vanish -/

theorem isPrefix_of_fading {ps qs : List Piece} (h : PiecesMatched Text.Fades ps qs) {b : Ink}
    (hb : Ink.isTemplate b = true) (hfront : b <+: ps.flatMap Piece.marks) :
    b <+: qs.flatMap Piece.marks := by
  induction h generalizing b with
  | nil => exact hfront
  | cons hp _ ih =>
      rw [List.flatMap_cons] at hfront ⊢
      cases hp with
      | template t =>
          rcases List.prefix_or_prefix_of_prefix hfront (List.prefix_append _ _) with
            hshort | ⟨v, rfl⟩
          · exact hshort.trans (List.prefix_append _ _)
          · have hv := (List.prefix_append_right_inj _).1 hfront
            exact (List.prefix_append_right_inj _).2
              (ih (Ink.isTemplate_of_subset hb (List.subset_append_right _ _)) hv)
      | @data t t' ht =>
          cases t with
          | nil =>
              rw [ht rfl]
              exact ih hb hfront
          | cons d t =>
              cases b with
              | nil => exact List.nil_prefix
              | cons c b =>
                  obtain ⟨rfl, -⟩ := List.cons_prefix_cons.1 hfront
                  cases Ink.origin_of_isTemplate hb List.mem_cons_self

/-- Template text stays together when data around it vanishes. -/
theorem isInfix_of_fading {ps qs : List Piece} (h : PiecesMatched Text.Fades ps qs) {b : Ink}
    (hb : Ink.isTemplate b = true) (hpart : b <:+: ps.flatMap Piece.marks) :
    b <:+: qs.flatMap Piece.marks := by
  induction h with
  | nil => exact hpart
  | @cons p q ps qs hp hps ih =>
      rw [List.flatMap_cons] at hpart ⊢
      have hback : ∀ {x : Ink}, b <:+: ps.flatMap Piece.marks →
          b <:+: x ++ qs.flatMap Piece.marks :=
        fun hrest => (ih hrest).trans (List.suffix_append _ _).isInfix
      cases hp with
      | template t =>
          rcases List.infix_append_iff.1 hpart with hin | hrest | ⟨u, v, rfl, hu, hv⟩
          · exact hin.trans (List.prefix_append _ _).isInfix
          · exact hback hrest
          · have htemplate := Ink.isTemplate_of_subset hb (List.subset_append_right u v)
            have hv' := isPrefix_of_fading hps htemplate hv
            exact List.infix_append_iff.2 (.inr (.inr ⟨u, v, rfl, hu, hv'⟩))
      | @data t t' _ =>
          cases t with
          | nil => exact hback hpart
          | cons d t =>
              rcases (Ink.foreign_ofText_data hb (d :: t)).infix_cases (a := [])
                (by simp [Ink.ofText]) hpart with hnil | hrest
              · obtain rfl := List.infix_nil.1 hnil
                exact List.nil_infix
              · exact hback hrest

/-! ## Blank links -/

/-- **Blank links do not go away** when more values are printed as nothing. -/
theorem Ink.Blank.of_fading {ps qs : List Piece} (h : PiecesMatched Text.Fades ps qs)
    {value value' : Text → Option Text}
    (hvalue : ∀ key, Option.Rel Text.Fades (value key) (value' key))
    (hblank : Ink.Blank (Ink.rewrite (fillingInk value) (ps.flatMap Piece.marks))) :
    Ink.Blank (Ink.rewrite (fillingInk value') (qs.flatMap Piece.marks)) := by
  have htemplate : Ink.isTemplate Ink.blankLink = true := Ink.isTemplate_ofText_template _
  obtain ⟨v, hv, herases⟩ := Ink.exists_erases_of_isInfix htemplate hblank
  have hfound := isInfix_of_fading h (herases.isTemplate htemplate) hv
  exact herases.isInfix_rewrite (by decide) (by decide) hvalue hfound

end TagTemplate
