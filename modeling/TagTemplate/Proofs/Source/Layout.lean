import TagTemplate.Source.Layout
import TagTemplate.Proofs.Tag.Grammar

/-!
# Where the files of references lie

The components of a path below a directory are those of the directory and then
its own. The name in a reference holds no dot, so no part of it leads upwards,
and its file lies below the directory of the partials: `pathFor_reference`. This
takes a name that does not begin with a slash. One that does is a path of its
own, which neither the root nor the directory is a part of.
-/

namespace TagTemplate

/-! ## Pieces -/

namespace Text

variable {separator : Char} {p s t : Text}

theorem pieces_append_cons (separator : Char) (s t : Text) :
    pieces separator (s ++ separator :: t) = pieces separator s ++ pieces separator t := by
  simp only [pieces_eq_splitOn, List.splitOn_eq_splitOnP]
  exact List.splitOnP_append_cons s t (beq_self_eq_true separator)

theorem sublist_of_mem_pieces (h : p ∈ pieces separator t) : p.Sublist t := by
  induction t generalizing p with
  | nil => rw [List.mem_singleton.1 h]
  | cons c t ih =>
      rw [pieces] at h
      split at h
      · rcases List.mem_cons.1 h with rfl | h
        · exact List.nil_sublist _
        · exact (ih h).cons c
      · cases hpieces : pieces separator t with
        | nil =>
            rw [hpieces] at h
            rw [List.mem_singleton.1 h]
            exact (List.nil_sublist t).cons_cons c
        | cons q qs =>
            rw [hpieces] at h ih
            rcases List.mem_cons.1 h with rfl | h
            · exact (ih List.mem_cons_self).cons_cons c
            · exact (ih (List.mem_cons_of_mem q h)).cons c

end Text

/-! ## Components -/

namespace Files

variable {base path rel : Text}

/-- The parts of a path that lead somewhere. -/
def parts (path : Text) : List Text := (Text.pieces '/' path).filter leads

/-- The components of a path: its start, if it has one apart from its parts, and the parts that
lead somewhere. -/
def components (path : Text) : List Text :=
  match lead path with
  | ([], rest) => parts rest
  | (start, rest) => start :: parts rest

theorem parts_append_cons (s t : Text) : parts (s ++ '/' :: t) = parts s ++ parts t := by
  rw [parts, Text.pieces_append_cons, List.filter_append, ← parts, ← parts]

/-- The components of a path with another behind a slash. -/
theorem components_append_cons (hbase : base ≠ []) (path : Text) :
    components (base ++ '/' :: path) = components base ++ parts path := by
  fun_cases lead base with
  | case1 rest =>
      show ['/'] :: parts (rest ++ '/' :: path) = (['/'] :: parts rest) ++ parts path
      rw [parts_append_cons, List.cons_append]
  | case2 =>
      show ['.'] :: parts ([] ++ '/' :: path) = ['.'] :: (parts [] ++ parts path)
      rw [parts_append_cons]
  | case3 rest =>
      show ['.'] :: parts ('/' :: rest ++ '/' :: path) =
        (['.'] :: parts ('/' :: rest)) ++ parts path
      rw [parts_append_cons, List.cons_append]
  | case4 _ hslash hdot hdotslash =>
      have hlead : lead base = ([], base) := by
        rw [lead] <;> assumption
      -- the first characters are those of the directory, or the slash behind them
      have hlead' : lead (base ++ '/' :: path) = ([], base ++ '/' :: path) := by
        obtain ⟨c, b, rfl⟩ := List.exists_cons_of_ne_nil hbase
        rw [lead]
        · intro rest h
          exact hslash b (congrArg (· :: b) (List.cons.inj h).1)
        · intro h
          exact List.append_ne_nil_of_right_ne_nil b (List.cons_ne_nil '/' path)
            (List.cons.inj h).2
        · intro rest h
          obtain ⟨rfl, hrest⟩ := List.cons.inj h
          cases b with
          | nil => exact hdot rfl
          | cons d b => exact hdotslash b (congrArg ('.' :: · :: b) (List.cons.inj hrest).1)
      rw [components, hlead', components, hlead]
      exact parts_append_cons base path

/-- The components of a path below a directory begin with those of the directory. -/
theorem components_join (hbase : base ≠ []) (hrel : isAbsolute rel = false) :
    components (join base rel) = components base ++ parts rel := by
  rw [join, hrel, if_neg Bool.false_ne_true]
  split
  next hend =>
    -- the directory ends with the slash
    have hlast : base.getLast? = some '/' := by simpa [hbase] using hend
    obtain ⟨b, rfl⟩ : ∃ b, base = b ++ ['/'] := by
      obtain ⟨b, c, rfl⟩ := List.eq_nil_or_concat' base |>.resolve_left hbase
      simp at hlast
      exact ⟨b, by rw [hlast]⟩
    rw [List.append_assoc, List.singleton_append]
    rcases b with _ | ⟨c, b⟩
    · rfl
    · have hb : c :: b ≠ [] := List.cons_ne_nil c b
      rw [components_append_cons hb, components_append_cons hb]
      show _ = components (c :: b) ++ [] ++ parts rel
      rw [List.append_nil]
  next => exact components_append_cons hbase rel

theorem join_ne_nil (base : Text) (hpath : path ≠ []) : join base path ≠ [] := by
  rw [join]
  split
  · exact hpath
  · split
    · exact List.append_ne_nil_of_right_ne_nil base hpath
    · exact List.append_ne_nil_of_right_ne_nil base (List.cons_ne_nil _ _)

end Files

/-! ## References -/

/-- The name in a reference is made of the characters of names. -/
theorem Tag.nameChar_of_mem_lex {text name : Text} {span : Span}
    (h : ⟨.inclusion name, span⟩ ∈ Tag.lex text) : name ≠ [] ∧ ∀ c ∈ name, NameChar c := by
  obtain ⟨_, i, _, -, -, -, -, hreads⟩ := mem_lex_iff_occurs.1 h
  generalize hk : Kind.inclusion name = k at hreads
  cases hreads with
  | inclusion hnames =>
      cases hnames with
      | name hne hall =>
          obtain rfl := Kind.inclusion.inj hk
          exact ⟨hne, hall⟩
      | empty => cases hk
      | badCharacter _ _ => cases hk
  | condition hnames => cases hnames <;> cases hk
  | loop hnames => cases hnames <;> cases hk
  | _ => cases hk

theorem Tag.not_nameChar_dot : ¬ NameChar '.' := by
  rw [← isNameChar_iff]
  decide

/-- A name without a dot gets the extension of template files. -/
theorem withExtension_templateExtension {name : Text} (h : '.' ∉ name) :
    withExtension name templateExtension = name ++ templateExtension := by
  have hcut : Text.cut? templateExtension name = none := by
    have := Text.cut?_append_of_not_mem (m := "template".toList) h []
    rwa [List.append_nil] at this
  rw [withExtension, hcut]

namespace Layout

open Files (components isAbsolute join parts)

/-- **The file of a reference** lies below the directory of the partials, with no step upwards, if
the name does not begin with a slash. Otherwise the name is the path. -/
theorem pathFor_reference {l : Layout} (hextension : l.extension = templateExtension)
    (hdirectory : l.fragments ≠ []) {text name : Text} {span : Span}
    (h : ⟨.inclusion name, span⟩ ∈ Tag.lex text) (root : Text) :
    (isAbsolute name = false →
      ∃ below, components (l.pathFor root .fragment name) =
        components (join root l.fragments) ++ below ∧ "..".toList ∉ below) ∧
    (isAbsolute name = true → l.pathFor root .fragment name = name ++ templateExtension) := by
  obtain ⟨hne, hchars⟩ := Tag.nameChar_of_mem_lex h
  have hdot : '.' ∉ name := fun hmem => Tag.not_nameChar_dot (hchars '.' hmem)
  have hfile : withExtension name l.extension = name ++ templateExtension := by
    rw [hextension, withExtension_templateExtension hdot]
  have habsolute : isAbsolute (name ++ templateExtension) = isAbsolute name := by
    obtain ⟨c, t, rfl⟩ := List.exists_cons_of_ne_nil hne
    rfl
  rw [pathFor, hfile]
  constructor
  · intro hrelative
    refine ⟨parts (name ++ templateExtension), ?_, fun hup => ?_⟩
    · exact Files.components_join (Files.join_ne_nil root hdirectory) (habsolute.trans hrelative)
    · -- the one dot of the file is not enough
      have hsub := Text.sublist_of_mem_pieces (List.mem_filter.1 hup).1
      have hcount := hsub.count_le '.'
      rw [List.count_append, List.count_eq_zero_of_not_mem hdot] at hcount
      exact absurd hcount (by decide)
  · intro habs
    rw [join, habsolute, habs, if_pos rfl]

/-- A reference into a directory of its own, the directory of the partials written with a slash at
its end and a way up. -/
theorem pathFor_reference_of_nested :
    let l : Layout := { fragments := "../shared/".toList }
    let root := "./site".toList
    let text := "é\x7b\x7b>nav/top\x7d\x7d".toList
    let name := "nav/top".toList
    ⟨.inclusion name, ⟨2, 14⟩⟩ ∈ Tag.lex text ∧ isAbsolute name = false ∧
      components (l.pathFor root .fragment name) =
        [".", "site", "..", "shared", "nav", "top.template"].map String.toList ∧
      ∃ below, components (l.pathFor root .fragment name) =
        components (join root l.fragments) ++ below ∧ "..".toList ∉ below := by
  intro l root text name
  have hmem : ⟨.inclusion name, ⟨2, 14⟩⟩ ∈ Tag.lex text := by decide +kernel
  have hrelative : isAbsolute name = false := by decide
  exact ⟨hmem, hrelative, by decide +kernel,
    (pathFor_reference rfl (by decide) hmem root).1 hrelative⟩

/-- **References lead out of the directory** if their names begin with a slash. -/
theorem exists_reference_outside :
    let l : Layout := {}
    let root := "site".toList
    let text := "\x7b\x7b>/secret\x7d\x7d".toList
    let name := "/secret".toList
    ⟨.inclusion name, ⟨0, 12⟩⟩ ∈ Tag.lex text ∧
      l.pathFor root .fragment name = "/secret.template".toList ∧
      ¬ components (join root l.fragments) <+: components (l.pathFor root .fragment name) := by
  decide +kernel

end Layout

end TagTemplate
