import TagTemplate.Proofs.Source.History
import TagTemplate.Proofs.Source.Layout

/-!
# Names of one source

A store leaves the extension at the end of a name out, and files have it put
there, unless the name holds it already, be it at the end or before. So names of
one file are names of one source of a store, but not the other way round: a name
that holds the extension before its end is a file of its own, and so is the one
with the extension behind it. The dot stands nowhere in the extension but at its
start, and an extension that is put behind a name is found nowhere before.
-/

namespace TagTemplate

namespace Text

variable {c : Char} {m s : Text}

/-- A mark whose first character it holds once is found where it is put. -/
theorem cut?_append_mark (hc : c ∉ m) (hs : contains (c :: m) s = false) :
    cut? (c :: m) (s ++ c :: m) = some (s, []) := by
  refine cut?_eq_some_iff.2 ⟨(List.append_nil _).symm, fun x y hxy => ?_⟩
  rw [List.append_assoc] at hxy
  have hnone : ∀ x y, s ≠ x ++ (c :: m) ++ y := fun x y heq =>
    Bool.eq_false_iff.1 hs (contains_iff.2 ⟨x, y, heq⟩)
  rcases List.append_eq_append_iff.1 hxy with ⟨u, rfl, -⟩ | ⟨u, rfl, hu⟩
  · rw [List.length_append]
    omega
  rcases List.append_eq_append_iff.1 hu with ⟨v, rfl, -⟩ | ⟨v, hv, hmark⟩
  · exact absurd (by simp) (hnone x v)
  · -- an occurrence that begins before the mark and ends within it would hold its first character
    -- twice
    cases u with
    | nil => simp
    | cons d u =>
        obtain ⟨rfl, rfl⟩ := List.cons.inj hv
        cases v with
        | nil => exact absurd (by simp) (hnone x [])
        | cons d' v =>
            obtain ⟨rfl, -⟩ := List.cons.inj hmark
            exact absurd (List.mem_append_right u List.mem_cons_self) hc

end Text

/-! ## With and without the extension -/

section

variable {n m stem : Text}

theorem stripExtension_cases (n e : Text) :
    (∃ stem, stem ≠ [] ∧ n = stem ++ e ∧ stripExtension n e = stem) ∨ stripExtension n e = n := by
  rw [stripExtension]
  split
  next c stem h => exact .inl ⟨c :: stem, List.cons_ne_nil c stem,
      (List.isSuffixOf?_eq_some_iff_append_eq.1 h).symm, rfl⟩
  · exact .inr rfl

theorem stripExtension_append (hstem : stem ≠ []) (e : Text) :
    stripExtension (stem ++ e) e = stem := by
  obtain ⟨c, s, rfl⟩ := List.exists_cons_of_ne_nil hstem
  rw [stripExtension, List.isSuffixOf?_eq_some_iff_append_eq.2 rfl]

/-- A name that has the extension after its first character stays as it is, and any other gets it at
its end. -/
theorem withExtension_cases (n e : Text) :
    (withExtension n e = n ∧ ∃ a b, a ≠ [] ∧ Text.cut? e n = some (a, b)) ∨
      withExtension n e = n ++ e ∧ ∀ a b, Text.cut? e n = some (a, b) → a = [] := by
  rw [withExtension]
  split
  next c a b h => exact .inl ⟨rfl, c :: a, b, List.cons_ne_nil c a, h⟩
  next h =>
    refine .inr ⟨rfl, fun a b hab => ?_⟩
    cases a with
    | nil => rfl
    | cons c a => exact absurd hab (h c a b)

theorem withExtension_of_not_contains {e : Text} (h : Text.contains e n = false) :
    withExtension n e = n ++ e := by
  rcases withExtension_cases n e with ⟨-, a, b, -, hcut⟩ | ⟨hwith, -⟩
  · rw [Text.contains, hcut] at h
    cases h
  · exact hwith

variable {c : Char} {e : Text}

/-- A name whose stem does not hold the extension gets it behind the stem. -/
theorem withExtension_of_stem (hc : c ∉ e)
    (h : Text.contains (c :: e) (stripExtension n (c :: e)) = false) :
    withExtension n (c :: e) = stripExtension n (c :: e) ++ c :: e := by
  rcases stripExtension_cases n (c :: e) with ⟨stem, hstem, rfl, hstrip⟩ | hstrip
  · rw [hstrip] at h ⊢
    rw [withExtension, Text.cut?_append_mark hc h]
    obtain ⟨d, s, rfl⟩ := List.exists_cons_of_ne_nil hstem
    rfl
  · rw [hstrip] at h ⊢
    exact withExtension_of_not_contains h

/-- A name that has the extension, and is another with the extension put behind it, is that name and
the extension once. -/
theorem strip_of_withExtension_eq (hn : ∃ a b, a ≠ [] ∧ Text.cut? e n = some (a, b))
    (hm : ∀ a b, Text.cut? e m = some (a, b) → a = []) (h : n = m ++ e) :
    stripExtension n e = m ∧ stripExtension m e = m ∧ Text.contains e m = false := by
  obtain ⟨a, b, ha, hcut⟩ := hn
  have hnone : Text.cut? e m = none := by
    cases hm' : Text.cut? e m with
    | none => rfl
    | some p =>
        -- then both would have it at the very start
        obtain ⟨a', b'⟩ := p
        have hcut' := Text.cut?_append_right hm' e
        rw [← h, hcut, hm a' b' hm'] at hcut'
        exact absurd (congrArg Prod.fst (Option.some.inj hcut')) ha
  have hcontains : Text.contains e m = false := by rw [Text.contains, hnone]; rfl
  have hne : m ≠ [] := by
    rintro rfl
    have hfirst := (Text.cut?_eq_some_iff.1 hcut).2 [] [] (by rw [h, List.append_nil])
    exact ha (List.length_eq_zero_iff.1 (Nat.le_zero.1 hfirst))
  refine ⟨h ▸ stripExtension_append hne e, ?_, hcontains⟩
  rcases stripExtension_cases m e with ⟨stem, -, rfl, -⟩ | hstrip
  · have hholds := Text.contains_iff.2 ⟨stem, [], (List.append_nil (stem ++ e)).symm⟩
    rw [hcontains] at hholds
    cases hholds
  · exact hstrip

/-- **Names get one name with the extension** if they are one without it, and are the same name or
do not hold the extension then. -/
theorem withExtension_eq_iff (hc : c ∉ e) :
    withExtension n (c :: e) = withExtension m (c :: e) ↔
      stripExtension n (c :: e) = stripExtension m (c :: e) ∧
        (n = m ∨ Text.contains (c :: e) (stripExtension n (c :: e)) = false) := by
  constructor
  · intro h
    rcases withExtension_cases n (c :: e) with ⟨hn, hcut⟩ | ⟨hn, hcut⟩ <;>
      rcases withExtension_cases m (c :: e) with ⟨hm, hcut'⟩ | ⟨hm, hcut'⟩ <;> rw [hn, hm] at h
    · exact ⟨congrArg (stripExtension · _) h, .inl h⟩
    · obtain ⟨hs, hs', hno⟩ := strip_of_withExtension_eq hcut hcut' h
      exact ⟨hs.trans hs'.symm, .inr (hs ▸ hno)⟩
    · obtain ⟨hs, hs', hno⟩ := strip_of_withExtension_eq hcut' hcut h.symm
      exact ⟨hs'.trans hs.symm, .inr (hs'.symm ▸ hno)⟩
    · have heq := List.append_cancel_right h
      exact ⟨congrArg (stripExtension · _) heq, .inl heq⟩
  · rintro ⟨hstrip, rfl | hno⟩
    · rfl
    · rw [withExtension_of_stem hc hno, withExtension_of_stem hc (hstrip ▸ hno), hstrip]

end

/-! ## Paths -/

namespace Files

variable {base p q : Text}

theorem isAbsolute_join (base : Text) (hp : isAbsolute p = false) :
    isAbsolute (join base p) = isAbsolute base := by
  rw [join, hp, if_neg Bool.false_ne_true]
  cases base with
  | nil => exact hp
  | cons c base => split <;> rfl

/-- Paths below a directory are different if they are, unless one of them is absolute and so may be
a path below the directory. -/
theorem join_inj (h : isAbsolute base = true → isAbsolute p = isAbsolute q) :
    join base p = join base q ↔ p = q := by
  refine ⟨fun heq => ?_, fun heq => congrArg (join base) heq⟩
  have hkind : isAbsolute p = isAbsolute q := by
    have habs := congrArg isAbsolute heq
    cases hp : isAbsolute p <;> cases hq : isAbsolute q
    · rfl
    · rw [isAbsolute_join base hp, join, hq, if_pos rfl, hq] at habs
      rw [← hp, ← hq, h habs]
    · rw [isAbsolute_join base hq, join, hp, if_pos rfl, hp] at habs
      rw [← hp, ← hq, h habs.symm]
    · rfl
  rw [join, join, ← hkind] at heq
  split at heq
  · exact heq
  · split at heq
    · exact List.append_cancel_left heq
    · exact (List.cons.inj (List.append_cancel_left heq)).2

end Files

theorem isAbsolute_withExtension {e : Text} (he : Files.isAbsolute e = false) (n : Text) :
    Files.isAbsolute (withExtension n e) = Files.isAbsolute n := by
  rcases withExtension_cases n e with ⟨hwith, -⟩ | ⟨hwith, -⟩
  · rw [hwith]
  · rw [hwith]
    cases n with
    | nil => exact he
    | cons c n => rfl

/-! ## Two loaders -/

/-- A store answers the second name with what is added under the first. -/
def Store.Identifies (n m : Text) : Prop :=
  ∀ (s : Store) (space : Namespace) (text : Text), text ≠ [] →
    (s.add space n text).loader space m = .ok text

/-- Two names have one file, whatever the root directory is. -/
def Layout.Identifies (l : Layout) (n m : Text) : Prop :=
  ∀ (root : Text) (space : Namespace), l.pathFor root space n = l.pathFor root space m

theorem Store.identifies_iff {n m : Text} :
    Store.Identifies n m ↔ Store.keyOf n = Store.keyOf m := by
  constructor
  · intro h
    by_contra hne
    have hread := h .empty .template ['x'] (List.cons_ne_nil _ _)
    rw [loader, History.find?_add, if_neg fun hkey => hne hkey.2] at hread
    cases hread
  · intro hkey s space text htext
    obtain ⟨c, t, rfl⟩ := List.exists_cons_of_ne_nil htext
    rw [loader, History.find?_add, if_pos ⟨rfl, hkey⟩]

namespace Layout

open Files (isAbsolute join)

/-- Two names have one file below a directory if they are one name with the extension, unless one of
them leads to a file of its own. -/
theorem pathFor_eq_iff {n m root : Text} (space : Namespace)
    (h : isAbsolute root = true → isAbsolute n = isAbsolute m) :
    pathFor {} root space n = pathFor {} root space m ↔
      withExtension n templateExtension = withExtension m templateExtension := by
  refine Files.join_inj fun habs => ?_
  have hdirectory : isAbsolute (directory {} space) = false := by cases space <;> rfl
  rw [Files.isAbsolute_join root hdirectory] at habs
  have he : isAbsolute templateExtension = false := rfl
  exact ((isAbsolute_withExtension he n).trans (h habs)).trans (isAbsolute_withExtension he m).symm

theorem identifies_iff {n m : Text} :
    Layout.Identifies {} n m ↔
      withExtension n templateExtension = withExtension m templateExtension := by
  constructor
  · intro h
    have hrelative : isAbsolute [] = true → isAbsolute n = isAbsolute m := nofun
    exact (pathFor_eq_iff .template hrelative).1 (h [] .template)
  · intro h root space
    rw [pathFor, pathFor, h]

end Layout

/-- **Names of one file are names of one source in memory**, and names of one source in memory are
those of one file just if they are the same name or do not hold the extension when it is left out
at their end. One root directory tells files apart as all of them do, unless it is absolute and just
one of the names is. -/
theorem files_identify_iff (n m : Text) :
    (Store.Identifies n m ↔
        stripExtension n templateExtension = stripExtension m templateExtension) ∧
      (Layout.Identifies {} n m ↔
        withExtension n templateExtension = withExtension m templateExtension) ∧
      (∀ root space, (Files.isAbsolute root = true → Files.isAbsolute n = Files.isAbsolute m) →
        (Layout.pathFor {} root space n = Layout.pathFor {} root space m ↔
          Layout.Identifies {} n m)) ∧
      (Layout.Identifies {} n m ↔ Store.Identifies n m ∧ (n = m ∨
        Text.contains templateExtension (stripExtension n templateExtension) = false)) := by
  have hdot : '.' ∉ "template".toList := by decide
  refine ⟨Store.identifies_iff, Layout.identifies_iff, fun root space h => ?_, ?_⟩
  · rw [Layout.pathFor_eq_iff space h, Layout.identifies_iff]
  · rw [Layout.identifies_iff, Store.identifies_iff]
    exact withExtension_eq_iff hdot

/-- A name with and without the extension, below an absolute root directory. -/
theorem files_identify_iff_of_plain :
    let n := "blog/post".toList
    let m := "blog/post.template".toList
    let root := "/srv".toList
    (Files.isAbsolute root = true → Files.isAbsolute n = Files.isAbsolute m) ∧
      Layout.pathFor {} root .fragment n = "/srv/partials/blog/post.template".toList ∧
      Layout.Identifies {} n m ∧ Store.Identifies n m := by
  intro n m root
  have hroot : Files.isAbsolute root = true → Files.isAbsolute n = Files.isAbsolute m :=
    fun _ => rfl
  obtain ⟨-, -, hpath, hboth⟩ := files_identify_iff n m
  have hfile : Layout.Identifies {} n m := (hpath root .fragment hroot).1 (by decide +kernel)
  exact ⟨hroot, by decide +kernel, hfile, (hboth.1 hfile).1⟩

/-- **A name that holds the extension** before its end is one source in memory with the name that
has the extension behind it, and another file. -/
theorem exists_store_identifies_apart :
    let n := "a.templateb".toList
    let m := "a.templateb.template".toList
    stripExtension n templateExtension = stripExtension m templateExtension ∧
      withExtension n templateExtension ≠ withExtension m templateExtension ∧
      ¬ (Store.Identifies n m ↔ Layout.Identifies {} n m) := by
  intro n m
  have hstrip : stripExtension n templateExtension = stripExtension m templateExtension := by
    decide +kernel
  have hwith : withExtension n templateExtension ≠ withExtension m templateExtension := by
    decide +kernel
  refine ⟨hstrip, hwith, fun h => hwith ?_⟩
  exact Layout.identifies_iff.1 (h.1 (Store.identifies_iff.2 hstrip))

end TagTemplate
