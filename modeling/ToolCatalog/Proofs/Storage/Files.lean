import ToolCatalog.Storage.Document
import Mathlib.Data.List.Induction

/-!
# What a write leaves alone

A write makes directories where nothing is and puts one text at one place. So it
keeps every directory, and whatever else stands at another place; a path that leads
to a text still leads there and still reads the same.
-/

namespace ToolCatalog.FileTree

/-- The place that a write to a path puts its text at, whatever the tree holds. -/
def target? (path : String) : Option Place :=
  (Path.fileName? path).map fun name =>
    let (start, names) := namesOf ((Path.parent? path).getD "")
    names.foldl enter start ++ [name]

/-- Whether a write to a path succeeds and reads back as written. -/
structure Writes (t : FileTree) (path : String) (j : Json) : Prop where
  outcome : (t.save path j).outcome = .ok ()
  read : (t.save path j).files.read path = .text j.pretty

theorem at?_makeDirs {t : FileTree} {q : Place} {e : FileEntry} (p : Place) (names : List String)
    (h : t.at? q = some e) : (t.makeDirs p names).1.at? q = some e := by
  fun_induction makeDirs t p names with
  | case1 => exact h
  | case2 t p name names place _ _ ih => exact ih h
  | case3 t p name names place hnone _ ih =>
    have hne : q ≠ place := by
      intro hq
      subst hq
      rw [hnone] at h
      cases h
    exact ih ((at?_put_of_ne t .directory hne).trans h)
  | case4 => exact h

theorem makeDirs_place {t : FileTree} {p q : Place} {names : List String}
    (h : (t.makeDirs p names).2 = some q) : q = names.foldl enter p := by
  fun_induction makeDirs t p names with
  | case1 => exact (Option.some.inj h).symm
  | case2 t p name names place _ _ ih => exact ih h
  | case3 t p name names place _ _ ih => exact ih h
  | case4 => cases h

theorem at?_makeDir {t : FileTree} {q : Place} {e : FileEntry} (path : String)
    (h : t.at? q = some e) : (t.makeDir path).1.at? q = some e := by
  rw [makeDir]
  split
  · exact h
  · split
    · exact at?_makeDirs _ _ h
    · exact h

theorem makeDir_place {t : FileTree} {path : String} {q : Place}
    (h : (t.makeDir path).2 = some q) : q = (namesOf path).2.foldl enter (namesOf path).1 := by
  rw [makeDir] at h
  split at h
  · next hempty =>
    obtain rfl := beq_iff_eq.1 hempty
    exact (Option.some.inj h).symm.trans (by decide)
  · split at h
    · exact makeDirs_place h
    · cases h

theorem putFile_eq_some_iff {t u : FileTree} {p : Place} {name : String} {e : FileEntry} :
    t.putFile p name e = some u ↔ Path.isName name = true ∧
      t.at? (p ++ [name]) ≠ some .directory ∧ t.put (p ++ [name]) e = u := by
  rw [putFile]
  split
  · next hname =>
    split
    · next hdir => exact ⟨nofun, fun ⟨_, hfile, _⟩ => absurd hdir hfile⟩
    · next hfile =>
      constructor
      · intro h
        exact ⟨hname, fun hdir => hfile hdir, Option.some.inj h⟩
      · rintro ⟨_, _, rfl⟩
        rfl
  · next hname => exact ⟨nofun, fun ⟨h, _⟩ => absurd h hname⟩

theorem save_cases (t : FileTree) (path : String) (j : Json) :
    let made := t.makeDir ((Path.parent? path).getD "")
    (t.save path j).files = made.1 ∨
      ∃ p name, made.2 = some p ∧ target? path = some (p ++ [name]) ∧
        made.1.at? (p ++ [name]) ≠ some .directory ∧
        (t.save path j).files = made.1.put (p ++ [name]) (.text j.pretty) := by
  have hplace := fun p => @makeDir_place t ((Path.parent? path).getD "") p
  rw [save]
  generalize t.makeDir ((Path.parent? path).getD "") = made at hplace
  rcases made with ⟨u, none | p⟩
  · exact .inl rfl
  · simp only
    split
    · next hput =>
      split
      · obtain ⟨name, hname, hput⟩ := Option.bind_eq_some_iff.1 hput
        obtain ⟨_, hfile, rfl⟩ := putFile_eq_some_iff.1 hput
        refine .inr ⟨p, name, rfl, ?_, hfile, rfl⟩
        simp only [target?, hname, hplace p rfl, Option.map_some]
      · exact .inl rfl
    · exact .inl rfl

theorem at?_save {t : FileTree} {path : String} {j : Json} {q : Place} {e : FileEntry}
    (h : t.at? q = some e) (hapart : e = .directory ∨ target? path ≠ some q) :
    (t.save path j).files.at? q = some e := by
  have hmade := at?_makeDir ((Path.parent? path).getD "") h
  rcases t.save_cases path j with hfiles | ⟨p, name, _, htarget, hfile, hfiles⟩
  · rw [hfiles]
    exact hmade
  · have hne : q ≠ p ++ [name] := by
      intro hq
      subst hq
      rcases hapart with rfl | hne
      · exact hfile hmade
      · exact hne htarget
    rw [hfiles, at?_put_of_ne _ _ hne]
    exact hmade

theorem follow_of_directories {t u : FileTree}
    (hkept : ∀ q, t.at? q = some .directory → u.at? q = some .directory) {p q : Place}
    {names : List String} (h : t.follow p names = .place q) : u.follow p names = .place q := by
  induction names generalizing p with
  | nil => exact h
  | cons name names ih =>
    rw [follow] at h ⊢
    split at h
    · next hdir =>
      rw [hkept p hdir]
      split at h
      · next hname =>
        simp only [hname, ↓reduceIte]
        exact ih h
      · cases h
    · cases h
    · cases h

theorem reach_of_directories {t u : FileTree}
    (hkept : ∀ q, t.at? q = some .directory → u.at? q = some .directory) {path : String} {q : Place}
    (h : t.reach path = .place q) : u.reach path = .place q := by
  rw [reach] at h ⊢
  split at h
  · cases h
  · split at h
    · next hempty husable =>
      rw [if_neg hempty, if_pos husable]
      exact follow_of_directories hkept h
    · cases h

theorem read_eq_text_iff {t : FileTree} {path s : String} :
    t.read path = .text s ↔ ∃ p, t.reach path = .place p ∧ t.at? p = some (.text s) := by
  rw [read]
  constructor
  · intro h
    split at h
    · cases h
    · cases h
    · next p hreach =>
      refine ⟨p, hreach, ?_⟩
      split at h
      · cases h
      · next c hat =>
        obtain rfl := ReadResult.text.inj h
        exact hat
      · cases h
  · intro h
    obtain ⟨p, hreach, hat⟩ := h
    simp only [hreach, hat]

theorem read_save_of_apart {t : FileTree} {path other s : String} {j : Json}
    (h : t.read path = .text s)
    (hapart : ∀ p, t.reach path = .place p → target? other ≠ some p) :
    (t.save other j).files.read path = .text s := by
  obtain ⟨p, hreach, hat⟩ := read_eq_text_iff.1 h
  refine read_eq_text_iff.2 ⟨p, ?_, at?_save hat (.inr (hapart p hreach))⟩
  exact reach_of_directories (fun q hdir => at?_save hdir (.inl rfl)) hreach

theorem load_of_read_eq {α : Type} {t u : FileTree} {path : String} (read : Json → Option α)
    (h : u.read path = t.read path) : u.load path read = t.load path read := by
  rw [load, load, h]

def way (p : Place) : List String → List Place
  | [] => []
  | name :: names => enter p name :: way (enter p name) names

def wayOf (path : String) : List Place := way (namesOf path).1 (namesOf path).2

def Closed (t : FileTree) : Prop :=
  ∀ p name e, t.at? (p ++ [name]) = some e → t.at? p = some .directory

theorem Closed.at?_eq_none {t : FileTree} (h : t.Closed) {p q : Place} (hbelow : p <+: q)
    (hp : t.at? p = none) : t.at? q = none := by
  obtain ⟨rest, rfl⟩ := hbelow
  induction rest using List.reverseRecOn with
  | nil => rwa [List.append_nil]
  | append_singleton rest name ih =>
    rw [← List.append_assoc]
    cases hat : t.at? (p ++ rest ++ [name]) with
    | none => rfl
    | some e =>
      rw [h _ name e hat] at ih
      exact nomatch ih

theorem at?_of_isOutside (t : FileTree) {p : Place} (h : isOutside p = true) :
    t.at? p = some .directory := by
  rw [at?, if_pos h]

theorem closed_empty : ({} : FileTree).Closed := by
  intro p name e h
  have hout : isOutside (p ++ [name]) = true := by
    by_contra hin
    rw [at?, if_neg hin, lookup] at h
    cases h
  refine at?_of_isOutside _ ?_
  simp only [isOutside, List.all_append, Bool.or_eq_true, Bool.and_eq_true, beq_iff_eq] at hout ⊢
  rcases hout with hup | hroot
  · exact .inl hup.1
  · cases p with
    | nil => exact .inl rfl
    | cons first p => exact absurd hroot (by simp)

theorem isOutside_of_at?_ne {t : FileTree} {p : Place} (h : t.at? p ≠ some .directory) :
    isOutside p = false := by
  rw [at?] at h
  split at h
  · exact absurd rfl h
  · next hout => exact Bool.not_eq_true _ ▸ hout

theorem isOutside_of_at?_eq_none {t : FileTree} {p : Place} (h : t.at? p = none) :
    isOutside p = false := by
  apply isOutside_of_at?_ne
  rw [h]
  nofun

theorem at?_makeDirs_cases (t : FileTree) (p q : Place) (names : List String) :
    (t.makeDirs p names).1.at? q = t.at? q ∨
      t.at? q = none ∧ q ∈ way p names ∧ (t.makeDirs p names).1.at? q = some .directory := by
  fun_induction makeDirs t p names with
  | case1 => exact .inl rfl
  | case2 t p name names place _ _ ih =>
    exact ih.imp_right fun ⟨hnone, hway, hdir⟩ => ⟨hnone, List.mem_cons_of_mem _ hway, hdir⟩
  | case3 t p name names place hnone _ ih =>
    by_cases hq : q = place
    · subst hq
      have hself := at?_put_self t .directory (isOutside_of_at?_eq_none hnone)
      exact .inr ⟨hnone, List.mem_cons_self, at?_makeDirs _ _ hself⟩
    · rw [at?_put_of_ne t .directory hq] at ih
      exact ih.imp_right fun ⟨hnone, hway, hdir⟩ => ⟨hnone, List.mem_cons_of_mem _ hway, hdir⟩
  | case4 => exact .inl rfl

theorem at?_makeDir_cases (t : FileTree) (path : String) (q : Place) :
    (t.makeDir path).1.at? q = t.at? q ∨
      t.at? q = none ∧ q ∈ wayOf path ∧ (t.makeDir path).1.at? q = some .directory := by
  rw [makeDir]
  split
  · exact .inl rfl
  · split
    · exact at?_makeDirs_cases t _ q _
    · exact .inl rfl

theorem at?_save_cases (t : FileTree) (path : String) (j : Json) (q : Place) :
    (t.save path j).files.at? q = t.at? q ∨ target? path = some q ∨
      t.at? q = none ∧ q ∈ wayOf ((Path.parent? path).getD "") ∧
        (t.save path j).files.at? q = some .directory := by
  have hmade := t.at?_makeDir_cases ((Path.parent? path).getD "") q
  rcases t.save_cases path j with hfiles | ⟨p, name, _, htarget, _, hfiles⟩
  · rw [hfiles]
    exact hmade.imp_right .inr
  · by_cases hq : q = p ++ [name]
    · exact .inr (.inl (hq ▸ htarget))
    · rw [hfiles, at?_put_of_ne _ _ hq]
      exact hmade.imp_right .inr

/-- Whether names can be looked up, and each one leads further down. -/
def Straight (p : Place) : List String → Prop
  | [] => True
  | name :: names => Path.isName name = true ∧ p <+: enter p name ∧ Straight (enter p name) names

instance Straight.decidable : (p : Place) → (names : List String) → Decidable (Straight p names)
  | _, [] => .isTrue trivial
  | p, name :: names =>
    have := Straight.decidable (enter p name) names
    inferInstanceAs (Decidable (_ ∧ _ ∧ _))

theorem Straight.isPrefix {p : Place} {names : List String} (h : Straight p names) :
    p <+: names.foldl enter p := by
  induction names generalizing p with
  | nil => exact List.prefix_rfl
  | cons name names ih => exact h.2.1.trans (ih h.2.2)

theorem at?_of_follow_absent {t : FileTree} (hclosed : t.Closed) {p : Place} {names : List String}
    (hstraight : Straight p names) (h : t.follow p names = .absent) :
    t.at? (names.foldl enter p) = none := by
  induction names generalizing p with
  | nil => cases h
  | cons name names ih =>
    rw [follow] at h
    split at h
    · rw [if_pos hstraight.1] at h
      exact ih hstraight.2.2 h
    · cases h
    · next hnone => exact hclosed.at?_eq_none hstraight.isPrefix hnone

/-- A straight way that breaks off, or starts where nothing is, leads to no file later if
only directories come up on it and none at its end. -/
theorem follow_of_directories_only {t u : FileTree} (hclosed : t.Closed)
    (hkept : ∀ q, t.at? q = some .directory → u.at? q = some .directory) {p : Place}
    {names : List String} (hstraight : Straight p names)
    (hway : ∀ q ∈ p :: way p names, t.at? q = none → u.at? q = none ∨ u.at? q = some .directory)
    (h : t.follow p names = .absent ∨ t.at? p = none) :
    u.follow p names = .absent ∨ u.follow p names = .place (names.foldl enter p) := by
  induction names generalizing p with
  | nil => exact .inr rfl
  | cons name names ih =>
    have hrest := fun q hq => hway q (List.mem_cons_of_mem p hq)
    have hnext : u.at? p = some .directory →
        (t.follow (enter p name) names = .absent ∨ t.at? (enter p name) = none) →
        u.follow p (name :: names) = .absent ∨
          u.follow p (name :: names) = .place ((name :: names).foldl enter p) := by
      intro hdir hnames
      simp only [follow, hdir, hstraight.1, ↓reduceIte, List.foldl_cons]
      exact ih hstraight.2.2 hrest hnames
    cases hat : t.at? p with
    | none =>
      -- a directory made here is empty, so nothing is at the next place either
      rcases hway p List.mem_cons_self hat with hnone | hdir
      · exact .inl (by simp only [follow, hnone])
      · exact hnext hdir (.inr (hclosed.at?_eq_none hstraight.2.1 hat))
    | some e =>
      rw [hat] at h
      have hfollow := h.resolve_right nofun
      rw [follow] at hfollow
      split at hfollow
      · next hdir =>
        rw [if_pos hstraight.1] at hfollow
        exact hnext (hkept p hdir) (.inl hfollow)
      · cases hfollow
      · next hnone => cases hnone.symm.trans hat

/-- Whether a write to another path stays off the way of a straight path, and the place
of the path is not among the directories on the way of the other. -/
structure Apart (path other : String) : Prop where
  straight : Straight (namesOf path).1 (namesOf path).2
  target : ∀ q, target? other = some q → q ∉ (namesOf path).1 :: wayOf path
  place : (namesOf path).2.foldl enter (namesOf path).1 ∉ wayOf ((Path.parent? other).getD "")

theorem follow_place {t : FileTree} {p q : Place} {names : List String}
    (h : t.follow p names = .place q) : q = names.foldl enter p := by
  induction names generalizing p with
  | nil => exact (Reached.place.inj h).symm
  | cons name names ih =>
    rw [follow] at h
    split at h
    · split at h
      · exact ih h
      · cases h
    · cases h
    · cases h

theorem foldl_mem_way (p : Place) (names : List String) :
    names.foldl enter p ∈ p :: way p names := by
  induction names generalizing p with
  | nil => exact List.mem_cons_self
  | cons name names ih => exact List.mem_cons_of_mem p (ih (enter p name))

theorem read_save_of_absent {t : FileTree} {path other : String} {j : Json} (hclosed : t.Closed)
    (hapart : Apart path other) (h : t.read path = .absent) :
    (t.save other j).files.read path = .absent := by
  have hkept : ∀ q, t.at? q = some .directory → (t.save other j).files.at? q = some .directory :=
    fun q hdir => at?_save hdir (.inl rfl)
  have hend : t.at? ((namesOf path).2.foldl enter (namesOf path).1) = none →
      (t.save other j).files.at? ((namesOf path).2.foldl enter (namesOf path).1) = none := by
    intro hnone
    rcases t.at?_save_cases other j ((namesOf path).2.foldl enter (namesOf path).1) with
      hsame | htarget | ⟨_, hway, _⟩
    · exact hsame.trans hnone
    · exact absurd (foldl_mem_way _ _) (hapart.target _ htarget)
    · exact absurd hway hapart.place
  have hway : ∀ q ∈ (namesOf path).1 :: wayOf path, t.at? q = none →
      (t.save other j).files.at? q = none ∨ (t.save other j).files.at? q = some .directory := by
    intro q hq hnone
    rcases t.at?_save_cases other j q with hsame | htarget | ⟨_, _, hdir⟩
    · exact .inl (hsame.trans hnone)
    · exact absurd hq (hapart.target q htarget)
    · exact .inr hdir
  rw [read, reach] at h ⊢
  by_cases hempty : path == ""
  · rw [if_pos hempty]
  · rw [if_neg hempty] at h ⊢
    split at h
    · next hreach =>
      split at hreach
      · next husable =>
        have hnone := hend (at?_of_follow_absent hclosed hapart.straight hreach)
        rw [if_pos husable]
        rcases follow_of_directories_only hclosed hkept hapart.straight hway (.inl hreach) with
          hfollow | hfollow
        · rw [hfollow]
        · simp only [hfollow, hnone]
      · cases hreach
    · cases h
    · next p hreach =>
      split at hreach
      · next husable =>
        split at h
        · next hnone =>
          rw [if_pos husable, follow_of_directories hkept hreach]
          obtain rfl := follow_place hreach
          simp only [hend hnone]
        · cases h
        · cases h
      · cases hreach

theorem reach_place {t : FileTree} {path : String} {p : Place} (h : t.reach path = .place p) :
    p = (namesOf path).2.foldl enter (namesOf path).1 := by
  rw [reach] at h
  split at h
  · cases h
  · split at h
    · exact follow_place h
    · cases h

theorem Closed.put {t : FileTree} (h : t.Closed) {p : Place} {name : String} (e : FileEntry)
    (hdir : t.at? p = some .directory) (hfile : t.at? (p ++ [name]) ≠ some .directory) :
    (t.put (p ++ [name]) e).Closed := by
  intro q other e' hat
  have hparent : t.at? q = some .directory := by
    by_cases hq : q ++ [other] = p ++ [name]
    · rwa [(List.append_inj' hq rfl).1]
    · rw [at?_put_of_ne t e hq] at hat
      exact h q other e' hat
  have hne : q ≠ p ++ [name] := fun hq => hfile (hq ▸ hparent)
  exact (at?_put_of_ne t e hne).trans hparent

theorem Closed.enter_cases {t : FileTree} (h : t.Closed) {p : Place} (name : String)
    (hdir : t.at? p = some .directory) :
    enter p name = p ++ [name] ∨ t.at? (enter p name) = some .directory := by
  rw [enter]
  split
  · exact .inr hdir
  · split
    · split
      · exact .inr hdir
      · split
        · next hup =>
          refine .inr (t.at?_of_isOutside ?_)
          simp only [isOutside, List.all_append, hup]
          rfl
        · next hup =>
          have hne : p ≠ [] := by
            intro hp
            subst hp
            exact hup rfl
          refine .inr (h p.dropLast (p.getLast hne) .directory ?_)
          rwa [List.dropLast_concat_getLast]
    · exact .inl rfl

theorem Closed.makeDirs {t : FileTree} (h : t.Closed) {p : Place} (names : List String)
    (hdir : t.at? p = some .directory) :
    (t.makeDirs p names).1.Closed ∧ ∀ q, (t.makeDirs p names).2 = some q →
      (t.makeDirs p names).1.at? q = some .directory := by
  fun_induction FileTree.makeDirs t p names with
  | case1 =>
    refine ⟨h, fun q hq => ?_⟩
    obtain rfl := Option.some.inj hq
    exact hdir
  | case2 t p name names place hplace _ ih => exact ih h hplace
  | case3 t p name names place hnone _ ih =>
    have hself := at?_put_self t .directory (isOutside_of_at?_eq_none hnone)
    have hplace : place = p ++ [name] := by
      apply (h.enter_cases name hdir).resolve_right
      intro hsome
      cases hnone.symm.trans hsome
    refine ih ?_ hself
    rw [hplace] at hnone ⊢
    apply h.put .directory hdir
    intro hsome
    cases hnone.symm.trans hsome
  | case4 => exact ⟨h, nofun⟩

theorem Closed.makeDir {t : FileTree} (h : t.Closed) (path : String) :
    (t.makeDir path).1.Closed ∧ ∀ q, (t.makeDir path).2 = some q →
      (t.makeDir path).1.at? q = some .directory := by
  have hstart : t.at? (namesOf path).1 = some .directory := by
    rw [namesOf]
    split <;> rfl
  rw [FileTree.makeDir]
  split
  · refine ⟨h, fun q hq => ?_⟩
    obtain rfl := Option.some.inj hq
    exact t.at?_of_isOutside rfl
  · split
    · exact h.makeDirs (namesOf path).2 hstart
    · exact ⟨h, nofun⟩

theorem Closed.save {t : FileTree} (h : t.Closed) (path : String) (j : Json) :
    (t.save path j).files.Closed := by
  obtain ⟨hmade, hplace⟩ := h.makeDir ((Path.parent? path).getD "")
  rcases t.save_cases path j with hfiles | ⟨p, name, hp, _, hfile, hfiles⟩
  · rwa [hfiles]
  · rw [hfiles]
    exact hmade.put (.text j.pretty) (hplace p hp) hfile

end ToolCatalog.FileTree
