import ToolCatalog.Proofs.Storage.Files
import ToolCatalog.Proofs.Storage.Parents

/-!
# Writing again and reading back

A write that succeeded leaves a directory at every place on its way. Later writes only
add to the tree, so the same write succeeds again whatever was written in between. Where
its path ends in a name, the way to the directory and the name is the way of the path
itself, so reading the path gives the text that was written.
-/

namespace ToolCatalog.FileTree

variable {t u : FileTree} {path : String} {j : Json}

/-- Whether a tree has all directories and files of another, with any texts. -/
def Grows (t u : FileTree) : Prop :=
  ∀ q e, t.at? q = some e → ∃ e', u.at? q = some e' ∧ (e' = .directory ↔ e = .directory)

theorem Grows.refl (t : FileTree) : t.Grows t := fun _ e h => ⟨e, h, .rfl⟩

theorem Grows.trans {v : FileTree} (h : t.Grows u) (h' : u.Grows v) : t.Grows v := by
  intro q e hat
  obtain ⟨e', hat', hdir⟩ := h q e hat
  obtain ⟨e'', hat'', hdir'⟩ := h' q e' hat'
  exact ⟨e'', hat'', hdir'.trans hdir⟩

theorem Grows.directory (h : t.Grows u) {q : Place} (hdir : t.at? q = some .directory) :
    u.at? q = some .directory := by
  obtain ⟨e, hat, he⟩ := h q .directory hdir
  rwa [he.2 rfl] at hat

theorem grows_makeDir (t : FileTree) (path : String) : t.Grows (t.makeDir path).1 :=
  fun _ e hat => ⟨e, at?_makeDir path hat, .rfl⟩

theorem grows_put {q : Place} (h : t.at? q ≠ some .directory) (text : String) :
    t.Grows (t.put q (.text text)) := by
  intro r e hat
  by_cases hr : r = q
  · subst hr
    have hne : e ≠ .directory := fun he => h (he ▸ hat)
    exact ⟨_, at?_put_self t _ (isOutside_of_at?_ne h), nofun, fun he => absurd he hne⟩
  · rw [at?_put_of_ne t _ hr]
    exact ⟨e, hat, .rfl⟩

theorem grows_save (t : FileTree) (path : String) (j : Json) : t.Grows (t.save path j).files := by
  have hmade := t.grows_makeDir ((Path.parent? path).getD "")
  rcases t.save_cases path j with hfiles | ⟨p, name, _, _, hfile, hfiles⟩
  · rwa [hfiles]
  · rw [hfiles]
    exact hmade.trans (grows_put hfile j.pretty)

structure Paved (t : FileTree) (p : Place) (names : List String) : Prop where
  places : ∀ q ∈ p :: way p names, t.at? q = some .directory
  names : ∀ name ∈ names, Path.isName name = true

theorem Grows.paved (h : t.Grows u) {p : Place} {names : List String} (hpaved : t.Paved p names) :
    u.Paved p names where
  places q hq := h.directory (hpaved.places q hq)
  names := hpaved.names

theorem Paved.of_cons {p : Place} {name : String} {names : List String}
    (h : t.Paved p (name :: names)) : t.Paved (enter p name) names where
  places q hq := h.places q (List.mem_cons_of_mem p hq)
  names other hother := h.names other (List.mem_cons_of_mem name hother)

theorem Paved.cons {p : Place} {name : String} {names : List String}
    (hdir : t.at? p = some .directory) (hname : Path.isName name = true)
    (h : t.Paved (enter p name) names) : t.Paved p (name :: names) where
  places := List.forall_mem_cons.2 ⟨hdir, h.places⟩
  names := List.forall_mem_cons.2 ⟨hname, h.names⟩

theorem paved_makeDirs {p q : Place} {names : List String} (hdir : t.at? p = some .directory)
    (h : (t.makeDirs p names).2 = some q) : (t.makeDirs p names).1.Paved p names := by
  fun_induction makeDirs t p names with
  | case1 =>
    refine ⟨fun r hr => ?_, List.forall_mem_nil _⟩
    rwa [List.mem_singleton.1 hr]
  | case2 t p name names place hplace hname ih =>
    exact .cons (at?_makeDirs _ _ hdir) hname (ih hplace h)
  | case3 t p name names place hnone hname ih =>
    have hself := at?_put_self t .directory (isOutside_of_at?_eq_none hnone)
    have hne : p ≠ place := by
      intro hp
      rw [hp, hnone] at hdir
      cases hdir
    have hkept := (at?_put_of_ne t .directory hne).trans hdir
    exact .cons (at?_makeDirs _ _ hkept) hname (ih hself h)
  | case4 => cases h

theorem makeDirs_of_paved {p : Place} {names : List String} (h : t.Paved p names) :
    t.makeDirs p names = (t, some (names.foldl enter p)) := by
  induction names generalizing p with
  | nil => rfl
  | cons name names ih =>
    have hname := h.names name List.mem_cons_self
    have hnext := h.of_cons.places (enter p name) List.mem_cons_self
    simp only [makeDirs, hname, hnext]
    exact ih h.of_cons

theorem enter_of_isIdle {name : String} (h : Path.isIdle name.toList = true) (p : Place) :
    enter p name = p ∧ Path.isName name = true := by
  have hname : name = "" ∨ name = "." := by
    rw [Path.isIdle, Bool.or_eq_true, beq_iff_eq, beq_iff_eq] at h
    exact h.imp String.toList_inj.1 String.toList_inj.1
  rcases hname with rfl | rfl
  · exact ⟨rfl, by decide⟩
  · exact ⟨rfl, by decide⟩

theorem enter_of_not_isIdle {name : String} (h : Path.isIdle name.toList = false)
    (hup : name ≠ "..") (p : Place) : enter p name = p ++ [name] := by
  have hempty : name ≠ "" := by
    rintro rfl
    cases h
  have hdot : name ≠ "." := by
    rintro rfl
    cases h
  simp only [enter, beq_iff_eq, hempty, hdot, hup, Bool.or_eq_true, or_self, ↓reduceIte]

theorem foldl_enter_filter (p : Place) (names : List String) :
    (names.filter fun name => !Path.isIdle name.toList).foldl enter p = names.foldl enter p := by
  induction names generalizing p with
  | nil => rfl
  | cons name names ih =>
    cases hname : Path.isIdle name.toList with
    | true =>
      rw [List.filter_cons_of_neg (by simp [hname]), List.foldl_cons,
        (enter_of_isIdle hname p).1, ih]
    | false =>
      rw [List.filter_cons_of_pos (by simp [hname]), List.foldl_cons, List.foldl_cons, ih]

theorem paved_filter_iff {p : Place} {names : List String} :
    t.Paved p (names.filter fun name => !Path.isIdle name.toList) ↔ t.Paved p names := by
  induction names generalizing p with
  | nil => exact .rfl
  | cons name names ih =>
    cases hname : Path.isIdle name.toList with
    | true =>
      rw [List.filter_cons_of_neg (by simp [hname]), ih]
      obtain ⟨hplace, hok⟩ := enter_of_isIdle hname p
      constructor
      · intro h
        exact .cons (h.places p List.mem_cons_self) hok (hplace.symm ▸ h)
      · intro h
        exact hplace ▸ h.of_cons
    | false =>
      rw [List.filter_cons_of_pos (by simp [hname])]
      constructor
      · intro h
        exact .cons (h.places p List.mem_cons_self) (h.names name List.mem_cons_self)
          (ih.1 h.of_cons)
      · intro h
        exact .cons (h.places p List.mem_cons_self) (h.names name List.mem_cons_self)
          (ih.2 h.of_cons)

theorem follow_of_paved {p : Place} {names : List String} {name : String} (h : t.Paved p names)
    (hname : Path.isName name = true) :
    t.follow p (names ++ [name]) = .place (enter (names.foldl enter p) name) := by
  induction names generalizing p with
  | nil => simp only [List.nil_append, follow, h.places p List.mem_cons_self, hname, ↓reduceIte,
      List.foldl_nil]
  | cons first names ih =>
    rw [List.cons_append, follow, h.places p List.mem_cons_self]
    simp only [h.names first List.mem_cons_self, ↓reduceIte]
    exact ih h.of_cons

theorem at?_start (t : FileTree) (path : String) : t.at? (namesOf path).1 = some .directory := by
  rw [namesOf]
  split <;> rfl

theorem paved_makeDir {q : Place} (h : (t.makeDir path).2 = some q) :
    (t.makeDir path).1.Paved (namesOf path).1 (namesOf path).2 ∧
      (path = "" ∨ Path.isUsable path = true) := by
  rw [makeDir] at h ⊢
  split at h
  · next hempty =>
    obtain rfl := beq_iff_eq.1 hempty
    refine ⟨⟨fun q hq => ?_, by decide⟩, .inl rfl⟩
    have hway : ∀ q ∈ (namesOf "").1 :: way (namesOf "").1 (namesOf "").2,
      isOutside q = true := by decide
    exact at?_of_isOutside _ (hway q hq)
  · next hempty =>
    split at h
    · next husable =>
      simp only [hempty, husable, Bool.false_eq_true, ↓reduceIte]
      exact ⟨paved_makeDirs (t.at?_start path) h, .inr trivial⟩
    · cases h

theorem makeDir_of_paved (hpaved : t.Paved (namesOf path).1 (namesOf path).2)
    (h : path = "" ∨ Path.isUsable path = true) :
    t.makeDir path = (t, some ((namesOf path).2.foldl enter (namesOf path).1)) := by
  rw [makeDir]
  split
  · next hempty =>
    obtain rfl := beq_iff_eq.1 hempty
    rfl
  · next hempty =>
    have husable := h.resolve_left fun hp => hempty (beq_iff_eq.2 hp)
    rw [if_pos husable]
    exact makeDirs_of_paved hpaved

/-- What a write finds that succeeds, with its directory made. -/
structure Room (made : FileTree × Option Place) (path : String) (p : Place) (name : String) :
    Prop where
  parent : made.2 = some p
  fileName : Path.fileName? path = some name
  isName : Path.isName name = true
  file : made.1.at? (p ++ [name]) ≠ some .directory
  scratch : hasRoom ((Path.parent? path).getD "") = true

theorem Room.save {p : Place} {name : String}
    (h : Room (t.makeDir ((Path.parent? path).getD "")) path p name) (j : Json) :
    t.save path j =
      ⟨(t.makeDir ((Path.parent? path).getD "")).1.put (p ++ [name]) (.text j.pretty), .ok ()⟩ := by
  obtain ⟨hparent, hfileName, hname, hfile, hscratch⟩ := h
  rw [FileTree.save]
  generalize t.makeDir ((Path.parent? path).getD "") = made at hparent hfile
  obtain ⟨u, _⟩ := made
  obtain rfl : _ = some p := hparent
  have hput : u.putFile p name (.text j.pretty) = some (u.put (p ++ [name]) (.text j.pretty)) :=
    putFile_eq_some_iff.2 ⟨hname, hfile, rfl⟩
  simp only [hfileName, Option.bind_some, hput, hscratch, ↓reduceIte]

theorem room_of_save (h : (t.save path j).outcome = .ok ()) :
    ∃ p name, Room (t.makeDir ((Path.parent? path).getD "")) path p name := by
  rw [FileTree.save] at h
  generalize t.makeDir ((Path.parent? path).getD "") = made at h
  obtain ⟨u, _ | p⟩ := made
  · cases h
  · simp only at h
    split at h
    · next hput =>
      split at h
      · next hscratch =>
        obtain ⟨name, hfileName, hput⟩ := Option.bind_eq_some_iff.1 hput
        obtain ⟨hname, hfile, _⟩ := putFile_eq_some_iff.1 hput
        exact ⟨p, name, rfl, hfileName, hname, hfile, hscratch⟩
      · cases h
    · cases h

theorem names_namesOf (path : String) :
    (namesOf path).2 = (Path.parts path.toList).map String.ofList := by
  rw [namesOf]
  split <;> rfl

theorem filter_map_ofList (ps : List (List Char)) :
    ((ps.map String.ofList).filter fun name => !Path.isIdle name.toList) =
      (ps.filter fun p => !Path.isIdle p).map String.ofList := by
  rw [List.filter_map]
  simp only [Function.comp_def, String.toList_ofList]

theorem save_again (h : (t.save path j).outcome = .ok ()) (hgrows : (t.save path j).files.Grows u)
    (j' : Json) : (u.save path j').outcome = .ok () := by
  obtain ⟨p, name, hroom⟩ := room_of_save h
  obtain ⟨hpaved, husable⟩ := paved_makeDir hroom.parent
  rw [hroom.save j] at hgrows
  have hself := at?_put_self (t.makeDir ((Path.parent? path).getD "")).1 (.text j.pretty)
    (isOutside_of_at?_ne hroom.file)
  obtain ⟨e, hat, he⟩ := hgrows _ _ hself
  have hmade := makeDir_of_paved (((grows_put hroom.file _).trans hgrows).paved hpaved) husable
  rw [← makeDir_place hroom.parent] at hmade
  have hagain : Room (u.makeDir ((Path.parent? path).getD "")) path p name := by
    rw [hmade]
    refine { hroom with parent := rfl, file := fun hdir => ?_ }
    rw [hat] at hdir
    exact nomatch he.1 (Option.some.inj hdir)
  rw [hagain.save j']

theorem namesOf_of_endsInName {name : String} (h : Path.endsInName path = true)
    (hname : Path.fileName? path = some name) :
    let parent := namesOf ((Path.parent? path).getD "")
    (namesOf path).1 = parent.1 ∧ (∀ p, enter p name = p ++ [name]) ∧
      ∃ before, (namesOf path).2 = before ++ [name] ∧
        (before.filter fun name => !Path.isIdle name.toList) =
          parent.2.filter fun name => !Path.isIdle name.toList := by
  obtain ⟨habsolute, hlive, hup, before, hparts, hbefore⟩ := Path.parent_of_endsInName h hname
  refine ⟨?_, enter_of_not_isIdle hlive hup, before.map String.ofList, ?_, ?_⟩
  · simp only [namesOf, habsolute]
    split <;> rfl
  · rw [names_namesOf, hparts, List.map_append, List.map_singleton, String.ofList_toList]
  · rw [names_namesOf, filter_map_ofList, filter_map_ofList, hbefore, Path.live]

theorem target?_of_endsInName {name : String} (h : Path.endsInName path = true)
    (hname : Path.fileName? path = some name) :
    target? path = some ((namesOf path).2.foldl enter (namesOf path).1) := by
  obtain ⟨hstart, henter, before, hnames, hsame⟩ := namesOf_of_endsInName h hname
  have hplace : before.foldl enter (namesOf path).1 =
      (namesOf ((Path.parent? path).getD "")).2.foldl enter (namesOf path).1 := by
    rw [← foldl_enter_filter, hsame, foldl_enter_filter]
  simp only [target?, hname, Option.map_some, Option.some.injEq]
  rw [hnames, List.foldl_append, List.foldl_cons, List.foldl_nil, hplace, henter, hstart]

theorem read_save (h : (t.save path j).outcome = .ok ()) (hname : Path.endsInName path = true)
    (husable : Path.isUsable path = true) : (t.save path j).files.read path = .text j.pretty := by
  obtain ⟨p, name, hroom⟩ := room_of_save h
  obtain ⟨hstart, henter, before, hnames, hsame⟩ := namesOf_of_endsInName hname hroom.fileName
  -- the text of the parent may lack components of the path that do not count
  have hpaved : (t.save path j).files.Paved (namesOf path).1 before := by
    rw [hroom.save j, ← paved_filter_iff, hsame, paved_filter_iff, hstart]
    exact (grows_put hroom.file _).paved (paved_makeDir hroom.parent).1
  have hplace : before.foldl enter (namesOf path).1 = p := by
    rw [← foldl_enter_filter, hsame, foldl_enter_filter, hstart, ← makeDir_place hroom.parent]
  have hne : path ≠ "" := by
    rintro rfl
    cases hname
  refine read_eq_text_iff.2 ⟨p ++ [name], ?_, ?_⟩
  · rw [reach, if_neg (by simpa using hne), if_pos husable, hnames,
      follow_of_paved hpaved hroom.isName, hplace, henter]
  · rw [hroom.save j]
    exact at?_put_self _ _ (isOutside_of_at?_ne hroom.file)

end ToolCatalog.FileTree
