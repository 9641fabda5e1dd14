import ToolCatalog.Storage.Path
import Mathlib.Data.List.Basic

/-!
# A path and its parent

The parent of a path is cut from its text, so what counts as a component has to be
looked for again in that text. Where a path ends in a name, its parent leads through
the same components, less that name, from the same start.
-/

namespace ToolCatalog.Path

def live (t : List Char) : List (List Char) := (parts t).filter fun p => !isIdle p

def endsInName (path : String) : Bool := (parts path.toList).getLast?.any fun p => !isIdle p

theorem notMem_of_mem_parts {t p : List Char} (h : p ∈ parts t) : '/' ∉ p := by
  induction t generalizing p with
  | nil =>
    obtain rfl := List.mem_singleton.1 h
    exact List.not_mem_nil
  | cons c t ih =>
    rw [parts] at h
    split at h
    · rcases List.mem_cons.1 h with rfl | h
      · exact List.not_mem_nil
      · exact ih h
    · next hc =>
      split at h
      · obtain rfl := List.mem_singleton.1 h
        exact fun hmem => hc (List.mem_singleton.1 hmem).symm
      · next q qs hparts =>
        rw [hparts] at ih
        rcases List.mem_cons.1 h with rfl | h
        · intro hmem
          rcases List.mem_cons.1 hmem with hmem | hmem
          · exact hc hmem.symm
          · exact ih List.mem_cons_self hmem
        · exact ih (List.mem_cons_of_mem q h)

theorem parts_of_notMem {p : List Char} (h : '/' ∉ p) : parts p = [p] := by
  induction p with
  | nil => rfl
  | cons c p ih =>
    rw [List.mem_cons, not_or] at h
    rw [parts, if_neg (Ne.symm h.1), ih h.2]

theorem parts_append_slash {p : List Char} (h : '/' ∉ p) (t : List Char) :
    parts (p ++ '/' :: t) = p :: parts t := by
  induction p with
  | nil => simp only [List.nil_append, parts, ↓reduceIte]
  | cons c p ih =>
    rw [List.mem_cons, not_or] at h
    rw [List.cons_append, parts, if_neg (Ne.symm h.1), ih h.2]

theorem parts_unparts {ps : List (List Char)} (hne : ps ≠ []) (h : ∀ p ∈ ps, '/' ∉ p) :
    parts (unparts ps) = ps := by
  induction ps with
  | nil => exact absurd rfl hne
  | cons p ps ih =>
    rw [List.forall_mem_cons] at h
    cases ps with
    | nil => exact parts_of_notMem h.1
    | cons q qs =>
      rw [unparts, parts_append_slash h.1, ih (List.cons_ne_nil q qs) h.2]
      exact List.cons_ne_nil q qs

theorem live_unparts {ps : List (List Char)} (h : ∀ p ∈ ps, '/' ∉ p) :
    live (unparts ps) = ps.filter fun p => !isIdle p := by
  cases ps with
  | nil => rfl
  | cons p ps => rw [live, parts_unparts (List.cons_ne_nil p ps) h]

theorem live_slash (t : List Char) : live ('/' :: t) = live t := by
  rw [live, parts, if_pos rfl]
  exact List.filter_cons_of_neg (by decide)

theorem live_dot {t : List Char} (h : t = [] ∨ ∃ u, t = '/' :: u) : live ('.' :: t) = live t := by
  rcases h with rfl | ⟨u, rfl⟩
  · rfl
  · have hparts : parts ('.' :: '/' :: u) = ['.'] :: parts u :=
      parts_append_slash (p := ['.']) (by decide) u
    rw [live_slash, live, hparts]
    exact List.filter_cons_of_neg (by decide)

theorem filter_trimIdle (ps : List (List Char)) :
    (trimIdle ps).filter (fun p => !isIdle p) = ps.filter fun p => !isIdle p := by
  have hdrop : ∀ qs : List (List Char),
      (qs.dropWhile isIdle).filter (fun p => !isIdle p) = qs.filter fun p => !isIdle p := by
    intro qs
    induction qs with
    | nil => rfl
    | cons q qs ih =>
      by_cases hq : isIdle q = true
      · rw [List.dropWhile_cons_of_pos hq, ih, List.filter_cons_of_neg (by simp [hq])]
      · rw [List.dropWhile_cons_of_neg hq]
  rw [trimIdle, List.filter_reverse, hdrop, ← List.filter_reverse, List.reverse_reverse]

theorem trimIdle_append_live (ps : List (List Char)) {p : List Char} (h : isIdle p = false) :
    trimIdle (ps ++ [p]) = ps ++ [p] := by
  rw [trimIdle, List.reverse_append, List.reverse_singleton, List.singleton_append,
    List.dropWhile_cons_of_neg (by simp [h]), List.reverse_cons, List.reverse_reverse]

theorem trimIdle_isPrefix (ps : List (List Char)) : trimIdle ps <+: ps := by
  have hsuffix := List.dropWhile_suffix isIdle (l := ps.reverse)
  rw [← List.reverse_prefix, List.reverse_reverse] at hsuffix
  exact hsuffix

theorem unparts_isPrefix {ps qs : List (List Char)} (h : ps <+: qs) :
    unparts ps <+: unparts qs := by
  induction ps generalizing qs with
  | nil => exact List.nil_prefix
  | cons p ps ih =>
    obtain ⟨rest, rfl⟩ := h
    cases ps with
    | nil =>
      cases rest with
      | nil => exact List.prefix_rfl
      | cons r rest => exact List.prefix_append p _
    | cons q qs =>
      have htail : unparts (q :: qs) <+: unparts (q :: qs ++ rest) := ih (List.prefix_append _ _)
      exact (List.prefix_append_right_inj p).2 (List.cons_prefix_cons.2 ⟨rfl, htail⟩)

theorem splitStart_cases (t : List Char) :
    (∃ u, t = '/' :: u ∧ splitStart t = (['/'], u)) ∨
      (∃ u, t = '.' :: u ∧ (u = [] ∨ ∃ v, u = '/' :: v) ∧ splitStart t = (['.'], u)) ∨
      (t.head? ≠ some '/' ∧ splitStart t = ([], t)) := by
  fun_cases splitStart t with
  | case1 u => exact .inl ⟨u, rfl, rfl⟩
  | case2 => exact .inr (.inl ⟨[], rfl, .inl rfl, rfl⟩)
  | case3 u => exact .inr (.inl ⟨_, rfl, .inr ⟨u, rfl⟩, rfl⟩)
  | case4 t hroot =>
    refine .inr (.inr ⟨fun hhead => ?_, rfl⟩)
    obtain ⟨u, rfl⟩ := List.head?_eq_some_iff.1 hhead
    exact hroot u rfl

theorem live_splitStart (t : List Char) : live t = live (splitStart t).2 := by
  rcases splitStart_cases t with ⟨u, ht, hsplit⟩ | ⟨u, ht, hu, hsplit⟩ | ⟨_, hsplit⟩
  · rw [hsplit, ht, live_slash]
  · rw [hsplit, ht, live_dot hu]
  · rw [hsplit]

theorem getLast?_parts_splitStart {t p : List Char} (h : (parts t).getLast? = some p)
    (hp : isIdle p = false) : (parts (splitStart t).2).getLast? = some p := by
  have hcons : ∀ {q u : List Char}, (q :: parts u).getLast? = (parts u).getLast? := by
    intro q u
    exact List.getLast?_cons_of_ne_nil (parts_ne_nil u)
  rcases splitStart_cases t with ⟨u, ht, hsplit⟩ | ⟨u, ht, hu, hsplit⟩ | ⟨_, hsplit⟩
  · rw [ht, parts, if_pos rfl, hcons] at h
    rwa [hsplit]
  · rcases hu with rfl | ⟨v, rfl⟩
    · rw [ht] at h
      obtain rfl := Option.some.inj h
      cases hp
    · have hparts : parts ('.' :: '/' :: v) = ['.'] :: parts v :=
        parts_append_slash (p := ['.']) (by decide) v
      rw [ht, hparts, hcons] at h
      rwa [hsplit, parts, if_pos rfl, hcons]
  · rwa [hsplit]

theorem live_start_append {t : List Char} {ps : List (List Char)}
    (h : ps <+: parts (splitStart t).2) :
    live ((splitStart t).1 ++ unparts ps) = ps.filter fun p => !isIdle p := by
  have hparts : ∀ p ∈ ps, '/' ∉ p := fun p hp => notMem_of_mem_parts (h.subset hp)
  rcases splitStart_cases t with ⟨u, _, hsplit⟩ | ⟨u, _, hu, hsplit⟩ | ⟨_, hsplit⟩
  · rw [hsplit, List.singleton_append, live_slash, live_unparts hparts]
  · rw [hsplit] at h
    have hslash : unparts ps = [] ∨ ∃ v, unparts ps = '/' :: v := by
      have hprefix := unparts_isPrefix h
      rw [unparts_parts] at hprefix
      cases hps : unparts ps with
      | nil => exact .inl rfl
      | cons c v =>
        rw [hps] at hprefix
        rcases hu with rfl | ⟨w, rfl⟩
        · exact absurd hprefix (by simp)
        · exact .inr ⟨v, by rw [(List.cons_prefix_cons.1 hprefix).1]⟩
    rw [hsplit, List.singleton_append, live_dot hslash, live_unparts hparts]
  · rw [hsplit, List.nil_append, live_unparts hparts]

theorem isAbsolute_start_append {path : String} {ps : List (List Char)}
    (h : ps <+: parts (splitStart path.toList).2) :
    isAbsolute (String.ofList ((splitStart path.toList).1 ++ unparts ps)) = isAbsolute path := by
  rw [isAbsolute, isAbsolute, String.toList_ofList]
  rcases splitStart_cases path.toList with ⟨u, ht, hsplit⟩ | ⟨u, ht, _, hsplit⟩ | ⟨hhead, hsplit⟩
  · rw [hsplit, ht]
    rfl
  · rw [hsplit, ht]
    rfl
  · rw [hsplit] at h ⊢
    have hprefix := unparts_isPrefix h
    rw [unparts_parts] at hprefix
    rw [List.nil_append]
    cases hps : unparts ps with
    | nil => exact (beq_eq_false_iff_ne.2 hhead).symm
    | cons c v =>
      rw [hps] at hprefix
      obtain ⟨rest, hrest⟩ := hprefix
      rw [show path.toList = c :: v ++ rest from hrest.symm]
      rfl

theorem parent?_of_trimIdle {path : String} {above : List (List Char)} {p : List Char}
    (h : trimIdle (parts (splitStart path.toList).2) = above ++ [p]) :
    parent? path =
      some (String.ofList ((splitStart path.toList).1 ++ unparts (trimIdle above))) := by
  simp only [parent?, h, List.reverse_append, List.reverse_singleton, List.singleton_append,
    List.reverse_reverse]

theorem fileName?_of_trimIdle {path name : String} {above : List (List Char)} {p : List Char}
    (h : trimIdle (parts (splitStart path.toList).2) = above ++ [p])
    (hname : fileName? path = some name) : p = name.toList ∧ name ≠ ".." := by
  rw [fileName?, h, List.getLast?_concat] at hname
  simp only at hname
  split at hname
  · cases hname
  · next hup =>
    obtain rfl := Option.some.inj hname
    rw [String.toList_ofList]
    refine ⟨rfl, fun hname => hup ?_⟩
    rw [← String.toList_ofList (l := p), hname]
    rfl

theorem parent_of_endsInName {path name : String} (h : endsInName path = true)
    (hname : fileName? path = some name) :
    isAbsolute ((parent? path).getD "") = isAbsolute path ∧
      isIdle name.toList = false ∧ name ≠ ".." ∧
      ∃ before, parts path.toList = before ++ [name.toList] ∧
        before.filter (fun p => !isIdle p) = live ((parent? path).getD "").toList := by
  rw [endsInName] at h
  cases hlast : (parts path.toList).getLast? with
  | none =>
    rw [hlast] at h
    cases h
  | some p =>
    rw [hlast, Option.any_some, Bool.not_eq_true'] at h
    obtain ⟨before, hbefore⟩ := List.getLast?_eq_some_iff.1 hlast
    obtain ⟨above, habove⟩ := List.getLast?_eq_some_iff.1 (getLast?_parts_splitStart hlast h)
    -- the last component counts, so only what stands before it can be trimmed
    have htrim : trimIdle (parts (splitStart path.toList).2) = above ++ [p] := by
      rw [habove, trimIdle_append_live above h]
    have hprefix : trimIdle above <+: parts (splitStart path.toList).2 := by
      rw [habove]
      exact (trimIdle_isPrefix above).trans (List.prefix_append above [p])
    have hlive : live path.toList = above.filter (fun p => !isIdle p) ++ [p] := by
      rw [live_splitStart, live, habove, List.filter_append,
        List.filter_cons_of_pos (by simp [h]), List.filter_nil]
    rw [live, hbefore, List.filter_append, List.filter_cons_of_pos (by simp [h]),
      List.filter_nil] at hlive
    obtain ⟨rfl, hup⟩ := fileName?_of_trimIdle htrim hname
    rw [parent?_of_trimIdle htrim, Option.getD_some, String.toList_ofList]
    refine ⟨isAbsolute_start_append hprefix, h, hup, before, hbefore, ?_⟩
    rw [live_start_append hprefix, filter_trimIdle]
    exact List.append_cancel_right hlive

end ToolCatalog.Path
