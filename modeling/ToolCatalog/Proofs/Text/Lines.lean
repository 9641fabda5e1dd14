import ToolCatalog.Text.Blank
import Mathlib.Data.List.DropRight
import Mathlib.Data.List.Infix

/-!
# Trimmed texts and lines

A text is its own trim if it neither starts nor ends in a blank; a blank more at the
end of a text is lost in its trim. Lines joined by line ends split into the same
lines, but for an empty one at the end. A text that is put together from two at a
line feed has the lines of both, up to a carriage return before the line feed and an
empty line where the first one ended in a line feed already.
-/

namespace ToolCatalog.Text

theorem trimStart_eq_self_iff {t : List Char} :
    trimStart t = t ↔ ∀ c ∈ t.head?, isBlank c = false := by
  cases t with
  | nil => simp [trimStart]
  | cons c t =>
    cases hc : isBlank c with
    | false => simp [trimStart_cons_of_not_blank t hc, hc]
    | true =>
      have hlt : (trimStart t).length < (c :: t).length :=
        Nat.lt_succ_of_le (List.dropWhile_suffix isBlank).length_le
      rw [trimStart_cons_of_blank t hc]
      simp only [List.head?_cons, Option.mem_some_iff, forall_eq', hc, Bool.true_eq_false,
        iff_false]
      exact fun h => absurd (congrArg List.length h) (Nat.ne_of_lt hlt)

theorem trimEnd_eq_self_iff {t : List Char} :
    trimEnd t = t ↔ ∀ c ∈ t.getLast?, isBlank c = false := by
  rw [trimEnd, List.reverse_eq_iff, ← trimStart, trimStart_eq_self_iff, List.head?_reverse]

theorem trim_eq_self_iff {t : List Char} :
    trim t = t ↔ (∀ c ∈ t.head?, isBlank c = false) ∧ ∀ c ∈ t.getLast?, isBlank c = false := by
  rw [← trimStart_eq_self_iff, ← trimEnd_eq_self_iff]
  constructor
  · intro h
    have hend : (trim t).length ≤ (trimStart t).length :=
      (List.rdropWhile_prefix (p := isBlank) (l := trimStart t)).length_le
    have hstart : trimStart t = t :=
      (List.dropWhile_suffix isBlank).eq_of_length_le (by rwa [h] at hend)
    exact ⟨hstart, by rw [trim, hstart] at h; exact h⟩
  · rintro ⟨hstart, hend⟩
    rw [trim, hstart, hend]

theorem trimStart_of_trim {t : List Char} (h : trim t = t) : trimStart t = t :=
  trimStart_eq_self_iff.2 (trim_eq_self_iff.1 h).1

theorem trim_append {t u : List Char} (ht : ∀ c ∈ t.head?, isBlank c = false) (hne : t ≠ [])
    (hu : trim u = u) (hune : u ≠ []) : trim (t ++ u) = t ++ u := by
  refine trim_eq_self_iff.2 ⟨?_, ?_⟩
  · rwa [List.head?_append_of_ne_nil _ hne]
  · rw [List.getLast?_append_of_ne_nil _ hune]
    exact (trim_eq_self_iff.1 hu).2

theorem trimStart_append_of_ne_nil {t : List Char} (u : List Char) (h : trimStart t ≠ []) :
    trimStart (t ++ u) = trimStart t ++ u := by
  rw [trimStart, List.dropWhile_append, ← trimStart, if_neg (by simpa using h)]

theorem trimStart_append_of_nil {t : List Char} (u : List Char) (h : trimStart t = []) :
    trimStart (t ++ u) = trimStart u := by
  rw [trimStart, List.dropWhile_append, ← trimStart, if_pos (by simpa using h), ← trimStart]

theorem trimEnd_append_of_ne_nil (t : List Char) {u : List Char} (h : trimEnd u ≠ []) :
    trimEnd (t ++ u) = t ++ trimEnd u := by
  have hstart : trimStart u.reverse ≠ [] := by simpa [trimEnd, trimStart] using h
  rw [trimEnd, List.reverse_append, ← trimStart, trimStart_append_of_ne_nil _ hstart,
    List.reverse_append, List.reverse_reverse]
  rfl

theorem trimEnd_append_of_nil (t : List Char) {u : List Char} (h : trimEnd u = []) :
    trimEnd (t ++ u) = trimEnd t := by
  have hstart : trimStart u.reverse = [] := by simpa [trimEnd, trimStart] using h
  rw [trimEnd, List.reverse_append, ← trimStart, trimStart_append_of_nil _ hstart]
  rfl

theorem trimEnd_isPrefix (t : List Char) : trimEnd t <+: t := List.rdropWhile_prefix isBlank t

theorem trim_cons_blank {c : Char} (t : List Char) (hc : isBlank c = true) :
    trim (c :: t) = trim t := by
  rw [trim, trimStart_cons_of_blank t hc, trim]

theorem trim_trimStart (t : List Char) : trim (trimStart t) = trim t := by
  rw [trim, trimStart, trimStart, List.dropWhile_idempotent]
  rfl

theorem trim_trim (t : List Char) : trim (trim t) = trim t := by
  refine trim_eq_self_iff.2 ⟨fun c hc => ?_, fun c hc => ?_⟩
  · -- what is left of a text by trimming its end starts as the text does
    obtain ⟨r, hr⟩ : trim t <+: trimStart t := List.rdropWhile_prefix isBlank _
    have hstart : trimStart (trimStart t) = trimStart t := List.dropWhile_idempotent isBlank t
    refine trimStart_eq_self_iff.1 hstart c ?_
    rw [← hr, List.head?_append, Option.mem_def.1 hc]
    rfl
  · have hend : trimEnd (trim t) = trim t := List.rdropWhile_idempotent isBlank (trimStart t)
    exact trimEnd_eq_self_iff.1 hend c hc

theorem trim_append_blank {c : Char} (t : List Char) (hc : isBlank c = true) :
    trim (t ++ [c]) = trim t := by
  by_cases h : trimStart t = []
  · rw [trim, trim, trimStart_append_of_nil _ h, h, trimStart_cons_of_blank _ hc]
    rfl
  · rw [trim, trim, trimStart_append_of_ne_nil _ h, trimEnd_append_blank _ hc]

theorem takeWhile_append_of_stop {p : Char → Bool} {u v : List Char} (hu : ∀ c ∈ u, p c = true)
    (hv : ∀ c ∈ v.head?, p c = false) : (u ++ v).takeWhile p = u := by
  rw [List.takeWhile_append_of_pos hu]
  cases v with
  | nil => rw [List.takeWhile_nil, List.append_nil]
  | cons c v => rw [List.takeWhile_cons_of_neg (by simp [hv c rfl]), List.append_nil]

theorem dropWhile_append_of_stop {p : Char → Bool} {u v : List Char} (hu : ∀ c ∈ u, p c = true)
    (hv : ∀ c ∈ v.head?, p c = false) : (u ++ v).dropWhile p = v := by
  rw [List.dropWhile_append_of_pos hu]
  cases v with
  | nil => rfl
  | cons c v => exact List.dropWhile_cons_of_neg (by simp [hv c rfl])

theorem exists_append_stop (p : Char → Bool) (t : List Char) :
    ∃ u v, t = u ++ v ∧ (∀ c ∈ u, p c = true) ∧ ∀ c ∈ v.head?, p c = false := by
  refine ⟨t.takeWhile p, t.dropWhile p, List.takeWhile_append_dropWhile.symm,
    fun c hc => List.mem_takeWhile_imp hc, fun c hc => ?_⟩
  have hnot := List.head?_dropWhile_not p t
  rw [Option.mem_def.1 hc] at hnot
  simpa using hnot

theorem bne_of_notMem {c : Char} {u : List Char} (h : c ∉ u) : ∀ d ∈ u, (d != c) = true :=
  fun _ hd => bne_iff_ne.2 fun heq => h (heq ▸ hd)

theorem dropPrefix?_eq_none {p t : List Char} (h : ¬p <+: t) : dropPrefix? p t = none := by
  cases hd : dropPrefix? p t with
  | none => rfl
  | some r => exact absurd ⟨r, (eq_append_of_dropPrefix? hd).symm⟩ h

theorem withoutPrefix_eq_self {p t : List Char} (h : ¬p <+: t) : withoutPrefix p t = t := by
  rw [withoutPrefix, dropPrefix?_eq_none h, Option.getD_none]

theorem withoutPrefix_append (p t : List Char) : withoutPrefix p (p ++ t) = t := by
  rw [withoutPrefix, dropPrefix?_append, Option.getD_some]

theorem withoutSuffix_eq_self {s t : List Char} (h : ¬s <:+ t) : withoutSuffix s t = t := by
  cases hd : dropSuffix? s t with
  | none => simp [withoutSuffix, hd]
  | some r => exact absurd ⟨r, (eq_append_of_dropSuffix? hd).symm⟩ h

theorem withoutSuffix_append (s t : List Char) : withoutSuffix s (t ++ s) = t := by
  rw [withoutSuffix, dropSuffix?_append, Option.getD_some]

theorem withoutSuffix_isPrefix (s t : List Char) : withoutSuffix s t <+: t := by
  by_cases h : s <:+ t
  · obtain ⟨r, rfl⟩ := h
    rw [withoutSuffix_append]
    exact List.prefix_append r s
  · rw [withoutSuffix_eq_self h]

theorem suffix_of_suffix_append_cons {s p t : List Char} {c : Char} (hc : c ∉ s)
    (h : s <:+ p ++ c :: t) : s <:+ t := by
  rcases List.suffix_or_suffix_of_suffix h (List.suffix_append p (c :: t)) with h | h
  · rcases List.suffix_cons_iff.1 h with rfl | h
    · exact absurd List.mem_cons_self hc
    · exact h
  · exact absurd (h.subset List.mem_cons_self) hc

theorem withoutSuffix_append_cons {s : List Char} {c : Char} (hc : c ∉ s) (p t : List Char) :
    withoutSuffix s (p ++ c :: t) = p ++ c :: withoutSuffix s t := by
  by_cases h : s <:+ t
  · obtain ⟨r, rfl⟩ := h
    rw [withoutSuffix_append, ← List.cons_append, ← List.append_assoc, withoutSuffix_append]
  · rw [withoutSuffix_eq_self h,
      withoutSuffix_eq_self fun hlong => h (suffix_of_suffix_append_cons hc hlong)]

def lineEnds : List (List Char) := [['\n'], ['\r', '\n']]

def IsLine (l : List Char) : Prop := '\n' ∉ l ∧ l.getLast? ≠ some '\r'

instance : DecidablePred IsLine := fun l =>
  inferInstanceAs (Decidable ('\n' ∉ l ∧ l.getLast? ≠ some '\r'))

theorem IsLine.of_trim {l : List Char} (hbreak : '\n' ∉ l) (h : trim l = l) : IsLine l :=
  ⟨hbreak, fun hl => absurd ((trim_eq_self_iff.1 h).2 _ hl) (by decide)⟩

theorem IsLine.append {p l : List Char} (hp : IsLine p) (h : IsLine l) : IsLine (p ++ l) := by
  refine ⟨by simpa [hp.1] using h.1, ?_⟩
  cases l with
  | nil => simpa using hp.2
  | cons c l => simpa [List.getLast?_append_of_ne_nil] using h.2

theorem lines_cons {c : Char} {t : List Char} (hc : c ≠ '\n')
    (hr : c = '\r' → t.head? ≠ some '\n') :
    lines (c :: t) = match lines t with
      | [] => [[c]]
      | l :: ls => (c :: l) :: ls := by
  refine lines.eq_4 c t hc ?_
  rintro u rfl rfl
  exact hr rfl rfl

theorem lines_ne_nil {t : List Char} (h : t ≠ []) : lines t ≠ [] := by
  fun_cases lines t with
  | case1 => exact absurd rfl h
  | case2 | case3 | case4 | case5 => simp

theorem lines_append {l r : List Char} {ls : List (List Char)} (h : '\n' ∉ l)
    (hr : l.getLast? = some '\r' → r.head? ≠ some '\n') (hls : lines r = [] :: ls) :
    lines (l ++ r) = l :: ls := by
  induction l with
  | nil => exact hls
  | cons c l ih =>
    simp only [List.mem_cons, not_or] at h
    have hhead : c = '\r' → (l ++ r).head? ≠ some '\n' := by
      rintro rfl hn
      cases l with
      | nil => exact hr rfl hn
      | cons d l => exact h.2 (List.mem_of_mem_head? hn)
    have hlast : l.getLast? = some '\r' → r.head? ≠ some '\n' := fun hl =>
      hr (by rw [List.getLast?_cons, hl]; rfl)
    rw [List.cons_append, lines_cons (Ne.symm h.1) hhead, ih h.2 hlast]

theorem lines_append_lineEnd {l e : List Char} (h : IsLine l) (he : e ∈ lineEnds)
    (t : List Char) : lines (l ++ (e ++ t)) = l :: lines t := by
  simp only [lineEnds, List.mem_cons, List.not_mem_nil, or_false] at he
  rcases he with rfl | rfl
  · exact lines_append h.1 (fun hl => absurd hl h.2) rfl
  · exact lines_append h.1 (fun _ => by simp) rfl

theorem lines_of_notMem {l : List Char} (hne : l ≠ []) (h : '\n' ∉ l) : lines l = [l] := by
  induction l with
  | nil => exact absurd rfl hne
  | cons c l ih =>
    simp only [List.mem_cons, not_or] at h
    have hhead : c = '\r' → l.head? ≠ some '\n' := fun _ hn =>
      h.2 (List.mem_of_mem_head? hn)
    rw [lines_cons (Ne.symm h.1) hhead]
    cases l with
    | nil => rfl
    | cons d l => rw [ih (List.cons_ne_nil d l) h.2]

/-- Lines joined by line ends split into the same lines, but for an empty one at the end. -/
theorem lines_intercalate {ls : List (List Char)} {e : List Char} (he : e ∈ lineEnds)
    (h : ∀ l ∈ ls, IsLine l) :
    lines (e.intercalate ls) = ls ∨ lines (e.intercalate ls) ++ [[]] = ls := by
  induction ls with
  | nil => exact .inl rfl
  | cons l ls ih =>
    have hl := h l List.mem_cons_self
    cases ls with
    | nil =>
      rw [List.intercalate_singleton]
      by_cases hne : l = []
      · subst hne
        exact .inr rfl
      · exact .inl (lines_of_notMem hne hl.1)
    | cons l' ls =>
      rw [List.intercalate_cons_cons, List.append_assoc, lines_append_lineEnd hl he]
      exact (ih fun m hm => h m (List.mem_cons_of_mem _ hm)).imp (congrArg (l :: ·))
        (congrArg (l :: ·))

theorem lines_intercalate_of_getLast? {ls : List (List Char)} {e : List Char} (he : e ∈ lineEnds)
    (h : ∀ l ∈ ls, IsLine l) (hlast : ls.getLast? ≠ some []) : lines (e.intercalate ls) = ls := by
  refine (lines_intercalate he h).resolve_right fun hls => hlast ?_
  rw [← hls, List.getLast?_concat]

theorem unlines_eq_intercalate (ls : List (List Char)) : unlines ls = ['\n'].intercalate ls := by
  induction ls with
  | nil => rfl
  | cons l ls ih =>
    cases ls with
    | nil => rw [unlines, List.intercalate_singleton]
    | cons l' ls =>
      rw [unlines, ih, List.intercalate_cons_cons, List.append_assoc, List.singleton_append]
      simp

theorem lines_unlines {ls : List (List Char)} (h : ∀ l ∈ ls, IsLine l)
    (hlast : ls.getLast? ≠ some []) : lines (unlines ls) = ls := by
  rw [unlines_eq_intercalate]
  exact lines_intercalate_of_getLast? (by decide) h hlast

theorem append_unlines_cons (p l : List Char) (ls : List (List Char)) :
    p ++ unlines (l :: ls) = unlines ((p ++ l) :: ls) := by
  cases ls with
  | nil => rfl
  | cons m ls => simp only [unlines, List.append_assoc]

theorem exists_unlines_concat (ls : List (List Char)) (l : List Char) :
    ∃ p, unlines (ls ++ [l]) = p ++ l := by
  induction ls with
  | nil => exact ⟨[], rfl⟩
  | cons m ls ih =>
    obtain ⟨p, hp⟩ := ih
    refine ⟨m ++ '\n' :: p, ?_⟩
    rw [List.cons_append, unlines.eq_3 _ _ (by simp), hp, List.append_assoc, List.cons_append]

theorem trim_unlines {l : List Char} {ls : List (List Char)} (hl : l ≠ [])
    (htrim : ∀ m ∈ l :: ls, trim m = m) (hlast : (l :: ls).getLast? ≠ some []) :
    trim (unlines (l :: ls)) = unlines (l :: ls) := by
  refine trim_eq_self_iff.2 ⟨?_, ?_⟩
  · have hhead : unlines (l :: ls) = l ++ unlines ([] :: ls) := by
      rw [append_unlines_cons, List.append_nil]
    rw [hhead, List.head?_append_of_ne_nil _ hl]
    exact (trim_eq_self_iff.1 (htrim l List.mem_cons_self)).1
  · obtain ⟨init, m, hm⟩ :=
      (List.eq_nil_or_concat (l :: ls)).resolve_left (List.cons_ne_nil l ls)
    obtain ⟨p, hp⟩ := exists_unlines_concat init m
    have hne : m ≠ [] := by
      rintro rfl
      exact hlast (by rw [hm, List.concat_eq_append, List.getLast?_concat])
    rw [hm, List.concat_eq_append, hp, List.getLast?_append_of_ne_nil _ hne]
    exact (trim_eq_self_iff.1 (htrim m (by simp [hm]))).2

theorem lines_append_newline (t u : List Char) :
    lines (t ++ '\n' :: u) = lines (t ++ ['\n']) ++ lines u := by
  induction t using lines.induct with
  | case1 => rfl
  | case2 t ih => simpa [lines] using ih
  | case3 t ih => simpa [lines] using ih
  | case4 c t hc hr _ ih | case5 c t hc hr _ _ _ ih =>
    cases t with
    | nil =>
      -- a carriage return before the line feed belongs to the end of the line
      by_cases hcr : c = '\r'
      · subst hcr
        rfl
      · simp [lines, hcr]
    | cons d t =>
      have hcons (v : List Char) : lines (c :: d :: t ++ v) = match lines (d :: t ++ v) with
          | [] => [[c]]
          | l :: ls => (c :: l) :: ls := lines_cons hc <| by
        rintro rfl hd
        exact hr t rfl (by simpa using hd)
      rw [hcons, hcons, ih]
      cases h : lines (d :: t ++ ['\n']) with
      | nil => exact absurd h (lines_ne_nil (List.cons_ne_nil _ _))
      | cons l ls => rfl

theorem exists_lastLine (t : List Char) :
    '\n' ∉ t ∨ ∃ p l, t = p ++ '\n' :: l ∧ '\n' ∉ l := by
  by_cases h : '\n' ∈ t
  · obtain ⟨l, p, hrev, hl⟩ := List.eq_append_cons_of_mem (List.mem_reverse.2 h)
    refine .inr ⟨p.reverse, l.reverse, ?_, by simpa using hl⟩
    rw [← List.reverse_reverse t, hrev]
    simp
  · exact .inl h

theorem lines_concat_newline {l : List Char} (h : '\n' ∉ l) :
    lines (l ++ ['\n']) = [l] ∨ ∃ m, l = m ++ ['\r'] ∧ lines (l ++ ['\n']) = [m] := by
  by_cases hl : l.getLast? = some '\r'
  · obtain ⟨m, rfl⟩ := List.getLast?_eq_some_iff.1 hl
    refine .inr ⟨m, rfl, ?_⟩
    rw [List.append_assoc]
    exact lines_append (fun hm => h (List.mem_append_left _ hm)) (fun _ => by simp) rfl
  · exact .inl (lines_append h (fun h' => absurd h' hl) rfl)

/-- The lines of two texts put together at a line feed, through a function that a carriage return
at the end of a line does not change. -/
theorem map_lines_append_newline {α : Type} {f : List Char → α} (hf : ∀ l, f (l ++ ['\r']) = f l)
    (t u : List Char) :
    (lines (t ++ '\n' :: u)).map f = (lines t).map f ++ (lines u).map f ∨
      (lines (t ++ '\n' :: u)).map f = ((lines t).map f ++ [f []]) ++ (lines u).map f := by
  have hline {l : List Char} (h : '\n' ∉ l) : (lines (l ++ ['\n'])).map f = (lines l).map f ∨
      (lines (l ++ ['\n'])).map f = (lines l).map f ++ [f []] := by
    by_cases hne : l = []
    · subst hne
      exact .inr rfl
    · rw [lines_of_notMem hne h]
      rcases lines_concat_newline h with hl | ⟨m, rfl, hm⟩
      · rw [hl]
        exact .inl rfl
      · rw [hm, List.map_singleton, List.map_singleton, hf]
        exact .inl rfl
  have htext : (lines (t ++ ['\n'])).map f = (lines t).map f ∨
      (lines (t ++ ['\n'])).map f = (lines t).map f ++ [f []] := by
    rcases exists_lastLine t with h | ⟨p, l, rfl, h⟩
    · exact hline h
    · rw [List.append_assoc, List.cons_append, lines_append_newline p (l ++ ['\n']),
        lines_append_newline p l, List.map_append, List.map_append, List.append_assoc]
      exact (hline h).imp (congrArg _) (congrArg _)
  rw [lines_append_newline, List.map_append]
  exact htext.imp (congrArg (· ++ _)) (congrArg (· ++ _))

end ToolCatalog.Text
