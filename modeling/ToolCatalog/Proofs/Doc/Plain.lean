import ToolCatalog.Proofs.Doc.Blocks

/-!
# Plain texts

Lines that are taken neither for marks nor for tags, and the texts that are made of them.
Such a text is its own trim and splits into its lines; as a comment it is a description.
-/

namespace ToolCatalog.DocComment

open Text

def isTagLine : List Char → Bool
  | '@' :: c :: _ => isTagChar c
  | _ => false

theorem splitTag?_eq_none {l : List Char} (h : isTagLine l = false) : splitTag? l = none := by
  fun_cases splitTag? l with
  | case1 => rfl
  | case2 t name hname =>
    refine absurd ?_ hname
    cases t with
    | nil => rfl
    | cons c t =>
      have hc : isTagChar c = false := h
      simp [name, hc]
  | case3 => rfl

structure IsPlainLine (l : List Char) : Prop extends IsContent l where
  noTag : isTagLine l = false

instance : DecidablePred IsPlainLine := fun l =>
  decidable_of_iff (IsContent l ∧ isTagLine l = false)
    ⟨fun ⟨h₁, h₂⟩ => ⟨h₁, h₂⟩, fun ⟨h₁, h₂⟩ => ⟨h₁, h₂⟩⟩

def IsPlain (t : String) : Prop :=
  ∃ ls : List String, ls ≠ [] ∧ (∀ l ∈ ls, IsPlainLine l.toList) ∧ ls.head? ≠ some "" ∧
    ls.getLast? ≠ some "" ∧ t = "\n".intercalate ls

def IsPlainValue (t : String) : Prop := t = "" ∨ IsPlain t

theorem toList_intercalate_newline (ls : List String) :
    ("\n".intercalate ls).toList = unlines (ls.map String.toList) := by
  rw [String.toList_intercalate, unlines_eq_intercalate]
  rfl

theorem IsPlain.exists_lines {t : String} (h : IsPlain t) :
    ∃ l ls, t.toList = unlines (l :: ls) ∧ (∀ m ∈ l :: ls, IsPlainLine m) ∧ l ≠ [] ∧
      (l :: ls).getLast? ≠ some [] := by
  obtain ⟨ls, hne, hplain, hhead, hlast, rfl⟩ := h
  obtain ⟨l, ls, rfl⟩ := List.exists_cons_of_ne_nil hne
  refine ⟨l.toList, ls.map String.toList, toList_intercalate_newline _, by simpa using hplain,
    by simpa using hhead, fun h => hlast ?_⟩
  rw [← List.map_cons, List.getLast?_map, Option.map_eq_some_iff] at h
  obtain ⟨m, hm, hempty⟩ := h
  rw [hm, String.toList_eq_nil_iff.1 hempty]

theorem IsPlain.trim_eq {t : String} (h : IsPlain t) : trim t.toList = t.toList := by
  obtain ⟨l, ls, ht, hplain, hl, hlast⟩ := h.exists_lines
  rw [ht]
  exact trim_unlines hl (fun m hm => (hplain m hm).trimmed) hlast

theorem IsPlain.ne_nil {t : String} (h : IsPlain t) : t.toList ≠ [] := by
  obtain ⟨l, ls, ht, -, hl, -⟩ := h.exists_lines
  rw [ht, ← List.append_nil l, ← append_unlines_cons]
  exact List.append_ne_nil_of_left_ne_nil hl _

theorem IsPlain.nonempty_eq {t : String} (h : IsPlain t) : nonempty t.toList = some t := by
  simp [nonempty, h.ne_nil]

theorem IsPlainValue.trim_eq {t : String} (h : IsPlainValue t) : trim t.toList = t.toList := by
  rcases h with rfl | h
  · decide
  · exact h.trim_eq

theorem IsPlainValue.exists_lines {t : String} (h : IsPlainValue t) :
    ∃ l ls, t.toList = unlines (l :: ls) ∧ (∀ m ∈ l :: ls, IsPlainLine m) ∧
      ls.getLast? ≠ some [] := by
  rcases h with rfl | h
  · exact ⟨[], [], by decide, by decide, by decide⟩
  · obtain ⟨l, ls, ht, hplain, -, hlast⟩ := h.exists_lines
    refine ⟨l, ls, ht, hplain, fun h => hlast ?_⟩
    rw [List.getLast?_cons, h, Option.getD_some]

theorem parse_of_isPlain {t : String} (h : IsPlain t) : parse t = { description := some t } := by
  obtain ⟨l, ls, ht, hplain, hl, hlast⟩ := h.exists_lines
  have hlines : lines t.toList = l :: ls := by
    rw [ht]
    exact lines_unlines (fun m hm => (hplain m hm).isLine) hlast
  have hclean : (l :: ls).map cleanLine = l :: ls :=
    map_cleanLine fun m hm => (hplain m hm).toIsContent
  have hblocks : blocks (l :: ls) = (l :: ls, []) :=
    blocks_of_none fun m hm => splitTag?_eq_none (hplain m hm).noTag
  rw [parse, hlines, hclean, ofLines_eq, hblocks, ← ht, h.trim_eq, h.nonempty_eq]
  rfl

end ToolCatalog.DocComment
