import ToolCatalog.Proofs.Doc.Entries

/-!
# Blocks of a comment

Lines that start with a tag line add their blocks to those before them. An empty
line at the start or at the end of a comment says nothing: where a block is open it
joins its text, and every text is trimmed. So a comment says the same with each line
end.
-/

namespace ToolCatalog.DocComment

open Text

theorem blocks_cons_of_tag {l name body : List Char} (h : splitTag? l = some (name, body))
    (ls : List (List Char)) :
    blocks (l :: ls) = ([], ⟨name, body :: (blocks ls).1⟩ :: (blocks ls).2) := by
  simp only [blocks, h]

theorem blocks_cons_of_none {l : List Char} (h : splitTag? l = none) (ls : List (List Char)) :
    blocks (l :: ls) = (l :: (blocks ls).1, (blocks ls).2) := by
  simp only [blocks, h]

theorem blocks_of_none {ls : List (List Char)} (h : ∀ l ∈ ls, splitTag? l = none) :
    blocks ls = (ls, []) := by
  induction ls with
  | nil => rfl
  | cons l ls ih =>
    rw [blocks_cons_of_none (h l List.mem_cons_self),
      ih fun m hm => h m (List.mem_cons_of_mem _ hm)]

theorem blocks_append {ms : List (List Char)} (h : (blocks ms).1 = []) (ls : List (List Char)) :
    blocks (ls ++ ms) = ((blocks ls).1, (blocks ls).2 ++ (blocks ms).2) := by
  induction ls with
  | nil => exact Prod.ext h rfl
  | cons l ls ih =>
    cases htag : splitTag? l with
    | none => rw [List.cons_append, blocks_cons_of_none htag, ih, blocks_cons_of_none htag]
    | some tag =>
      rw [List.cons_append, blocks_cons_of_tag htag, ih, blocks_cons_of_tag htag, List.cons_append]

theorem blocks_concat_nil (ls : List (List Char)) :
    ((blocks (ls ++ [[]])).1 = (blocks ls).1 ∨ (blocks (ls ++ [[]])).1 = (blocks ls).1 ++ [[]]) ∧
      (blocks (ls ++ [[]])).2.filterMap Block.entry? = (blocks ls).2.filterMap Block.entry? := by
  induction ls with
  | nil => exact ⟨.inr rfl, rfl⟩
  | cons l ls ih =>
    obtain ⟨hfree, hblocks⟩ := ih
    rw [List.cons_append]
    cases htag : splitTag? l with
    | none =>
      rw [blocks_cons_of_none htag, blocks_cons_of_none htag]
      exact ⟨hfree.imp (congrArg (l :: ·)) (congrArg (l :: ·)), hblocks⟩
    | some tag =>
      rw [blocks_cons_of_tag htag, blocks_cons_of_tag htag]
      refine ⟨.inl rfl, ?_⟩
      rw [List.filterMap_cons, List.filterMap_cons, hblocks]
      rcases hfree with hfree | hfree
      · rw [hfree]
      · rw [hfree, ← List.cons_append, entry?_concat_nil _ (List.cons_ne_nil _ _)]

theorem ofLines_eq (ls : List (List Char)) :
    ofLines ls = ((blocks ls).2.filterMap Block.entry?).foldl addEntry
      { description := nonempty (trim (unlines (blocks ls).1)) } := foldl_addBlock _ _

theorem ofLines_concat_nil (ls : List (List Char)) : ofLines (ls ++ [[]]) = ofLines ls := by
  obtain ⟨hfree, hblocks⟩ := blocks_concat_nil ls
  have htext : trim (unlines (blocks (ls ++ [[]])).1) = trim (unlines (blocks ls).1) := by
    rcases hfree with h | h
    · rw [h]
    · by_cases hne : (blocks ls).1 = []
      · rw [h, hne]
        rfl
      · rw [h, unlines_concat_nil hne, trim_append_blank _ (by decide)]
  rw [ofLines_eq, ofLines_eq, hblocks, htext]

theorem ofLines_nil_cons (ls : List (List Char)) : ofLines ([] :: ls) = ofLines ls := by
  have htext (free : List (List Char)) : trim (unlines ([] :: free)) = trim (unlines free) := by
    cases free with
    | nil => rfl
    | cons l free => rfl
  rw [ofLines_eq, ofLines_eq, blocks_cons_of_none rfl, htext]

theorem cleanLine_nil : cleanLine [] = [] := by decide

theorem cleanLine_concat_blank {c : Char} (l : List Char) (hc : isBlank c = true) :
    cleanLine (l ++ [c]) = cleanLine l := by
  rw [cleanLine, cleanLine, trim_append_blank l hc]

theorem dropMark_eq_self {t : List Char} (hblock : ¬['/', '*'] <+: t) (hline : ¬['/', '/'] <+: t) :
    dropMark t = t := by
  have hmarks : ∀ m ∈ lineMarks, ['/', '*'] <+: m ∨ ['/', '/'] <+: m := by decide
  have hnone : (lineMarks.findSome? fun m => dropPrefix? m t) = none := by
    refine List.findSome?_eq_none_iff.2 fun m hm => dropPrefix?_eq_none fun hpre => ?_
    rcases hmarks m hm with h | h
    · exact hblock (h.trans hpre)
    · exact hline (h.trans hpre)
  rw [dropMark, hnone, Option.getD_none]

/-- Whether a text can stand on a line of its own: without blanks around it, and without anything
at its ends that is taken for a mark of a comment. -/
structure IsContent (l : List Char) : Prop where
  noBreak : '\n' ∉ l
  trimmed : trim l = l
  noStar : ¬['*'] <+: l
  noBlock : ¬['/', '*'] <+: l
  noSlashes : ¬['/', '/'] <+: l
  noEnd : ¬['*', '/'] <:+ l

instance : DecidablePred IsContent := fun l =>
  decidable_of_iff ('\n' ∉ l ∧ trim l = l ∧ ¬['*'] <+: l ∧ ¬['/', '*'] <+: l ∧ ¬['/', '/'] <+: l ∧
    ¬['*', '/'] <:+ l)
    ⟨fun ⟨h₁, h₂, h₃, h₄, h₅, h₆⟩ => ⟨h₁, h₂, h₃, h₄, h₅, h₆⟩,
      fun ⟨h₁, h₂, h₃, h₄, h₅, h₆⟩ => ⟨h₁, h₂, h₃, h₄, h₅, h₆⟩⟩

theorem IsContent.isLine {l : List Char} (h : IsContent l) : IsLine l :=
  .of_trim h.noBreak h.trimmed

theorem cleanLine_of_dropMark {l r c : List Char} (hl : dropMark (trim l) = r)
    (hr : trimStart r = c) (hend : ¬['*', '/'] <:+ r) (hc : IsContent c) : cleanLine l = c := by
  rw [cleanLine, hl, withoutSuffix_eq_self hend, hr, withoutPrefix_eq_self hc.noStar, hc.trimmed]

theorem cleanLine_of_isContent {l : List Char} (h : IsContent l) : cleanLine l = l :=
  cleanLine_of_dropMark (by rw [h.trimmed, dropMark_eq_self h.noBlock h.noSlashes])
    (trimStart_of_trim h.trimmed) h.noEnd h

theorem map_cleanLine {ls : List (List Char)} (h : ∀ l ∈ ls, IsContent l) :
    ls.map cleanLine = ls :=
  (List.map_congr_left fun l hl => cleanLine_of_isContent (h l hl)).trans (List.map_id ls)

/-- A raw text of lines says what its cleaned lines say, whatever ends the lines. -/
theorem parse_intercalate {e : String} (he : e.toList ∈ lineEnds) {ls : List String}
    (h : ∀ l ∈ ls, IsLine l.toList) :
    parse (e.intercalate ls) = ofLines ((ls.map String.toList).map cleanLine) := by
  have hlines : ∀ l ∈ ls.map String.toList, IsLine l := by simpa using h
  rw [parse, String.toList_intercalate]
  rcases lines_intercalate he hlines with hls | hls
  · rw [hls]
  · have hclean := congrArg (List.map cleanLine) hls
    rw [List.map_append, List.map_singleton, cleanLine_nil] at hclean
    rw [← hclean, ofLines_concat_nil]

end ToolCatalog.DocComment
