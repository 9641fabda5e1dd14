import ToolCatalog.Proofs.Doc.Blocks

/-!
# A comment says the same in every notation

Lines can be written as they are, behind the stars of a block comment, or behind the
slashes of line comments, and with either line end. Cleaning takes each of them back
to its content, and the first and the last line of a block comment to an empty one.
-/

namespace ToolCatalog.DocComment

open Text

/-- What stands before the content of a line: in a block comment, and in the line comments. -/
def contentMarks : List (List Char) :=
  [[' ', '*', ' '], ['/', '/', '/', ' '], ['/', '/', '!', ' '], ['/', '/', ' ']]

theorem cleanLine_gutter {l : List Char} (h : IsContent l) (hne : l ≠ []) :
    cleanLine ([' ', '*', ' '] ++ l) = l := by
  have htrim : trim ([' ', '*', ' '] ++ l) = ['*', ' '] ++ l := by
    rw [List.cons_append, trim_cons_blank _ (by decide)]
    have hstar : isBlank '*' = false := by decide
    exact trim_append (by simpa using hstar) (by simp) h.trimmed hne
  have hend : ¬['*', '/'] <:+ ['*'] ++ ' ' :: l := fun hs =>
    h.noEnd (suffix_of_suffix_append_cons (by decide) hs)
  have hdrop : dropMark (['*', ' '] ++ l) = ['*'] ++ ' ' :: l :=
    dropMark_eq_self (by simp) (by simp)
  have hstart : trimStart (['*'] ++ ' ' :: l) = ['*'] ++ ' ' :: l :=
    trimStart_cons_of_not_blank _ (by decide)
  rw [cleanLine, htrim, hdrop, withoutSuffix_eq_self hend, hstart, withoutPrefix_append,
    trim_cons_blank _ (by decide), h.trimmed]

theorem cleanLine_slashes {l : List Char} (h : IsContent l) (hne : l ≠ []) (slashes : List Char)
    (hslashes : slashes ∈ [['/', '/', '/'], ['/', '/', '!'], ['/', '/']]) :
    cleanLine ((slashes ++ [' ']) ++ l) = l := by
  have htrim : trim ((slashes ++ [' ']) ++ l) = slashes ++ ' ' :: l := by
    have hhead : ∀ c ∈ (slashes ++ [' ']).head?, isBlank c = false := by
      have hslash : isBlank '/' = false := by decide
      simp only [List.mem_cons, List.not_mem_nil, or_false] at hslashes
      rcases hslashes with rfl | rfl | rfl <;> simpa using hslash
    rw [trim_append hhead (by simp) h.trimmed hne, List.append_assoc, List.singleton_append]
  have hdrop : dropMark (slashes ++ ' ' :: l) = ' ' :: l := by
    simp only [List.mem_cons, List.not_mem_nil, or_false] at hslashes
    rcases hslashes with rfl | rfl | rfl <;> simp [dropMark, lineMarks, dropPrefix?]
  have hend : ¬['*', '/'] <:+ ' ' :: l := fun hs =>
    h.noEnd (suffix_of_suffix_append_cons (p := []) (by decide) hs)
  refine cleanLine_of_dropMark (by rw [htrim, hdrop]) ?_ hend h
  rw [trimStart_cons_of_blank _ (by decide), trimStart_of_trim h.trimmed]

theorem cleanLine_marked {l mark : List Char} (h : IsContent l) (hmark : mark ∈ contentMarks) :
    cleanLine (mark ++ l) = l := by
  by_cases hne : l = []
  · subst hne
    revert mark
    decide
  · simp only [contentMarks, List.mem_cons, List.not_mem_nil, or_false] at hmark
    rcases hmark with rfl | rfl | rfl | rfl
    · exact cleanLine_gutter h hne
    · exact cleanLine_slashes h hne ['/', '/', '/'] (by decide)
    · exact cleanLine_slashes h hne ['/', '/', '!'] (by decide)
    · exact cleanLine_slashes h hne ['/', '/'] (by decide)

section Notations

variable {ls : List String} (h : ∀ l ∈ ls, IsContent l.toList)

include h

variable {mark : String} (hmark : mark.toList ∈ contentMarks)

include hmark

theorem map_cleanLine_marked :
    ((ls.map (mark ++ ·)).map String.toList).map cleanLine = ls.map String.toList := by
  rw [List.map_map, List.map_map]
  refine List.map_congr_left fun l hl => ?_
  rw [Function.comp_apply, Function.comp_apply, String.toList_append]
  exact cleanLine_marked (h l hl) hmark

theorem isLine_marked : ∀ l ∈ ls.map (mark ++ ·), IsLine l.toList := by
  have hline : ∀ mark ∈ contentMarks, IsLine mark := by decide
  intro l hl
  obtain ⟨m, hm, rfl⟩ := List.mem_map.1 hl
  rw [String.toList_append]
  exact (hline _ hmark).append (h m hm).isLine

end Notations

/-- What a comment says does not depend on the notation: its lines as they are, the block notation
with a star before every line, and a line comment for each line, all with either line end. -/
theorem parse_marked {ls : List String} (h : ∀ l ∈ ls, IsContent l.toList) {e : String}
    (he : e ∈ ["\n", "\r\n"]) :
    parse (e.intercalate ls) = parse ("\n".intercalate ls) ∧
      parse (e.intercalate ("/**" :: ls.map (" * " ++ ·) ++ [" */"])) =
        parse ("\n".intercalate ls) ∧
      ∀ mark ∈ ["/// ", "//! ", "// "],
        parse (e.intercalate (ls.map (mark ++ ·))) = parse ("\n".intercalate ls) := by
  have hends : ∀ e ∈ ["\n", "\r\n"], e.toList ∈ lineEnds := by decide
  have hbare : ∀ e ∈ ["\n", "\r\n"], parse (e.intercalate ls) = ofLines (ls.map String.toList) := by
    intro e he
    rw [parse_intercalate (hends e he) fun l hl => (h l hl).isLine,
      map_cleanLine (by simpa using h)]
  rw [hbare "\n" (by decide)]
  refine ⟨hbare e he, ?_, fun mark hmark => ?_⟩
  · have hgutter : " * ".toList ∈ contentMarks := by decide
    have hlines : ∀ l ∈ "/**" :: ls.map (" * " ++ ·) ++ [" */"], IsLine l.toList := by
      intro l hl
      rcases List.mem_append.1 hl with hl | hl
      · rcases List.mem_cons.1 hl with rfl | hl
        · decide
        · exact isLine_marked h hgutter l hl
      · obtain rfl := List.mem_singleton.1 hl
        decide
    have hclean : (("/**" :: ls.map (" * " ++ ·) ++ [" */"]).map String.toList).map cleanLine =
        [] :: ls.map String.toList ++ [[]] := by
      have hfirst : cleanLine "/**".toList = [] := by decide
      have hlast : cleanLine " */".toList = [] := by decide
      rw [List.map_append, List.map_append, List.map_cons, List.map_cons,
        map_cleanLine_marked h hgutter, List.map_singleton, List.map_singleton, hfirst, hlast]
    rw [parse_intercalate (hends e he) hlines, hclean, ofLines_concat_nil, ofLines_nil_cons]
  · have hmark' : mark.toList ∈ contentMarks := by
      revert mark
      decide
    rw [parse_intercalate (hends e he) (isLine_marked h hmark'), map_cleanLine_marked h hmark']

def countLines : List String := ["Counts.", "", "@param n how", "", "often / fast", "@noid", ""]

theorem parse_marked_of_countLines :
    (∀ l ∈ countLines, IsContent l.toList) ∧ "\r\n" ∈ ["\n", "\r\n"] ∧
      parse ("\r\n".intercalate countLines) = parse ("\n".intercalate countLines) ∧
      parse ("\r\n".intercalate ("/**" :: countLines.map (" * " ++ ·) ++ [" */"])) =
        parse ("\n".intercalate countLines) ∧
      ∀ mark ∈ ["/// ", "//! ", "// "], parse ("\r\n".intercalate (countLines.map (mark ++ ·))) =
        parse ("\n".intercalate countLines) := by
  have hlines : ∀ l ∈ countLines, IsContent l.toList := by decide
  have hend : "\r\n" ∈ ["\n", "\r\n"] := by decide
  exact ⟨hlines, hend, parse_marked hlines hend⟩

end ToolCatalog.DocComment
