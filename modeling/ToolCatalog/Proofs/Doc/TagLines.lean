import ToolCatalog.Proofs.Doc.Blocks

/-!
# Lines that begin a block

A tag, what stands between it and the value, and the value after one space. Such a line
is its own content, but for the space before an empty value, and it splits again behind
the tag.
-/

namespace ToolCatalog.DocComment

open Text

def blankCodes : List Nat :=
  [9, 10, 11, 12, 13, 0x20, 0x85, 0xa0, 0x1680, 0x2000, 0x2001, 0x2002, 0x2003, 0x2004, 0x2005,
    0x2006, 0x2007, 0x2008, 0x2009, 0x200a, 0x2028, 0x2029, 0x202f, 0x205f, 0x3000]

theorem mem_blankCodes {c : Char} (h : isBlank c = true) : c.toNat ∈ blankCodes := by
  simp only [isBlank, Bool.or_eq_true, Bool.and_eq_true, decide_eq_true_eq, beq_iff_eq] at h
  simp only [blankCodes, List.mem_cons, List.not_mem_nil, or_false]
  omega

theorem isTagChar_eq_false_of_isBlank {c : Char} (h : isBlank c = true) : isTagChar c = false := by
  have hranges : ∀ n ∈ blankCodes,
      inRanges alphabeticRanges n = false ∧ inRanges numericRanges n = false := by decide +kernel
  have hmarks : isBlank '_' = false ∧ isBlank '-' = false := by decide
  obtain ⟨halphabetic, hnumeric⟩ := hranges _ (mem_blankCodes h)
  have hunderscore : c ≠ '_' := by
    rintro rfl
    simp [hmarks.1] at h
  have hdash : c ≠ '-' := by
    rintro rfl
    simp [hmarks.2] at h
  simp [isTagChar, isAlphanumeric, isAlphabetic, isNumeric, halphabetic, hnumeric, hunderscore,
    hdash]

theorem isBlank_eq_false_of_isTagChar {c : Char} (h : isTagChar c = true) : isBlank c = false := by
  cases hc : isBlank c with
  | false => rfl
  | true => rw [isTagChar_eq_false_of_isBlank hc] at h; cases h

theorem splitTag?_append {name s : List Char} (hne : name ≠ [])
    (hname : ∀ c ∈ name, isTagChar c = true) (hs : ∀ c ∈ s.head?, isTagChar c = false) :
    splitTag? ('@' :: (name ++ s)) = some (name, trimStart s) := by
  have hempty : name.isEmpty = false := by simpa using hne
  simp only [splitTag?, takeWhile_append_of_stop hname hs, dropWhile_append_of_stop hname hs,
    hempty, Bool.false_eq_true, ↓reduceIte]

structure IsLead (lead : List Char) : Prop where
  tagged : lead.head? = some '@'
  noBreak : '\n' ∉ lead
  trimmed : trim lead = lead
  noSlash : lead.getLast? ≠ some '/'

theorem isLead_of_getLast? {lead : List Char} {c : Char} (htag : lead.head? = some '@')
    (hbreak : '\n' ∉ lead) (hlast : lead.getLast? = some c) (hblank : isBlank c = false)
    (hslash : c ≠ '/') : IsLead lead := by
  refine ⟨htag, hbreak, trim_eq_self_iff.2 ⟨?_, ?_⟩, by simpa [hlast] using hslash⟩
  · have hat : isBlank '@' = false := by decide
    simpa [htag] using hat
  · simpa [hlast] using hblank

theorem isLead_tag {name : List Char} (hne : name ≠ []) (hname : ∀ c ∈ name, isTagChar c = true) :
    IsLead ('@' :: name) := by
  have hbreak : isTagChar '\n' = false := isTagChar_eq_false_of_isBlank (by decide)
  have hslash : isTagChar '/' = false := by decide
  have hlast : ('@' :: name).getLast? = some (name.getLast hne) := by
    rw [List.getLast?_cons, List.getLast?_eq_some_getLast hne, Option.getD_some]
  have hchar := hname _ (List.getLast_mem hne)
  refine isLead_of_getLast? rfl ?_ hlast (isBlank_eq_false_of_isTagChar hchar) ?_
  · simp only [List.mem_cons, not_or]
    refine ⟨by decide, fun hmem => ?_⟩
    rw [hname _ hmem] at hbreak
    cases hbreak
  · intro hc
    rw [hc, hslash] at hchar
    cases hchar

def spaced : List Char → List Char
  | [] => []
  | v => ' ' :: v

theorem spaced_of_ne_nil {v : List Char} (h : v ≠ []) : spaced v = ' ' :: v := spaced.eq_2 v h

theorem trimStart_spaced {v : List Char} (h : trim v = v) : trimStart (spaced v) = v := by
  cases v with
  | nil => rfl
  | cons c v => rw [spaced_of_ne_nil (by simp), trimStart_cons_of_blank _ (by decide),
      trimStart_of_trim h]

theorem trim_unlines_spaced (l : List Char) (ls : List (List Char)) :
    trim (unlines (spaced l :: ls)) = trim (unlines (l :: ls)) := by
  cases l with
  | nil => rfl
  | cons c l =>
    have hspaced : spaced (c :: l) = [' '] ++ c :: l := rfl
    rw [hspaced, ← append_unlines_cons, List.singleton_append, trim_cons_blank _ (by decide)]

theorem isTagChar_spaced (v : List Char) : ∀ c ∈ (spaced v).head?, isTagChar c = false := by
  have hspace : isTagChar ' ' = false := isTagChar_eq_false_of_isBlank (by decide)
  cases v with
  | nil => simp [spaced]
  | cons c v => simpa [spaced] using hspace

theorem splitTag?_spaced {name v : List Char} (hne : name ≠ [])
    (hname : ∀ c ∈ name, isTagChar c = true) (hv : trim v = v) :
    splitTag? ('@' :: (name ++ spaced v)) = some (name, v) := by
  rw [splitTag?_append hne hname (isTagChar_spaced v), trimStart_spaced hv]

theorem isContent_of_tagged {l : List Char} (htag : l.head? = some '@') (hbreak : '\n' ∉ l)
    (htrim : trim l = l) (hend : ¬['*', '/'] <:+ l) : IsContent l := by
  obtain ⟨r, rfl⟩ := List.head?_eq_some_iff.1 htag
  exact ⟨hbreak, htrim, by simp, by simp, by simp, hend⟩

theorem IsLead.isContent {lead : List Char} (h : IsLead lead) : IsContent lead := by
  refine isContent_of_tagged h.tagged h.noBreak h.trimmed fun hend => h.noSlash ?_
  obtain ⟨r, rfl⟩ := hend
  rw [List.getLast?_append_of_ne_nil _ (by simp)]
  rfl

structure IsValue (v : List Char) : Prop where
  noBreak : '\n' ∉ v
  trimmed : trim v = v
  noEnd : ¬['*', '/'] <:+ v

instance : DecidablePred IsValue := fun v =>
  decidable_of_iff ('\n' ∉ v ∧ trim v = v ∧ ¬['*', '/'] <:+ v)
    ⟨fun ⟨h₁, h₂, h₃⟩ => ⟨h₁, h₂, h₃⟩, fun ⟨h₁, h₂, h₃⟩ => ⟨h₁, h₂, h₃⟩⟩

theorem IsContent.isValue {l : List Char} (h : IsContent l) : IsValue l :=
  ⟨h.noBreak, h.trimmed, h.noEnd⟩

theorem IsLead.isContent_append {lead v : List Char} (hlead : IsLead lead) (hv : IsValue v) :
    IsContent (lead ++ spaced v) := by
  by_cases hne : v = []
  · subst hne
    rw [spaced, List.append_nil]
    exact hlead.isContent
  · have hleadNe : lead ≠ [] := by
      rintro rfl
      simpa using hlead.tagged
    rw [spaced_of_ne_nil hne]
    refine isContent_of_tagged ?_ ?_ ?_ ?_
    · rw [List.head?_append_of_ne_nil _ hleadNe, hlead.tagged]
    · simpa [hlead.noBreak] using hv.noBreak
    · rw [← List.singleton_append, ← List.append_assoc]
      refine trim_append ?_ (by simp) hv.trimmed hne
      rw [List.head?_append_of_ne_nil _ hleadNe]
      exact (trim_eq_self_iff.1 hlead.trimmed).1
    · exact fun h => hv.noEnd (suffix_of_suffix_append_cons (by decide) h)

theorem IsLead.cleanLine_append {lead v : List Char} (hlead : IsLead lead) (hv : IsValue v) :
    cleanLine (lead ++ ' ' :: v) = lead ++ spaced v := by
  have hclean := cleanLine_of_isContent (hlead.isContent_append hv)
  by_cases hne : v = []
  · subst hne
    rw [cleanLine_concat_blank lead (by decide)]
    simpa [spaced] using hclean
  · rwa [spaced_of_ne_nil hne] at hclean ⊢

theorem dropDash_dash (t : List Char) : dropDash (' ' :: '-' :: t) = trimStart t := by
  have hdash : trimStart (' ' :: '-' :: t) = ['-'] ++ t := by
    rw [trimStart_cons_of_blank _ (by decide), trimStart_cons_of_not_blank _ (by decide)]
    rfl
  rw [dropDash, hdash, withoutPrefix_append]

end ToolCatalog.DocComment
