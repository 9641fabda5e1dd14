import ToolCatalog.Proofs.Doc.TagLines

/-!
# Types in braces

A type before the text of a parameter or of the result says nothing: it ends at the brace that
closes its first one, however deep the braces inside it are, and the comment is that of the text
behind it. A type that no brace closes, on any line of its block, is part of the text.
-/

namespace ToolCatalog.DocComment

open Text

/-- Whether a text closes `n` braces more than it opens. -/
def Closes (n : Nat) (t : List Char) : Prop := t.count '\x7d' = t.count '\x7b' + n

instance (n : Nat) : DecidablePred (Closes n) := fun t =>
  inferInstanceAs (Decidable (t.count '\x7d' = t.count '\x7b' + n))

theorem closes_cons_open {n : Nat} {t : List Char} : Closes n ('\x7b' :: t) ↔ Closes (n + 1) t := by
  rw [Closes, Closes, List.count_cons_self, List.count_cons_of_ne (by decide)]
  omega

theorem closes_cons_close {n : Nat} {t : List Char} :
    Closes (n + 1) ('\x7d' :: t) ↔ Closes n t := by
  rw [Closes, Closes, List.count_cons_self, List.count_cons_of_ne (by decide)]
  omega

theorem closes_cons_of_ne {n : Nat} {c : Char} {t : List Char} (hopen : c ≠ '\x7b')
    (hclose : c ≠ '\x7d') : Closes n (c :: t) ↔ Closes n t := by
  rw [Closes, Closes, List.count_cons_of_ne hopen, List.count_cons_of_ne hclose]

theorem closes_concat_close {n : Nat} {t : List Char} :
    Closes (n + 1) (t ++ ['\x7d']) ↔ Closes n t := by
  have hopen : ['\x7d'].count '\x7b' = 0 := by decide
  have hclose : ['\x7d'].count '\x7d' = 1 := by decide
  rw [Closes, Closes, List.count_append, List.count_append, hopen, hclose]
  omega

/-- Whether a text is one type in braces: its last character closes the brace it starts with. -/
structure IsBraced (t : List Char) : Prop where
  opened : t.head? = some '\x7b'
  closed : Closes 0 t
  first : ∀ p, p <+: t → p ≠ [] → p ≠ t → ¬Closes 0 p

instance : DecidablePred IsBraced := fun t =>
  decidable_of_iff (t.head? = some '\x7b' ∧ Closes 0 t ∧
      t.inits.all (fun p => p = [] ∨ p = t ∨ ¬Closes 0 p) = true) <| by
    simp only [List.all_eq_true, List.mem_inits, decide_eq_true_eq]
    constructor
    · rintro ⟨hopen, hclosed, hfirst⟩
      exact ⟨hopen, hclosed, fun p hp hne hlt => ((hfirst p hp).resolve_left hne).resolve_left hlt⟩
    · rintro ⟨hopen, hclosed, hfirst⟩
      refine ⟨hopen, hclosed, fun p hp => or_iff_not_imp_left.2 fun hne => ?_⟩
      exact or_iff_not_imp_left.2 (hfirst p hp hne)

structure IsUnclosed (t : List Char) : Prop where
  opened : t.head? = some '\x7b'
  never : ∀ p, p <+: t → p ≠ [] → ¬Closes 0 p

instance : DecidablePred IsUnclosed := fun t =>
  decidable_of_iff (t.head? = some '\x7b' ∧
      t.inits.all (fun p => p = [] ∨ ¬Closes 0 p) = true) <| by
    simp only [List.all_eq_true, List.mem_inits, decide_eq_true_eq]
    constructor
    · rintro ⟨hopen, hnever⟩
      exact ⟨hopen, fun p hp hne => (hnever p hp).resolve_left hne⟩
    · rintro ⟨hopen, hnever⟩
      exact ⟨hopen, fun p hp => or_iff_not_imp_left.2 (hnever p hp)⟩

theorem afterBrace?_append_of_first {n : Nat} {t : List Char} (hclosed : Closes (n + 1) t)
    (hfirst : ∀ p, p <+: t → p ≠ t → ¬Closes (n + 1) p) (u : List Char) :
    afterBrace? n (t ++ u) = some u := by
  induction t generalizing n with
  | nil => simp [Closes] at hclosed
  | cons c t ih =>
    have hrest (k : Nat) (hk : ∀ p, Closes (n + 1) (c :: p) ↔ Closes (k + 1) p) :
        afterBrace? k (t ++ u) = some u := by
      apply ih ((hk t).1 hclosed)
      intro p hp hne h
      apply hfirst (c :: p) (List.cons_prefix_cons.2 ⟨rfl, hp⟩) _ ((hk p).2 h)
      exact fun hcons => hne (List.cons.inj hcons).2
    by_cases hopen : c = '\x7b'
    · subst hopen
      exact hrest (n + 1) fun p => closes_cons_open
    · by_cases hclose : c = '\x7d'
      · subst hclose
        cases n with
        | zero =>
          -- this brace closes the first one, so nothing of the type is left
          have hnil : t = [] := by
            by_contra hne
            apply hfirst ['\x7d'] (List.cons_prefix_cons.2 ⟨rfl, List.nil_prefix⟩) _ (by decide)
            simpa using Ne.symm hne
          rw [hnil]
          rfl
        | succ n => exact hrest n fun p => closes_cons_close
      · simp only [List.cons_append, afterBrace?, hopen, hclose, ↓reduceIte]
        exact hrest n fun p => closes_cons_of_ne hopen hclose

theorem exists_of_afterBrace? {n : Nat} {t r : List Char} (h : afterBrace? n t = some r) :
    ∃ p, t = p ++ '\x7d' :: r ∧ Closes n p := by
  fun_induction afterBrace? n t with
  | case1 => cases h
  | case2 n t ih =>
    obtain ⟨p, rfl, hclosed⟩ := ih h
    exact ⟨'\x7b' :: p, rfl, closes_cons_open.2 hclosed⟩
  | case3 t =>
    obtain rfl := Option.some.inj h
    exact ⟨[], rfl, rfl⟩
  | case4 t n hne ih =>
    obtain ⟨p, rfl, hclosed⟩ := ih h
    exact ⟨'\x7d' :: p, rfl, closes_cons_close.2 hclosed⟩
  | case5 n c t hopen hclose ih =>
    obtain ⟨p, rfl, hclosed⟩ := ih h
    exact ⟨c :: p, rfl, (closes_cons_of_ne hopen hclose).2 hclosed⟩

section Braced

variable {t : List Char} (h : IsBraced t)

include h

theorem IsBraced.afterBrace?_append (u : List Char) :
    ∃ r, t = '\x7b' :: r ∧ afterBrace? 0 (r ++ u) = some u := by
  obtain ⟨r, rfl⟩ := List.head?_eq_some_iff.1 h.opened
  refine ⟨r, rfl, afterBrace?_append_of_first (closes_cons_open.1 h.closed) ?_ u⟩
  intro p hp hne hclosed
  apply h.first ('\x7b' :: p) (List.cons_prefix_cons.2 ⟨rfl, hp⟩) (List.cons_ne_nil _ _) _
    (closes_cons_open.2 hclosed)
  exact fun hcons => hne (List.cons.inj hcons).2

theorem IsBraced.getLast? : t.getLast? = some '\x7d' := by
  obtain ⟨r, rfl, hafter⟩ := h.afterBrace?_append []
  rw [List.append_nil] at hafter
  obtain ⟨p, rfl, -⟩ := exists_of_afterBrace? hafter
  rw [← List.cons_append, List.getLast?_concat]

theorem IsBraced.dropType_append (u : List Char) : dropType (t ++ u) = trimStart u := by
  obtain ⟨r, rfl, hafter⟩ := h.afterBrace?_append u
  rw [List.cons_append, dropType_of_open (trimStart_cons_of_not_blank _ (by decide)), hafter]
  rfl

end Braced

theorem dropType_of_isUnclosed {t : List Char} (h : IsUnclosed (trimStart t)) :
    dropType t = trimStart t := by
  obtain ⟨r, hr⟩ := List.head?_eq_some_iff.1 h.opened
  rw [dropType_of_open hr, hr]
  cases hafter : afterBrace? 0 r with
  | none => rfl
  | some rest =>
    obtain ⟨p, rfl, hclosed⟩ := exists_of_afterBrace? hafter
    have hprefix : '\x7b' :: (p ++ ['\x7d']) <+: trimStart t := ⟨rest, by simp [hr]⟩
    have hmatch : Closes 0 ('\x7b' :: (p ++ ['\x7d'])) :=
      closes_cons_open.2 (closes_concat_close.2 hclosed)
    exact absurd hmatch (h.never _ hprefix (List.cons_ne_nil _ _))

theorem dropType_of_head? {t : List Char} (h : (trimStart t).head? ≠ some '\x7b') :
    dropType t = trimStart t := by
  cases ht : trimStart t with
  | nil => rw [dropType, ht]
  | cons c r => exact dropType_of_trimStart ht (by simpa [ht] using h)

/-- What is left of a text at the end of a line: a closing mark of the comment and the blanks
around it are lost. -/
def cleanEnd (s : List Char) : List Char := trimEnd (withoutSuffix ['*', '/'] (trimEnd s))

theorem cleanEnd_isPrefix (s : List Char) : cleanEnd s <+: s :=
  (trimEnd_isPrefix _).trans ((withoutSuffix_isPrefix _ _).trans (trimEnd_isPrefix s))

theorem head?_cleanEnd {s : List Char} (h : cleanEnd s ≠ []) : (cleanEnd s).head? = s.head? := by
  obtain ⟨u, hu⟩ := cleanEnd_isPrefix s
  conv_rhs => rw [← hu, List.head?_append_of_ne_nil _ h]

/-- Whether a text can come behind a type. -/
structure FollowsType (s : List Char) : Prop where
  nonempty : s ≠ []
  noBreak : '\n' ∉ s
  noType : s.head? ≠ some '\x7b'
  noBlank : ∀ c ∈ s.head?, isBlank c = false

instance : DecidablePred FollowsType := fun s =>
  decidable_of_iff (s ≠ [] ∧ '\n' ∉ s ∧ s.head? ≠ some '\x7b' ∧
      s.head?.all (!isBlank ·) = true) <| by
    constructor
    · rintro ⟨h₁, h₂, h₃, h₄⟩
      exact ⟨h₁, h₂, h₃, fun c hc => by simpa [Option.mem_def.1 hc] using h₄⟩
    · rintro ⟨h₁, h₂, h₃, h₄⟩
      refine ⟨h₁, h₂, h₃, ?_⟩
      cases hs : s.head? with
      | none => rfl
      | some c => simpa using h₄ c hs

theorem IsLead.trim_append {lead : List Char} (hlead : IsLead lead) (t : List Char) :
    trim (lead ++ ' ' :: t) = lead ++ spaced (trimEnd t) := by
  obtain ⟨hstart, hend⟩ := trim_eq_self_iff.1 hlead.trimmed
  have hlong : trimStart (lead ++ ' ' :: t) = lead ++ ' ' :: t := by
    obtain ⟨r, rfl⟩ := List.head?_eq_some_iff.1 hlead.tagged
    exact trimStart_eq_self_iff.2 hstart
  rw [trim, hlong, List.append_cons]
  by_cases ht : trimEnd t = []
  · rw [trimEnd_append_of_nil _ ht, trimEnd_append_blank _ (by decide), ht, spaced, List.append_nil]
    exact trimEnd_eq_self_iff.2 hend
  · rw [trimEnd_append_of_ne_nil _ ht, spaced_of_ne_nil ht, ← List.append_cons]

section Line

variable {s : List Char} (hs : FollowsType s)

include hs

theorem FollowsType.trimEnd_ne_nil {t : List Char} (ht : t <+: s) (hne : t ≠ []) :
    trimEnd t ≠ [] := by
  intro h
  obtain ⟨c, r, rfl⟩ := List.exists_cons_of_ne_nil hne
  obtain ⟨u, rfl⟩ := ht
  have hblank := List.rdropWhile_eq_nil_iff.1 h c List.mem_cons_self
  rw [hs.noBlank c rfl] at hblank
  cases hblank

theorem FollowsType.trim_cleanEnd : trim (cleanEnd s) = cleanEnd s := by
  by_cases hne : cleanEnd s = []
  · rw [hne]
    rfl
  · refine trim_eq_self_iff.2 ⟨by rw [head?_cleanEnd hne]; exact hs.noBlank, ?_⟩
    exact trimEnd_eq_self_iff.1 (List.rdropWhile_idempotent isBlank _)

theorem FollowsType.trim_of_cleanEnd_eq_nil (h : cleanEnd s = []) : trim s = ['*', '/'] := by
  have htrim : trim s = trimEnd s := by rw [trim, trimStart_eq_self_iff.2 hs.noBlank]
  have hprefix := (withoutSuffix_isPrefix ['*', '/'] (trimEnd s)).trans (trimEnd_isPrefix s)
  have hnil : withoutSuffix ['*', '/'] (trimEnd s) = [] := by
    by_contra hne
    exact hs.trimEnd_ne_nil hprefix hne h
  rw [htrim]
  by_cases hend : ['*', '/'] <:+ trimEnd s
  · obtain ⟨r, hr⟩ := hend
    rw [← hr, withoutSuffix_append] at hnil
    rw [← hr, hnil, List.nil_append]
  · rw [withoutSuffix_eq_self hend] at hnil
    exact absurd hnil (hs.trimEnd_ne_nil (List.prefix_refl s) hs.nonempty)

theorem FollowsType.dropType_lines {ls : List (List Char)}
    (hls : trim s = ['*', '/'] → (trimStart (unlines ls)).head? ≠ some '\x7b') :
    dropType (unlines (cleanEnd s :: ls)) = trimStart (unlines (cleanEnd s :: ls)) := by
  apply dropType_of_head?
  by_cases hnil : cleanEnd s = []
  · have hlines := hls (hs.trim_of_cleanEnd_eq_nil hnil)
    rw [hnil]
    cases ls with
    | nil => simp [unlines, trimStart]
    | cons l ls => exact hlines
  · have hhead : (unlines (cleanEnd s :: ls)).head? = s.head? := by
      rw [← List.append_nil (cleanEnd s), ← append_unlines_cons,
        List.head?_append_of_ne_nil _ hnil, head?_cleanEnd hnil]
    rw [trimStart_eq_self_iff.2 (by rw [hhead]; exact hs.noBlank), hhead]
    exact hs.noType

theorem FollowsType.cleanLine_append {lead : List Char} (hlead : IsLead lead) :
    cleanLine (lead ++ ' ' :: s) = lead ++ spaced (cleanEnd s) := by
  have hend : trimEnd s ≠ [] := hs.trimEnd_ne_nil (List.prefix_refl s) hs.nonempty
  have htrim := hlead.trim_append s
  rw [spaced_of_ne_nil hend] at htrim
  have hopen (t : List Char) : trimStart (lead ++ ' ' :: t) = lead ++ ' ' :: t ∧
      dropMark (lead ++ ' ' :: t) = lead ++ ' ' :: t ∧
      withoutPrefix ['*'] (lead ++ ' ' :: t) = lead ++ ' ' :: t := by
    obtain ⟨r, rfl⟩ := List.head?_eq_some_iff.1 hlead.tagged
    exact ⟨trimStart_cons_of_not_blank _ (by decide), dropMark_eq_self (by simp) (by simp),
      withoutPrefix_eq_self (by simp)⟩
  obtain ⟨hstart, -, hstar⟩ := hopen (withoutSuffix ['*', '/'] (trimEnd s))
  rw [cleanLine, htrim, (hopen _).2.1, withoutSuffix_append_cons (by decide), hstart, hstar,
    hlead.trim_append, cleanEnd]

end Line

def typedTags : List String := ["param", "arg", "argument", "returns", "return"]

theorem isTagChar_of_mem_typedTags : ∀ tag ∈ typedTags,
    tag.toList ≠ [] ∧ ∀ c ∈ tag.toList, isTagChar c = true := by
  have htags : typedTags.all
      (fun tag => tag.toList ≠ [] ∧ tag.toList.all isTagChar = true) = true := by decide
  simpa using htags

theorem entry?_congr_dropType {tag : String} (htag : tag ∈ typedTags) {ls ls' : List (List Char)}
    (h : dropType (unlines ls) = dropType (unlines ls')) :
    Block.entry? ⟨tag.toList, ls⟩ = Block.entry? ⟨tag.toList, ls'⟩ := by
  have hkind : ∀ tag ∈ typedTags, isParamTag tag = true ∨ isReturnsTag tag = true := by decide
  simp only [Block.entry?, String.ofList_toList, h]
  rcases hkind tag htag with hparam | hreturns
  · simp only [hparam, ↓reduceIte]
  · simp only [hreturns, ↓reduceIte]

section Typed

variable {tag : String} (htag : tag ∈ typedTags) {B : List Char} (hB : IsBraced B)

include hB

include htag in
theorem isLead_typed (hbreak : '\n' ∉ B) : IsLead ('@' :: (tag.toList ++ ' ' :: B)) := by
  have htagged := isLead_tag (isTagChar_of_mem_typedTags tag htag).1
    (isTagChar_of_mem_typedTags tag htag).2
  refine isLead_of_getLast? (c := '\x7d') rfl ?_ ?_ (by decide) (by decide)
  · rw [← List.cons_append, List.mem_append, not_or]
    exact ⟨htagged.noBreak, by simp [hbreak]⟩
  · obtain ⟨r, rfl⟩ := List.head?_eq_some_iff.1 hB.opened
    rw [← List.cons_append, List.append_cons,
      List.getLast?_append_of_ne_nil _ (List.cons_ne_nil _ _), hB.getLast?]

include htag in
theorem splitTag?_typed (v : List Char) :
    splitTag? ('@' :: (tag.toList ++ ' ' :: B) ++ spaced v) = some (tag.toList, B ++ spaced v) := by
  obtain ⟨hne, hname⟩ := isTagChar_of_mem_typedTags tag htag
  have hspace : ∀ c ∈ (' ' :: (B ++ spaced v)).head?, isTagChar c = false := by
    simpa using isTagChar_eq_false_of_isBlank (c := ' ') (by decide)
  obtain ⟨r, rfl⟩ := List.head?_eq_some_iff.1 hB.opened
  rw [List.cons_append, List.append_assoc, List.cons_append, splitTag?_append hne hname hspace,
    trimStart_cons_of_blank _ (by decide), List.cons_append,
    trimStart_cons_of_not_blank _ (by decide)]

theorem dropType_typed (v : List Char) (ls : List (List Char)) :
    dropType (unlines ((B ++ spaced v) :: ls)) = trimStart (unlines (v :: ls)) := by
  rw [← append_unlines_cons, hB.dropType_append]
  cases v with
  | nil => rfl
  | cons c v =>
    have hspaced : spaced (c :: v) = [' '] ++ c :: v := rfl
    rw [hspaced, ← append_unlines_cons, List.singleton_append,
      trimStart_cons_of_blank _ (by decide)]

include htag in
/-- A line with a type and the line without it say the same. Where the rest of the line is only
the closing mark of the comment, the text of the block starts on the lines below, and a type may
come first there. -/
theorem ofLines_typed (hbreak : '\n' ∉ B) {s : List Char} (hs : FollowsType s)
    (ls : List (List Char))
    (hfree : trim s = ['*', '/'] → (trimStart (unlines (blocks ls).1)).head? ≠ some '\x7b') :
    ofLines (cleanLine ('@' :: (tag.toList ++ ' ' :: B) ++ ' ' :: s) :: ls) =
      ofLines (cleanLine ('@' :: tag.toList ++ ' ' :: s) :: ls) := by
  obtain ⟨hne, hname⟩ := isTagChar_of_mem_typedTags tag htag
  have htyped := splitTag?_typed htag hB (cleanEnd s)
  have halone := splitTag?_spaced hne hname hs.trim_cleanEnd
  have hentry := entry?_congr_dropType htag <|
    (dropType_typed hB (cleanEnd s) (blocks ls).1).trans (hs.dropType_lines hfree).symm
  rw [← List.cons_append] at halone
  rw [hs.cleanLine_append (isLead_typed htag hB hbreak), hs.cleanLine_append (isLead_tag hne hname),
    ofLines_eq, ofLines_eq, blocks_cons_of_tag htyped, blocks_cons_of_tag halone,
    List.filterMap_cons, List.filterMap_cons, hentry]

end Typed

theorem parse_of_line {a : String} (hne : a.toList ≠ []) (h : '\n' ∉ a.toList) :
    parse a = ofLines [cleanLine a.toList] := by
  rw [parse, lines_of_notMem hne h, List.map_singleton]

theorem parse_line_append {a : String} (h : '\n' ∉ a.toList) (rest : String) :
    parse (a ++ "\n" ++ rest) =
      ofLines (cleanLine a.toList :: (lines rest.toList).map cleanLine) := by
  have hraw : (a ++ "\n" ++ rest).toList = a.toList ++ '\n' :: rest.toList := by
    rw [String.toList_append, String.toList_append, List.append_assoc]
    rfl
  have hline : (lines (a.toList ++ ['\n'])).map cleanLine = [cleanLine a.toList] := by
    rcases lines_concat_newline h with hl | ⟨m, hm, hl⟩
    · rw [hl, List.map_singleton]
    · rw [hl, hm, List.map_singleton, cleanLine_concat_blank m (by decide)]
  rw [parse, hraw, lines_append_newline, List.map_append, hline, List.singleton_append]

def returnsBlocks (raw : String) : List Block :=
  (blocks ((lines raw.toList).map cleanLine)).2.filter (isReturnsTag <| String.ofList ·.name)

def Block.result? (b : Block) : Option String := nonempty (trim (dropType (unlines b.lines)))

theorem returns?_entry? (b : Block) :
    b.entry?.bind Entry.returns? =
      if isReturnsTag (String.ofList b.name) then some b.result? else none := by
  have hdisjoint {name : String} (h : isParamTag name = true) : isReturnsTag name = false := by
    simp only [isParamTag, Bool.or_eq_true, beq_iff_eq] at h
    rcases h with (rfl | rfl) | rfl <;> decide
  simp only [Block.entry?]
  by_cases hparam : isParamTag (String.ofList b.name) = true
  · simp only [hparam, hdisjoint hparam, ↓reduceIte, Bool.false_eq_true]
    split <;> rfl
  · by_cases hreturns : isReturnsTag (String.ofList b.name) = true
    · simp only [hparam, hreturns, ↓reduceIte, Bool.false_eq_true]
      rfl
    · simp only [hparam, hreturns, ↓reduceIte, Bool.false_eq_true]
      split
      · cases nonempty (trim (unlines b.lines)) <;> rfl
      · rfl

theorem returns_parse (raw : String) :
    (parse raw).returns = ((returnsBlocks raw).map Block.result?).getLastD none := by
  have hblocks (bs : List Block) :
      (bs.filterMap Block.entry?).filterMap Entry.returns? =
        (bs.filter (isReturnsTag <| String.ofList ·.name)).map Block.result? := by
    rw [List.filterMap_filterMap]
    induction bs with
    | nil => rfl
    | cons b bs ih =>
      rw [List.filterMap_cons, returns?_entry?, List.filter_cons, ih]
      cases isReturnsTag (String.ofList b.name) <;> rfl
  rw [parse, ofLines_eq, foldl_addEntry, hblocks, returnsBlocks]

theorem returns_of_isUnclosed {raw : String} {b : Block}
    (hlast : (returnsBlocks raw).getLast? = some b)
    (hopen : IsUnclosed (trimStart (unlines b.lines))) :
    (parse raw).returns = some (String.ofList (trim (unlines b.lines))) := by
  have hne : trim (unlines b.lines) ≠ [] := by
    intro hnil
    obtain ⟨r, hr⟩ := List.head?_eq_some_iff.1 hopen.opened
    rw [trim, hr] at hnil
    exact absurd (List.rdropWhile_eq_nil_iff.1 hnil '\x7b' List.mem_cons_self) (by decide)
  rw [returns_parse, List.getLastD_eq_getLast?, List.getLast?_map, hlast, Option.map_some,
    Option.getD_some, Block.result?, dropType_of_isUnclosed hopen, trim_trimStart, nonempty,
    if_neg (by simpa using hne)]

def freeText (raw : String) : List Char :=
  trimStart (unlines (blocks ((lines raw.toList).map cleanLine)).1)

/-- A type before the text of a parameter or of the result is not part of what a comment says,
whatever follows on further lines, unless the closing mark is all that stands behind it on its
line and the first text on those lines starts with a type as well. A type that is not closed is
part of the text. -/
theorem parse_typed :
    (∀ tag ∈ typedTags, ∀ B s : String, IsBraced B.toList → '\n' ∉ B.toList →
        FollowsType s.toList →
      parse ("@" ++ tag ++ " " ++ B ++ " " ++ s) = parse ("@" ++ tag ++ " " ++ s) ∧
        ∀ rest, (trim s.toList = ['*', '/'] → (freeText rest).head? ≠ some '\x7b') →
          parse ("@" ++ tag ++ " " ++ B ++ " " ++ s ++ "\n" ++ rest) =
            parse ("@" ++ tag ++ " " ++ s ++ "\n" ++ rest)) ∧
      ∀ raw b, (returnsBlocks raw).getLast? = some b → IsUnclosed (trimStart (unlines b.lines)) →
        (parse raw).returns = some (String.ofList (trim (unlines b.lines))) := by
  refine ⟨?_, fun raw b => returns_of_isUnclosed⟩
  intro tag htag B s hB hbreak hs
  have htyped : ("@" ++ tag ++ " " ++ B ++ " " ++ s).toList =
      '@' :: (tag.toList ++ ' ' :: B.toList) ++ ' ' :: s.toList := by
    simp [String.toList_append]
  have halone : ("@" ++ tag ++ " " ++ s).toList = '@' :: tag.toList ++ ' ' :: s.toList := by
    simp [String.toList_append]
  have hspace : '\n' ∉ ' ' :: s.toList := by simpa using hs.noBreak
  have hlead := isLead_typed htag hB hbreak
  have hbare := isLead_tag (isTagChar_of_mem_typedTags tag htag).1
    (isTagChar_of_mem_typedTags tag htag).2
  have hline : '\n' ∉ ("@" ++ tag ++ " " ++ B ++ " " ++ s).toList := by
    rw [htyped, List.mem_append, not_or]
    exact ⟨hlead.noBreak, hspace⟩
  have hline' : '\n' ∉ ("@" ++ tag ++ " " ++ s).toList := by
    rw [halone, List.mem_append, not_or]
    exact ⟨hbare.noBreak, hspace⟩
  constructor
  · rw [parse_of_line (by simp [htyped]) hline, parse_of_line (by simp [halone]) hline', htyped,
      halone]
    exact ofLines_typed htag hB hbreak hs [] fun _ => by simp [blocks, unlines, trimStart]
  · intro rest hrest
    rw [parse_line_append hline, parse_line_append hline', htyped, halone]
    exact ofLines_typed htag hB hbreak hs _ hrest

theorem parse_typed_of_forecast :
    ("returns" ∈ typedTags ∧ IsBraced "\x7bday: \x7bn\x7d\x7d".toList ∧
      '\n' ∉ "\x7bday: \x7bn\x7d\x7d".toList ∧ FollowsType "The sky".toList ∧
      parse ("@" ++ "returns" ++ " " ++ "\x7bday: \x7bn\x7d\x7d" ++ " " ++ "The sky") =
        parse ("@" ++ "returns" ++ " " ++ "The sky") ∧
      (trim "The sky".toList = ['*', '/'] →
        (freeText "\x7ba\x7d day\n@see days").head? ≠ some '\x7b') ∧
      parse ("@" ++ "returns" ++ " " ++ "\x7bday: \x7bn\x7d\x7d" ++ " " ++ "The sky" ++ "\n" ++
          "\x7ba\x7d day\n@see days") =
        parse ("@" ++ "returns" ++ " " ++ "The sky" ++ "\n" ++ "\x7ba\x7d day\n@see days")) ∧
    ∃ b, (returnsBlocks "@returns \x7bdays:\n  \x7bn\x7d, the sky").getLast? = some b ∧
      IsUnclosed (trimStart (unlines b.lines)) ∧
      (parse "@returns \x7bdays:\n  \x7bn\x7d, the sky").returns =
        some "\x7bdays:\n\x7bn\x7d, the sky" := by
  have htag : "returns" ∈ typedTags := by decide
  have hB : IsBraced "\x7bday: \x7bn\x7d\x7d".toList := by decide
  have hbreak : '\n' ∉ "\x7bday: \x7bn\x7d\x7d".toList := by decide
  have hs : FollowsType "The sky".toList := by decide
  have hrest : trim "The sky".toList = ['*', '/'] →
      (freeText "\x7ba\x7d day\n@see days").head? ≠ some '\x7b' := by decide
  obtain ⟨hline, hlines⟩ := parse_typed.1 "returns" htag _ _ hB hbreak hs
  refine ⟨⟨htag, hB, hbreak, hs, hline, hrest, hlines _ hrest⟩,
    ⟨"returns".toList, ["\x7bdays:".toList, "\x7bn\x7d, the sky".toList]⟩, ?_⟩
  have hlast : (returnsBlocks "@returns \x7bdays:\n  \x7bn\x7d, the sky").getLast? =
      some ⟨"returns".toList, ["\x7bdays:".toList, "\x7bn\x7d, the sky".toList]⟩ := rfl
  have hopen : IsUnclosed (trimStart
      (unlines ["\x7bdays:".toList, "\x7bn\x7d, the sky".toList])) := by decide
  exact ⟨hlast, hopen, parse_typed.2 _ _ hlast hopen⟩

/-- Behind the closing mark of a comment no text is left on the line, so a type on the next line
comes first in the block, unless another one did. -/
theorem parse_typed_ne_of_closed :
    IsBraced "\x7ba\x7d".toList ∧ '\n' ∉ "\x7ba\x7d".toList ∧ FollowsType "*/ ".toList ∧
      ¬['*', '/'] <:+ "*/ ".toList ∧
      (parse ("@returns " ++ "\x7ba\x7d" ++ " " ++ "*/ " ++ "\n" ++ "\x7bb\x7d x")).returns =
        some "\x7bb\x7d x" ∧
      (parse ("@returns " ++ "*/ " ++ "\n" ++ "\x7bb\x7d x")).returns = some "x" ∧
      parse ("@returns " ++ "\x7ba\x7d" ++ " " ++ "*/ " ++ "\n" ++ "\x7bb\x7d x") ≠
        parse ("@returns " ++ "*/ " ++ "\n" ++ "\x7bb\x7d x") := by
  have htyped : (parse ("@returns " ++ "\x7ba\x7d" ++ " " ++ "*/ " ++ "\n" ++
      "\x7bb\x7d x")).returns = some "\x7bb\x7d x" := by decide
  have halone : (parse ("@returns " ++ "*/ " ++ "\n" ++ "\x7bb\x7d x")).returns = some "x" := by
    decide
  refine ⟨by decide, by decide, by decide, by decide, htyped, halone, fun h => ?_⟩
  rw [h, halone] at htyped
  exact absurd htyped (by decide)

end ToolCatalog.DocComment
