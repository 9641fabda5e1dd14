import ToolCatalog.Proofs.Doc.TagLines

/-!
# Parameters in brackets

The bracket around a parameter closes at the first closing bracket behind it, also where
that one closes a bracket of the default. So the text of a parameter comes out as it is
written exactly where its default has no brackets.
-/

namespace ToolCatalog.DocComment

open Text

/-- Whether a text closes the `n` square brackets that are open before it and those it opens. -/
def bracketsBalanced : Nat → List Char → Bool
  | n, [] => n == 0
  | n, c :: t =>
    if c = '[' then bracketsBalanced (n + 1) t
    else if c = ']' then
      match n with
      | 0 => false
      | n + 1 => bracketsBalanced n t
    else bracketsBalanced n t

theorem notMem_of_bracketsBalanced {n : Nat} {t : List Char} (h : bracketsBalanced n t = true)
    (hclose : ']' ∉ t) : n = 0 ∧ '[' ∉ t := by
  induction t generalizing n with
  | nil => exact ⟨by simpa [bracketsBalanced] using h, by simp⟩
  | cons c t ih =>
    simp only [List.mem_cons, not_or] at hclose ⊢
    by_cases hopen : c = '['
    · simp only [bracketsBalanced, hopen, ↓reduceIte] at h
      exact absurd (ih h hclose.2).1 (Nat.succ_ne_zero n)
    · simp only [bracketsBalanced, hopen, Ne.symm hclose.1, ↓reduceIte] at h
      exact ⟨(ih h hclose.2).1, Ne.symm hopen, (ih h hclose.2).2⟩

structure IsBracketName (n : List Char) : Prop where
  nonempty : n ≠ []
  noBlank : ∀ c ∈ n, isBlank c = false
  noMark : ∀ c ∈ n, c ∉ ['[', ']', '=']

instance : DecidablePred IsBracketName := fun n =>
  decidable_of_iff (n ≠ [] ∧ n.all (!isBlank ·) = true ∧ n.all (· ∉ ['[', ']', '=']) = true)
    ⟨fun ⟨h₁, h₂, h₃⟩ => ⟨h₁, by simpa using h₂, by simpa using h₃⟩,
      fun ⟨h₁, h₂, h₃⟩ => ⟨h₁, by simpa using h₂, by simpa using h₃⟩⟩

theorem IsBracketName.notMem {n : List Char} (h : IsBracketName n) : ']' ∉ n := fun hmem =>
  h.noMark _ hmem (by decide)

theorem IsBracketName.noBreak {n : List Char} (h : IsBracketName n) : '\n' ∉ n := fun hmem =>
  absurd (h.noBlank _ hmem) (by decide)

theorem IsBracketName.trim_eq {n : List Char} (h : IsBracketName n) : trim n = n :=
  trim_eq_self_iff.2 ⟨fun _ hc => h.noBlank _ (List.mem_of_mem_head? hc),
    fun _ hc => h.noBlank _ (List.mem_of_mem_getLast? hc)⟩

theorem IsBracketName.takeWhile_append {n r : List Char} (h : IsBracketName n)
    (hr : ∀ c ∈ r.head?, c = '=') : (n ++ r).takeWhile (· != '=') = n := by
  have hmark : '=' ∉ n := fun hmem => h.noMark _ hmem (by decide)
  exact takeWhile_append_of_stop (bne_of_notMem hmark) (by simpa using hr)

theorem trimStart_append_cons {c : Char} (hc : isBlank c = false) (t s : List Char) :
    trimStart (t ++ c :: s) = trimStart t ++ c :: s := by
  by_cases ht : trimStart t = []
  · rw [trimStart_append_of_nil _ ht, trimStart_cons_of_not_blank _ hc, ht, List.nil_append]
  · exact trimStart_append_of_ne_nil _ ht

theorem dropDash_append_cons {c : Char} (hc : isBlank c = false) (hdash : c ≠ '-')
    (t s : List Char) : dropDash (t ++ c :: s) = dropDash t ++ c :: s := by
  have hprefix (r : List Char) :
      withoutPrefix ['-'] (r ++ c :: s) = withoutPrefix ['-'] r ++ c :: s := by
    cases r with
    | nil => rw [List.nil_append, withoutPrefix_singleton, if_neg (Ne.symm hdash)]; rfl
    | cons a r =>
      rw [List.cons_append, withoutPrefix_singleton, withoutPrefix_singleton]
      split <;> rfl
  rw [dropDash, dropDash, trimStart_append_cons hc, hprefix, trimStart_append_cons hc]

def ofParam (key text : String) : DocComment := { params := (∅ : Keyed String).insert key text }

def bracketLine (inner t : List Char) : List Char :=
  '@' :: ("param".toList ++ ' ' :: '[' :: (inner ++ [']', ' ', '-', ' '] ++ t))

theorem toList_bracketLine (inner t : String) :
    ("@param [" ++ inner ++ "] - " ++ t).toList = bracketLine inner.toList t.toList := by
  have hopen : "@param [".toList = '@' :: ("param".toList ++ [' ', '[']) := by decide
  have hclose : "] - ".toList = [']', ' ', '-', ' '] := by decide
  rw [String.toList_append, String.toList_append, String.toList_append, hopen, hclose, bracketLine]
  simp only [List.cons_append, List.append_assoc, List.nil_append]

theorem isContent_bracketLine {inner t : List Char} (hinner : '\n' ∉ inner) (ht : IsValue t)
    (hne : t ≠ []) : IsContent (bracketLine inner t) := by
  have hlead : IsLead (('@' :: ("param".toList ++ ' ' :: '[' :: inner)) ++ [']', ' ', '-']) := by
    refine isLead_of_getLast? (c := '-') rfl (by simp [hinner]) ?_ (by decide) (by decide)
    rw [List.getLast?_append_of_ne_nil _ (List.cons_ne_nil ']' [' ', '-'])]
    rfl
  have hcontent := hlead.isContent_append ht
  rw [spaced_of_ne_nil hne] at hcontent
  simpa [bracketLine] using hcontent

theorem parse_of_bracketLine {raw : String} {inner t u w : List Char}
    (hraw : raw.toList = bracketLine inner t) (hcontent : IsContent (bracketLine inner t))
    (hu : ']' ∉ u) (hsplit : inner ++ [']', ' ', '-', ' '] ++ t = u ++ ']' :: w)
    (hname : trim (u.takeWhile (· != '=')) ≠ []) :
    parse raw = ofParam (String.ofList (trim (u.takeWhile (· != '='))))
      (String.ofList (trim (dropDash w))) := by
  have hlines : lines raw.toList = [bracketLine inner t] := by
    rw [hraw]
    exact lines_of_notMem (List.cons_ne_nil _ _) hcontent.noBreak
  have htag : splitTag? (bracketLine inner t) = some ("param".toList, '[' :: (u ++ ']' :: w)) := by
    have hstart : trimStart (' ' :: '[' :: (u ++ ']' :: w)) = '[' :: (u ++ ']' :: w) := by
      rw [trimStart_cons_of_blank _ (by decide), trimStart_cons_of_not_blank _ (by decide)]
    have hblank : ∀ c ∈ (' ' :: '[' :: (u ++ ']' :: w)).head?, isTagChar c = false := by
      simpa using isTagChar_eq_false_of_isBlank (c := ' ') (by decide)
    have hname := List.all_eq_true.1 (by decide : "param".toList.all isTagChar = true)
    rw [bracketLine, hsplit, splitTag?_append (by decide) hname hblank, hstart]
  have hentry : Block.entry? ⟨"param".toList, ['[' :: (u ++ ']' :: w)]⟩ =
      some (.param (String.ofList (trim (u.takeWhile (· != '='))))
        (String.ofList (trim (dropDash w)))) := by
    have hparam : isParamTag (String.ofList "param".toList) = true := by decide
    have htype : dropType ('[' :: (u ++ ']' :: w)) = '[' :: (u ++ ']' :: w) :=
      dropType_of_trimStart (trimStart_cons_of_not_blank _ (by decide)) (by decide)
    simp only [Block.entry?, hparam, ↓reduceIte, unlines, htype, splitParam_closed hu,
      List.isEmpty_iff, hname]
  rw [parse, hlines, List.map_singleton, cleanLine_of_isContent hcontent, ofLines_eq,
    blocks_cons_of_tag htag, blocks, List.filterMap_cons_some hentry]
  rfl

/-- What the text of a parameter with a default comes out as. A bracket that closes in the default
closes the parameter, and what follows it comes before the text. -/
def textBehindDefault (d t : String) : String :=
  if ']' ∈ d.toList then
    String.ofList (dropDash ((d.toList.dropWhile (· != ']')).drop 1)) ++ "] - " ++ t
  else t

theorem textBehindDefault_eq_iff (d t : String) : textBehindDefault d t = t ↔ ']' ∉ d.toList := by
  by_cases hd : ']' ∈ d.toList
  · have hlonger : textBehindDefault d t ≠ t := by
      intro h
      have hlength := congrArg String.length h
      rw [textBehindDefault, if_pos hd, String.length_append, String.length_append] at hlength
      have hmark : "] - ".length = 4 := by decide
      omega
    simp [hlonger, hd]
  · simp [textBehindDefault, hd]

section Line

variable {n t : String} (hn : IsBracketName n.toList) (ht : IsValue t.toList) (hne : t ≠ "")

include hn ht hne

theorem parse_bracketed_of_notMem {r : String} (hbreak : '\n' ∉ n.toList ++ r.toList)
    (hr : ∀ c ∈ r.toList.head?, c = '=') (hclose : ']' ∉ r.toList) :
    parse ("@param [" ++ (n ++ r) ++ "] - " ++ t) = ofParam n t := by
  rw [← String.toList_append] at hbreak
  have hname : trim ((n ++ r).toList.takeWhile (· != '=')) = n.toList := by
    rw [String.toList_append, hn.takeWhile_append hr, hn.trim_eq]
  have htext : trim (dropDash (' ' :: '-' :: ' ' :: t.toList)) = t.toList := by
    rw [dropDash_dash, trim_trimStart, trim_cons_blank _ (by decide), ht.trimmed]
  have hparse := parse_of_bracketLine (u := (n ++ r).toList) (w := ' ' :: '-' :: ' ' :: t.toList)
    (toList_bracketLine (n ++ r) t) (isContent_bracketLine hbreak ht (by simpa using hne))
    (by simpa [hn.notMem] using hclose) (by simp) (by rw [hname]; exact hn.nonempty)
  rwa [hname, htext, String.ofList_toList, String.ofList_toList] at hparse

theorem parse_bracketed_of_mem {d : String} (hbreak : '\n' ∉ n.toList ++ '=' :: d.toList)
    (hclose : ']' ∈ d.toList) :
    parse ("@param [" ++ (n ++ "=" ++ d) ++ "] - " ++ t) =
      ofParam n (textBehindDefault d t) := by
  -- `u` stands before the first closing bracket of the default, `v` behind it
  obtain ⟨u, v, hd, hu⟩ := List.eq_append_cons_of_mem hclose
  have hdrop : (d.toList.dropWhile (· != ']')).drop 1 = v := by
    rw [hd, dropWhile_append_of_stop (bne_of_notMem hu) (by simp), List.drop_succ_cons,
      List.drop_zero]
  have htext : trim (dropDash (v ++ ']' :: ' ' :: '-' :: ' ' :: t.toList)) =
      (textBehindDefault d t).toList := by
    have hmark : "] - ".toList = [']', ' ', '-', ' '] := by decide
    have hhead : ∀ c ∈ (dropDash v ++ "] - ".toList).head?, isBlank c = false := by
      rw [hmark, ← dropDash_append_cons (by decide) (by decide), dropDash]
      exact trimStart_eq_self_iff.1 (List.dropWhile_idempotent _ _)
    rw [textBehindDefault, if_pos hclose, hdrop, String.toList_append, String.toList_append,
      String.toList_ofList, dropDash_append_cons (by decide) (by decide),
      ← trim_append hhead (by simp) ht.trimmed (by simpa using hne), hmark, List.append_assoc]
    rfl
  have hinner : (n ++ "=" ++ d).toList = n.toList ++ '=' :: d.toList := by
    rw [String.toList_append, String.toList_append, List.append_assoc]
    rfl
  have hname : trim ((n.toList ++ '=' :: u).takeWhile (· != '=')) = n.toList := by
    rw [hn.takeWhile_append (by simp), hn.trim_eq]
  have hparse := parse_of_bracketLine (u := n.toList ++ '=' :: u)
    (w := v ++ ']' :: ' ' :: '-' :: ' ' :: t.toList) (toList_bracketLine (n ++ "=" ++ d) t)
    (isContent_bracketLine (by rwa [hinner]) ht (by simpa using hne))
    (by simpa [hn.notMem] using hu) (by simp [hinner, hd]) (by rw [hname]; exact hn.nonempty)
  rwa [hname, htext, String.ofList_toList, String.ofList_toList] at hparse

theorem parse_bracketed_default {d : String} (hd : '\n' ∉ d.toList) :
    parse ("@param [" ++ n ++ "=" ++ d ++ "] - " ++ t) = ofParam n (textBehindDefault d t) := by
  have hbreak : '\n' ∉ n.toList ++ '=' :: d.toList := by simpa [hn.noBreak] using hd
  by_cases hclose : ']' ∈ d.toList
  · simpa only [String.append_assoc] using parse_bracketed_of_mem hn ht hne hbreak hclose
  · have hr : ("=" ++ d).toList = '=' :: d.toList := by
      rw [String.toList_append]
      rfl
    have hparse := parse_bracketed_of_notMem (r := "=" ++ d) hn ht hne (by rwa [hr])
      (by simp [hr]) (by simpa [hr] using hclose)
    rw [(textBehindDefault_eq_iff d t).2 hclose]
    simpa only [String.append_assoc] using hparse

end Line

/-- A parameter in brackets has its name and its text if no default is given. With one whose
brackets are balanced it has its name, and its text exactly if the default has no brackets. -/
theorem parse_bracketed {n d t : String} (hn : IsBracketName n.toList) (hd : '\n' ∉ d.toList)
    (hbalanced : bracketsBalanced 0 d.toList = true) (ht : IsValue t.toList) (hne : t ≠ "") :
    parse ("@param [" ++ n ++ "] - " ++ t) = ofParam n t ∧
      parse ("@param [" ++ n ++ "=" ++ d ++ "] - " ++ t) = ofParam n (textBehindDefault d t) ∧
      (textBehindDefault d t = t ↔ '[' ∉ d.toList ∧ ']' ∉ d.toList) := by
  refine ⟨?_, parse_bracketed_default hn ht hne hd, ?_⟩
  · simpa using parse_bracketed_of_notMem (r := "") hn ht hne (by simpa using hn.noBreak)
      (by simp) (by simp)
  · rw [textBehindDefault_eq_iff]
    exact ⟨fun hclose => ⟨(notMem_of_bracketsBalanced hbalanced hclose).2, hclose⟩, And.right⟩

theorem parse_bracketed_of_rows :
    IsBracketName "rows".toList ∧ '\n' ∉ "[[1], 2]".toList ∧
      bracketsBalanced 0 "[[1], 2]".toList = true ∧ IsValue "the rows".toList ∧ "the rows" ≠ "" ∧
      parse ("@param [" ++ "rows" ++ "] - " ++ "the rows") = ofParam "rows" "the rows" ∧
      parse ("@param [" ++ "rows" ++ "=" ++ "[[1], 2]" ++ "] - " ++ "the rows") =
        ofParam "rows" (textBehindDefault "[[1], 2]" "the rows") ∧
      textBehindDefault "[[1], 2]" "the rows" = ", 2]] - the rows" := by
  have hname : IsBracketName "rows".toList := by decide
  have hdefault : '\n' ∉ "[[1], 2]".toList := by decide
  have hbalanced : bracketsBalanced 0 "[[1], 2]".toList = true := by decide
  have htext : IsValue "the rows".toList := by decide
  have hne : "the rows" ≠ "" := by decide
  obtain ⟨hbare, hwith, -⟩ := parse_bracketed hname hdefault hbalanced htext hne
  exact ⟨hname, hdefault, hbalanced, htext, hne, hbare, hwith, by decide⟩

/-- A list as the default: its bracket closes the parameter, and the other one comes out with the
text. -/
theorem parse_bracketed_ne_of_sizes :
    IsBracketName "sizes".toList ∧ '\n' ∉ "[1, 2]".toList ∧
      bracketsBalanced 0 "[1, 2]".toList = true ∧ IsValue "the sizes".toList ∧ "the sizes" ≠ "" ∧
      parse "@param [sizes=[1, 2]] - the sizes" = ofParam "sizes" "] - the sizes" ∧
      parse "@param [sizes=[1, 2]] - the sizes" ≠ ofParam "sizes" "the sizes" := by
  have hname : IsBracketName "sizes".toList := by decide
  have hdefault : '\n' ∉ "[1, 2]".toList := by decide
  have htext : IsValue "the sizes".toList := by decide
  have hraw : "@param [sizes=[1, 2]] - the sizes" =
      "@param [" ++ "sizes" ++ "=" ++ "[1, 2]" ++ "] - " ++ "the sizes" := by decide
  have hbehind : textBehindDefault "[1, 2]" "the sizes" = "] - the sizes" := by decide
  have hparse := parse_bracketed_default hname htext (by decide) hdefault
  rw [hbehind, ← hraw] at hparse
  refine ⟨hname, hdefault, by decide, htext, by decide, hparse, fun h => ?_⟩
  rw [hparse] at h
  have hfind := congrArg (fun c => c.params.find? "sizes") h
  simp only [ofParam, Keyed.find?_insert_self] at hfind
  exact absurd (Option.some.inj hfind) (by decide)

end ToolCatalog.DocComment
