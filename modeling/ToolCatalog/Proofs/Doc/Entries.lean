import ToolCatalog.Doc.Parser
import ToolCatalog.Proofs.Text.Lines

/-!
# Entries of a comment

What a block adds to a comment: a text for a parameter, for the result or under a
tag, or a phrase. A blank at the end of the block changes none of them, as every
text is trimmed and every name ends before.
-/

namespace ToolCatalog.DocComment

open Text

theorem afterBrace?_append {n : Nat} {t r : List Char} (h : afterBrace? n t = some r)
    (u : List Char) : afterBrace? n (t ++ u) = some (r ++ u) := by
  fun_induction afterBrace? n t with
  | case1 => cases h
  | case2 n t ih => simpa [afterBrace?] using ih h
  | case3 t => simp_all [afterBrace?]
  | case4 t n hne ih => simpa [afterBrace?] using ih h
  | case5 n c t hopen hclose ih => simpa [afterBrace?, hopen, hclose] using ih h

theorem afterBrace?_append_of_none {n : Nat} {t u : List Char} (h : afterBrace? n t = none)
    (hu : '\x7d' ∉ u) : afterBrace? n (t ++ u) = none := by
  fun_induction afterBrace? n t with
  | case1 n =>
    induction u generalizing n with
    | nil => rfl
    | cons c u ih =>
      simp only [List.mem_cons, not_or] at hu
      simp only [List.nil_append, afterBrace?, if_neg (Ne.symm hu.1)]
      split <;> exact ih hu.2 _
  | case2 n t ih => simpa [afterBrace?] using ih h
  | case3 t => cases h
  | case4 t n hne ih => simpa [afterBrace?] using ih h
  | case5 n c t hopen hclose ih => simpa [afterBrace?, hopen, hclose] using ih h

theorem dropType_of_trimStart {t r : List Char} {c : Char} (h : trimStart t = c :: r)
    (hc : c ≠ '\x7b') : dropType t = c :: r := by
  rw [dropType, h]
  split
  · next heq => exact absurd (List.cons.inj heq).1 hc
  · rfl

theorem dropType_of_open {t r : List Char} (h : trimStart t = '\x7b' :: r) :
    dropType t = ((afterBrace? 0 r).map trimStart).getD ('\x7b' :: r) := by
  rw [dropType, h]
  cases hr : afterBrace? 0 r <;> simp [hr]

theorem splitParam_closed {u : List Char} (hu : ']' ∉ u) (v : List Char) :
    splitParam ('[' :: (u ++ ']' :: v)) = (trim (u.takeWhile (· != '=')), dropDash v) := by
  have hstop : ∀ c ∈ (']' :: v).head?, (c != ']') = false := by simp
  have htake := takeWhile_append_of_stop (bne_of_notMem hu) hstop
  have hdrop := dropWhile_append_of_stop (bne_of_notMem hu) hstop
  simp [splitParam, htake, hdrop]

theorem splitParam_unclosed {r : List Char} (hr : ']' ∉ r) :
    splitParam ('[' :: r) = ([], '[' :: r) := by
  simp [splitParam, hr]

theorem bare_ne_cons {u v : List Char} (hopen : u.head? ≠ some '[')
    (hv : ∀ c ∈ v.head?, isBlank c = true) (r : List Char) : u ++ v ≠ '[' :: r := by
  intro hr
  cases u with
  | nil =>
    rw [List.nil_append] at hr
    exact absurd (hv '[' (by rw [hr]; rfl)) (by decide)
  | cons c u => exact hopen (by rw [(List.cons.inj hr).1]; rfl)

theorem splitParam_bare {u v : List Char} (hopen : u.head? ≠ some '[')
    (hu : ∀ c ∈ u, isBlank c = false) (hv : ∀ c ∈ v.head?, isBlank c = true) :
    splitParam (u ++ v) = (u, dropDash v) := by
  have hname : ∀ c ∈ u, (!isBlank c) = true := fun c hc => by rw [hu c hc]; rfl
  have hstop : ∀ c ∈ v.head?, (!isBlank c) = false := fun c hc => by rw [hv c hc]; rfl
  rw [splitParam.eq_2 _ (bare_ne_cons hopen hv), takeWhile_append_of_stop hname hstop,
    dropWhile_append_of_stop hname hstop]

theorem splitParam_cases (t : List Char) :
    (∃ u v, t = '[' :: (u ++ ']' :: v) ∧ ']' ∉ u) ∨ (∃ r, t = '[' :: r ∧ ']' ∉ r) ∨
      ∃ u v, t = u ++ v ∧ u.head? ≠ some '[' ∧ (∀ c ∈ u, isBlank c = false) ∧
        ∀ c ∈ v.head?, isBlank c = true := by
  by_cases ht : t.head? = some '['
  · obtain ⟨r, rfl⟩ := List.head?_eq_some_iff.1 ht
    by_cases hr : ']' ∈ r
    · obtain ⟨u, v, rfl, hu⟩ := List.eq_append_cons_of_mem hr
      exact .inl ⟨u, v, rfl, hu⟩
    · exact .inr (.inl ⟨r, rfl, hr⟩)
  · obtain ⟨u, v, rfl, hu, hv⟩ := exists_append_stop (!isBlank ·) t
    refine .inr (.inr ⟨u, v, rfl, fun hopen => ht ?_, by simpa using hu, by simpa using hv⟩)
    rw [List.head?_append, hopen]
    rfl

theorem withoutPrefix_singleton (p a : Char) (r : List Char) :
    withoutPrefix [p] (a :: r) = if p = a then r else a :: r := by
  by_cases h : p = a <;> simp [withoutPrefix, dropPrefix?, h]

section Blank

variable {c : Char} (hc : isBlank c = true)

include hc

theorem trimStart_concat_blank (t : List Char) :
    trimStart (t ++ [c]) = trimStart t ++ [c] ∨ trimStart t = [] ∧ trimStart (t ++ [c]) = [] := by
  by_cases h : trimStart t = []
  · exact .inr ⟨h, by rw [trimStart_append_of_nil _ h, trimStart_cons_of_blank _ hc]; rfl⟩
  · exact .inl (trimStart_append_of_ne_nil _ h)

theorem dropType_concat_blank (t : List Char) :
    dropType (t ++ [c]) = dropType t ++ [c] ∨ dropType t = [] ∧ dropType (t ++ [c]) = [] := by
  have hbrace : '\x7d' ∉ [c] := by
    rw [List.mem_singleton]
    rintro rfl
    exact absurd hc (by decide)
  cases ht : trimStart t with
  | nil =>
    have h : trimStart (t ++ [c]) = [] := by
      rw [trimStart_append_of_nil _ ht, trimStart_cons_of_blank _ hc]
      rfl
    exact .inr ⟨by rw [dropType, ht], by rw [dropType, h]⟩
  | cons a r =>
    have h : trimStart (t ++ [c]) = a :: (r ++ [c]) := by
      rw [trimStart_append_of_ne_nil _ (by simp [ht]), ht, List.cons_append]
    by_cases ha : a = '\x7b'
    · subst ha
      rw [dropType_of_open ht, dropType_of_open h]
      cases hr : afterBrace? 0 r with
      | none =>
        rw [afterBrace?_append_of_none hr hbrace]
        exact .inl rfl
      | some rest =>
        rw [afterBrace?_append hr]
        exact trimStart_concat_blank hc rest
    · rw [dropType_of_trimStart ht ha, dropType_of_trimStart h ha]
      exact .inl rfl

theorem trim_dropType_concat_blank (t : List Char) :
    trim (dropType (t ++ [c])) = trim (dropType t) := by
  rcases dropType_concat_blank hc t with h | ⟨h, h'⟩
  · rw [h, trim_append_blank _ hc]
  · rw [h, h']

/-- The dash is looked for behind the blanks, so a blank at the end matters only in the trim. -/
theorem trim_dropDash_concat_blank (t : List Char) :
    trim (dropDash (t ++ [c])) = trim (dropDash t) := by
  rw [dropDash, dropDash, trim_trimStart, trim_trimStart]
  cases ht : trimStart t with
  | nil =>
    rw [trimStart_append_of_nil _ ht, trimStart_cons_of_blank _ hc]
    rfl
  | cons a r =>
    rw [trimStart_append_of_ne_nil _ (by simp [ht]), ht, List.cons_append,
      withoutPrefix_singleton, withoutPrefix_singleton]
    split
    · exact trim_append_blank _ hc
    · rw [← List.cons_append, trim_append_blank _ hc]

theorem splitParam_concat_blank (t : List Char) :
    (splitParam (t ++ [c])).1 = (splitParam t).1 ∧
      trim (splitParam (t ++ [c])).2 = trim (splitParam t).2 := by
  rcases splitParam_cases t with ⟨u, v, rfl, hu⟩ | ⟨r, rfl, hr⟩ | ⟨u, v, rfl, hopen, hu, hv⟩
  · rw [splitParam_closed hu, List.cons_append, List.append_assoc, List.cons_append,
      splitParam_closed hu]
    exact ⟨rfl, trim_dropDash_concat_blank hc v⟩
  · have hr' : ']' ∉ r ++ [c] := by
      rw [List.mem_append, List.mem_singleton, not_or]
      refine ⟨hr, ?_⟩
      rintro rfl
      exact absurd hc (by decide)
    rw [List.cons_append, splitParam_unclosed hr, splitParam_unclosed hr', ← List.cons_append]
    exact ⟨rfl, trim_append_blank _ hc⟩
  · have hv' : ∀ a ∈ (v ++ [c]).head?, isBlank a = true := by
      cases v with
      | nil => simpa using hc
      | cons a v => exact hv
    rw [List.append_assoc, splitParam_bare hopen hu hv, splitParam_bare hopen hu hv']
    exact ⟨rfl, trim_dropDash_concat_blank hc v⟩

end Blank

inductive Entry
  | param (key text : String)
  | returns (text : Option String)
  | phrase (text : String)
  | tag (key text : String)
deriving DecidableEq

def addEntry (d : DocComment) : Entry → DocComment
  | .param key text => { d with params := d.params.insert key text }
  | .returns text => { d with returns := text }
  | .phrase text => { d with phrases := addPhrase d.phrases text }
  | .tag key text => { d with tags := d.tags.insert key text }

def Entry.param? : Entry → Option (String × String)
  | .param key text => some (key, text)
  | _ => none

def Entry.returns? : Entry → Option (Option String)
  | .returns text => some text
  | _ => none

def Entry.tag? : Entry → Option (String × String)
  | .tag key text => some (key, text)
  | _ => none

def Entry.phrase? : Entry → Option String
  | .phrase text => some text
  | _ => none

theorem foldl_addEntry (es : List Entry) (d : DocComment) :
    es.foldl addEntry d =
      { description := d.description
        params := d.params.insertAll (es.filterMap Entry.param?)
        returns := (es.filterMap Entry.returns?).getLastD d.returns
        tags := d.tags.insertAll (es.filterMap Entry.tag?)
        phrases := (es.filterMap Entry.phrase?).foldl addPhrase d.phrases } := by
  induction es generalizing d with
  | nil => rfl
  | cons x es ih =>
    rw [List.foldl_cons, ih]
    cases x with
    | returns text => simp only [List.filterMap_cons, Entry.returns?, List.getLastD_cons]; rfl
    | param | phrase | tag => rfl

/-- What a block says, if it is not about a parameter without name or a phrase without text. -/
def Block.entry? (b : Block) : Option Entry :=
  let name := String.ofList b.name
  let body := unlines b.lines
  if isParamTag name then
    let param := splitParam (dropType body)
    if param.1.isEmpty then none
    else some (.param (String.ofList param.1) (String.ofList (trim param.2)))
  else if isReturnsTag name then some (.returns (nonempty (trim (dropType body))))
  else if name == "idiom" then (nonempty (trim body)).map .phrase
  else some (.tag name (String.ofList (trim body)))

theorem addBlock_eq (d : DocComment) (b : Block) :
    d.addBlock b = (b.entry?.map d.addEntry).getD d := by
  simp only [addBlock, Block.entry?]
  split
  · split <;> rfl
  · split
    · rfl
    · split
      · cases nonempty (trim (unlines b.lines)) <;> rfl
      · rfl

theorem foldl_addBlock (bs : List Block) (d : DocComment) :
    bs.foldl addBlock d = (bs.filterMap Block.entry?).foldl addEntry d := by
  induction bs generalizing d with
  | nil => rfl
  | cons b bs ih =>
    rw [List.foldl_cons, addBlock_eq, ih, List.filterMap_cons]
    cases b.entry? <;> rfl

theorem unlines_concat_nil {ls : List (List Char)} (h : ls ≠ []) :
    unlines (ls ++ [[]]) = unlines ls ++ ['\n'] := by
  induction ls with
  | nil => exact absurd rfl h
  | cons l ls ih =>
    cases ls with
    | nil => rfl
    | cons m ls =>
      have ih := ih (List.cons_ne_nil m ls)
      simp only [List.cons_append, unlines] at ih ⊢
      rw [ih, List.append_assoc, List.cons_append]

theorem entry?_concat_nil (name : List Char) {ls : List (List Char)} (h : ls ≠ []) :
    Block.entry? ⟨name, ls ++ [[]]⟩ = Block.entry? ⟨name, ls⟩ := by
  have hbreak : isBlank '\n' = true := by decide
  have hbody := unlines_concat_nil h
  have htext := trim_append_blank (unlines ls) hbreak
  have htype := trim_dropType_concat_blank hbreak (unlines ls)
  have hparam : (splitParam (dropType (unlines ls ++ ['\n']))).1 =
        (splitParam (dropType (unlines ls))).1 ∧
      trim (splitParam (dropType (unlines ls ++ ['\n']))).2 =
        trim (splitParam (dropType (unlines ls))).2 := by
    rcases dropType_concat_blank hbreak (unlines ls) with h | ⟨h, h'⟩
    · rw [h]
      exact splitParam_concat_blank hbreak _
    · rw [h, h']
      exact ⟨rfl, rfl⟩
  simp only [Block.entry?, hbody, htext, htype, hparam.1, hparam.2]

end ToolCatalog.DocComment
