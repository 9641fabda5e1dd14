import ToolCatalog.Proofs.Doc.TagLines
import ToolCatalog.Proofs.Text.Offsets

/-!
# Reading by byte offsets

A comment can be read in one pass over its lines, with every text cut at a byte offset and the
open braces of a type counted down. A cut inside a character and a brace closed where none is
open would stop such a reading. Neither happens, whatever the text: a reading of this kind says
what the comment says.
-/

namespace ToolCatalog.DocComment

open Text
open String (utf8Len)

/-- What stops a reading: an offset where a text cannot be cut, or a brace too many. -/
inductive Fault
  | offset (i : Nat)
  | brace

def cutAt (i : Nat) (t : List Char) : Except Fault (List Char × List Char) :=
  match cut? i t with
  | some parts => .ok parts
  | none => .error (.offset i)

theorem cutAt_append (u v : List Char) : cutAt (utf8Len u) (u ++ v) = .ok (u, v) := by
  rw [cutAt, cut?_append]

def sliceTag (l : List Char) : Except Fault (Option (List Char × List Char)) :=
  match l with
  | '@' :: t =>
    let stop := (offset? (!isTagChar ·) t).getD (utf8Len t)
    if stop = 0 then return none
    else do
      let (name, rest) ← cutAt stop t
      return some (name, trimStart rest)
  | _ => return none

theorem sliceTag_eq (l : List Char) : sliceTag l = .ok (splitTag? l) := by
  by_cases hl : ∃ t, l = '@' :: t
  · obtain ⟨t, rfl⟩ := hl
    obtain ⟨name, rest, rfl, hname, hrest⟩ := exists_append_stop isTagChar t
    have hstop : (offset? (!isTagChar ·) (name ++ rest)).getD (utf8Len (name ++ rest)) =
        utf8Len name :=
      offset?_getD_append (by simpa using hname) (by simpa using hrest)
    by_cases hne : name = []
    · subst hne
      have htake : ([] ++ rest).takeWhile isTagChar = [] := takeWhile_append_of_stop hname hrest
      rw [sliceTag, hstop, splitTag?, htake]
      rfl
    · have hpos : utf8Len name ≠ 0 := fun h => hne (String.utf8Len_eq_zero.1 h)
      rw [sliceTag, hstop, if_neg hpos, cutAt_append, splitTag?_append hne hname hrest]
      rfl
  · have hmark : ∀ t, l = '@' :: t → False := fun t ht => hl ⟨t, ht⟩
    rw [sliceTag.eq_2 l hmark, splitTag?.eq_2 l hmark]
    rfl

def countDown : Nat → Except Fault Nat
  | 0 => throw .brace
  | depth + 1 => return depth

/-- Goes over the characters behind the ones read, which end at an offset and leave some braces
open, to the brace that closes the last of these. -/
def sliceBraces (text : List Char) : Nat → Nat → List Char → Except Fault (List Char)
  | _, _, [] => return text
  | i, depth, c :: t =>
    if c = '\x7b' then sliceBraces text (i + c.utf8Size) (depth + 1) t
    else if c = '\x7d' then do
      let left ← countDown depth
      if left = 0 then
        let (_, rest) ← cutAt (i + 1) text
        return trimStart rest
      else sliceBraces text (i + c.utf8Size) left t
    else sliceBraces text (i + c.utf8Size) depth t

def sliceType (t : List Char) : Except Fault (List Char) :=
  let text := trimStart t
  if text.head? = some '\x7b' then sliceBraces text 0 0 text else return text

/-- While the type is read one brace at least is open, and the offset is where the characters read
so far end. -/
theorem sliceBraces_eq (u t : List Char) (n : Nat) :
    sliceBraces (u ++ t) (utf8Len u) (n + 1) t =
      .ok (((afterBrace? n t).map trimStart).getD (u ++ t)) := by
  induction t generalizing u n with
  | nil => rfl
  | cons c t ih =>
    have hread : u ++ c :: t = (u ++ [c]) ++ t := by rw [List.append_assoc, List.singleton_append]
    have hoffset : utf8Len u + c.utf8Size = utf8Len (u ++ [c]) := by simp
    rw [hread]
    by_cases hopen : c = '\x7b'
    · simp only [sliceBraces, afterBrace?, if_pos hopen, hoffset]
      exact ih (u ++ [c]) (n + 1)
    · by_cases hclose : c = '\x7d'
      · simp only [sliceBraces, if_neg hopen, if_pos hclose, countDown]
        cases n with
        | zero =>
          have hone : utf8Len u + 1 = utf8Len (u ++ [c]) := by rw [← hoffset, hclose]; rfl
          simp only [afterBrace?, if_neg hopen, if_pos hclose, hone, cutAt_append]
          rfl
        | succ n =>
          simp only [afterBrace?, if_neg hopen, if_pos hclose, hoffset]
          exact ih (u ++ [c]) n
      · simp only [sliceBraces, afterBrace?, if_neg hopen, if_neg hclose, hoffset]
        exact ih (u ++ [c]) n

theorem sliceType_eq (t : List Char) : sliceType t = .ok (dropType t) := by
  by_cases hopen : (trimStart t).head? = some '\x7b'
  · obtain ⟨r, hr⟩ := List.head?_eq_some_iff.1 hopen
    -- the brace that opens the type is counted before one may close
    have hfirst : sliceBraces ('\x7b' :: r) 0 0 ('\x7b' :: r) =
        sliceBraces (['\x7b'] ++ r) (utf8Len ['\x7b']) 1 r := by
      rw [sliceBraces, if_pos rfl]
      rfl
    rw [sliceType, if_pos hopen, hr, hfirst, sliceBraces_eq, dropType_of_open hr]
    rfl
  · rw [sliceType, if_neg hopen]
    cases hr : trimStart t with
    | nil => rw [dropType, hr]; rfl
    | cons c r =>
      rw [dropType_of_trimStart hr fun hc => hopen (by rw [hr, hc]; rfl)]
      rfl

def sliceParam (t : List Char) : Except Fault (List Char × List Char) :=
  match t with
  | '[' :: inner =>
    match offset? (· == ']') inner with
    | some stop => do
      let (name, _) ← cutAt stop inner
      let (_, rest) ← cutAt (stop + 1) inner
      return (trim (name.takeWhile (· != '=')), dropDash rest)
    | none => return ([], t)
  | t => do
    let (name, rest) ← cutAt ((offset? isBlank t).getD (utf8Len t)) t
    return (name, dropDash rest)

theorem sliceParam_eq (t : List Char) : sliceParam t = .ok (splitParam t) := by
  rcases splitParam_cases t with ⟨u, v, rfl, hu⟩ | ⟨r, rfl, hr⟩ | ⟨u, v, rfl, hopen, hu, hv⟩
  · have hstop : offset? (· == ']') (u ++ ']' :: v) = some (utf8Len u) :=
      offset?_append_cons (by simpa [bne] using bne_of_notMem hu) rfl v
    have hbehind : cutAt (utf8Len u + 1) (u ++ ']' :: v) = .ok (u ++ [']'], v) := by
      have hcut := cutAt_append (u ++ [']']) v
      rw [String.utf8Len_append, List.append_assoc, List.singleton_append] at hcut
      exact hcut
    simp only [sliceParam, hstop, cutAt_append, hbehind, splitParam_closed hu]
    rfl
  · have hstop : offset? (· == ']') r = none :=
      offset?_of_none (by simpa [bne] using bne_of_notMem hr)
    simp only [sliceParam, hstop, splitParam_unclosed hr]
    rfl
  · rw [sliceParam.eq_2 _ (bare_ne_cons hopen hv), offset?_getD_append hu hv, cutAt_append,
      splitParam_bare hopen hu hv]
    rfl

def sliceBlock (d : DocComment) (b : Block) : Except Fault DocComment := do
  let name := String.ofList b.name
  if isParamTag name then
    let (param, text) ← sliceParam (← sliceType (unlines b.lines))
    if param.isEmpty then return d
    return { d with params := d.params.insert (String.ofList param) (String.ofList (trim text)) }
  if isReturnsTag name then
    return { d with returns := nonempty (trim (← sliceType (unlines b.lines))) }
  return d.addBlock b

theorem sliceBlock_eq (d : DocComment) (b : Block) : sliceBlock d b = .ok (d.addBlock b) := by
  simp only [sliceBlock, sliceType_eq, addBlock]
  split
  · simp only [bind, Except.bind, sliceParam_eq]
    split <;> rfl
  · split <;> rfl

structure Reading where
  said : DocComment := {}
  free : List (List Char) := []
  opened : Option Block := none

namespace Reading

def close (s : Reading) : Except Fault DocComment :=
  match s.opened with
  | none => return s.said
  | some b => sliceBlock s.said b

def readLine (s : Reading) (l : List Char) : Except Fault Reading := do
  match ← sliceTag l with
  | some (name, body) => return { s with said := ← s.close, opened := some ⟨name, [body]⟩ }
  | none =>
    match s.opened with
    | some b => return { s with opened := some { b with lines := b.lines ++ [l] } }
    | none => return { s with free := s.free ++ [l] }

def outcome (s : Reading) (ls : List (List Char)) : List (List Char) × DocComment :=
  match s.opened with
  | none => (s.free ++ (blocks ls).1, (blocks ls).2.foldl addBlock s.said)
  | some b =>
    (s.free, (⟨b.name, b.lines ++ (blocks ls).1⟩ :: (blocks ls).2).foldl addBlock s.said)

theorem close_eq (s : Reading) : s.close = .ok (s.outcome []).2 := by
  obtain ⟨said, free, _ | b⟩ := s
  · rfl
  · simp only [close, outcome, blocks, List.append_nil]
    exact sliceBlock_eq said b

theorem outcome_nil_fst (s : Reading) : (s.outcome []).1 = s.free := by
  obtain ⟨said, free, _ | b⟩ := s
  · exact List.append_nil free
  · rfl

theorem readLine_eq (s : Reading) (l : List Char) :
    ∃ s', s.readLine l = .ok s' ∧ ∀ ls, s'.outcome ls = s.outcome (l :: ls) := by
  rw [readLine, sliceTag_eq]
  cases htag : splitTag? l with
  | none =>
    obtain ⟨said, free, _ | b⟩ := s
    · refine ⟨⟨said, free ++ [l], none⟩, rfl, fun ls => ?_⟩
      simp only [outcome, blocks_cons_of_none htag, List.append_assoc, List.singleton_append]
    · refine ⟨⟨said, free, some ⟨b.name, b.lines ++ [l]⟩⟩, rfl, fun ls => ?_⟩
      simp only [outcome, blocks_cons_of_none htag, List.append_assoc, List.singleton_append]
  | some tag =>
    obtain ⟨name, body⟩ := tag
    refine ⟨⟨(s.outcome []).2, s.free, some ⟨name, [body]⟩⟩, ?_, fun ls => ?_⟩
    · rw [close_eq]
      rfl
    · have hnone : blocks [] = ([], []) := rfl
      obtain ⟨said, free, _ | b⟩ := s
      · simp only [outcome, blocks_cons_of_tag htag, hnone, List.append_nil, List.foldl_nil,
          List.singleton_append]
      · simp only [outcome, blocks_cons_of_tag htag, hnone, List.append_nil, List.foldl_nil,
          List.foldl_cons, List.singleton_append]

theorem foldlM_readLine (s : Reading) (ls : List (List Char)) :
    ∃ s', ls.foldlM readLine s = .ok s' ∧ s'.outcome [] = s.outcome ls := by
  induction ls generalizing s with
  | nil => exact ⟨s, rfl, rfl⟩
  | cons l ls ih =>
    obtain ⟨s₁, hline, houtcome⟩ := s.readLine_eq l
    obtain ⟨s₂, hlines, hrest⟩ := ih s₁
    refine ⟨s₂, ?_, hrest.trans (houtcome ls)⟩
    rw [List.foldlM_cons, hline]
    exact hlines

end Reading

def sliceComment (raw : String) : Except Fault DocComment := do
  let s ← ((lines raw.toList).map cleanLine).foldlM Reading.readLine {}
  return { ← s.close with description := nonempty (trim (unlines s.free)) }

/-- Reading by byte offsets never stops before the end, and gives the comment. -/
theorem sliceComment_eq (raw : String) : sliceComment raw = .ok (parse raw) := by
  obtain ⟨s, hread, houtcome⟩ :=
    Reading.foldlM_readLine {} ((lines raw.toList).map cleanLine)
  have hfree := s.outcome_nil_fst
  have hclose := s.close_eq
  rw [houtcome] at hfree hclose
  have hresult : sliceComment raw = .ok { (Reading.outcome {} ((lines raw.toList).map cleanLine)).2
      with description := nonempty (trim (unlines s.free)) } := by
    rw [sliceComment, hread]
    simp only [bind, Except.bind, hclose]
    rfl
  rw [hresult, ← hfree, parse, ofLines_eq]
  simp only [Reading.outcome, foldl_addBlock, foldl_addEntry, List.nil_append]

end ToolCatalog.DocComment
