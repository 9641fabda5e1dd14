import ToolCatalog.Json.Printer
import ToolCatalog.Json.Reader

/-!
# Written JSON is read back

A written value splits into its tokens, whatever follows it, and the reader turns
these tokens into the value again, inside any containers that leave room for its
depth. What nests deeper than the room left is cut off. Numbers are a matter of their
own: a value is legible if each number in it is read as it is written.
-/

namespace ToolCatalog.Json

namespace Token

def pieceOf (c : Char) : Piece :=
  if c.toNat < 0x20 && !"\x08\x0c\n\r\t".toList.contains c then .unit c.toNat else .char c

theorem unit?_hexPair : ∀ n < 0x20,
    unit? '0' '0' (Nat.digitChar (n / 16)) (Nat.digitChar (n % 16)) = some n := by
  decide

theorem pieces?_escaped {c e : Char} (he : escaped? e = some c) (hu : e ≠ 'u') (t : List Char) :
    pieces? ('\\' :: e :: t) = (pieces? t).map fun p => (.char c :: p.1, p.2) := by
  rcases h : pieces? t with _ | ⟨ps, r⟩ <;> simp [pieces?, he, hu, h]

theorem pieces?_escapeChar (c : Char) (t : List Char) :
    pieces? (escapeChar c ++ t) = (pieces? t).map fun p => (pieceOf c :: p.1, p.2) := by
  by_cases h₁ : c = '"'
  · subst h₁
    exact pieces?_escaped rfl (by decide) t
  by_cases h₂ : c = '\\'
  · subst h₂
    exact pieces?_escaped rfl (by decide) t
  by_cases h₃ : c = '\x08'
  · subst h₃
    exact pieces?_escaped rfl (by decide) t
  by_cases h₄ : c = '\x0c'
  · subst h₄
    exact pieces?_escaped rfl (by decide) t
  by_cases h₅ : c = '\n'
  · subst h₅
    exact pieces?_escaped rfl (by decide) t
  by_cases h₆ : c = '\r'
  · subst h₆
    exact pieces?_escaped rfl (by decide) t
  by_cases h₇ : c = '\t'
  · subst h₇
    exact pieces?_escaped rfl (by decide) t
  by_cases h₈ : c.toNat < 0x20
  · have hunit := unit?_hexPair c.toNat h₈
    rcases h : pieces? t with _ | ⟨ps, r⟩ <;>
      simp [escapeChar, pieceOf, hexPair, pieces?, *]
  · rcases h : pieces? t with _ | ⟨ps, r⟩ <;> simp [escapeChar, pieceOf, pieces?, *]

theorem pieces?_quote (cs t : List Char) :
    pieces? (cs.flatMap escapeChar ++ '"' :: t) = some (cs.map pieceOf, t) := by
  induction cs with
  | nil => rfl
  | cons c cs ih =>
    rw [List.flatMap_cons, List.append_assoc, pieces?_escapeChar, ih]
    rfl

theorem joinPieces?_unit {n : Nat} (h : n < 0xd800) (ps : List Piece) :
    joinPieces? (.unit n :: ps) = (joinPieces? ps).map (Char.ofNat n :: ·) := by
  have hhigh : isHighSurrogate n = false := by simp [isHighSurrogate]; omega
  have hlow : isLowSurrogate n = false := by simp [isLowSurrogate]; omega
  rcases ps with _ | ⟨_ | m, ps⟩ <;> simp [joinPieces?, hhigh, hlow]

theorem joinPieces?_map_pieceOf (cs : List Char) : joinPieces? (cs.map pieceOf) = some cs := by
  induction cs with
  | nil => rfl
  | cons c cs ih =>
    rw [List.map_cons, pieceOf]
    split
    · next h =>
      have hc : c.toNat < 0xd800 := by
        simp only [Bool.and_eq_true, decide_eq_true_eq] at h
        omega
      rw [joinPieces?_unit hc, ih, Option.map_some, Char.ofNat_toNat]
    · rw [joinPieces?, ih, Option.map_some]

theorem string?_quote (s : String) (t : List Char) :
    string? (s.toList.flatMap escapeChar ++ '"' :: t) = some (some s, t) := by
  simp only [string?, pieces?_quote, Option.map_some, joinPieces?_map_pieceOf,
    String.ofList_toList]

variable {r : NumeralReader}

theorem ofChars?_cons {c : Char} {t u : List Char} {k : Token} (hc : isSpace c = false)
    (h : next? r c t = some (k, u)) : ofChars? r (c :: t) = (ofChars? r u).map (k :: ·) := by
  rw [ofChars?]
  simp only [hc, Bool.false_eq_true, ↓reduceIte]
  split
  · next h' => simp [h] at h'
  · next h' =>
    obtain ⟨rfl, rfl⟩ := Prod.mk.inj (Option.some.inj (h.symm.trans h'))
    rfl

theorem ofChars?_space {c : Char} (hc : isSpace c = true) (t : List Char) :
    ofChars? r (c :: t) = ofChars? r t := by
  rw [ofChars?]
  simp [hc]

theorem ofChars?_punctuation {c : Char} {k : Token} (hc : isSpace c = false)
    (h : punctuation? c = some k) (t : List Char) :
    ofChars? r (c :: t) = (ofChars? r t).map (k :: ·) :=
  ofChars?_cons hc (by simp [next?, h])

theorem ofChars?_quote (s : String) (t : List Char) :
    ofChars? r (quote s ++ t) = (ofChars? r t).map (.text (some s) :: ·) := by
  rw [quote, List.append_assoc, List.cons_append, List.singleton_append]
  refine ofChars?_cons rfl ?_
  simp [next?, punctuation?, string?_quote]

theorem ofChars?_newline (level : Nat) (t : List Char) :
    ofChars? r (newline level ++ t) = ofChars? r t := by
  rw [newline, List.cons_append, ofChars?_space rfl]
  induction 2 * level with
  | zero => rfl
  | succ n ih => rw [List.replicate_succ, List.cons_append, ofChars?_space rfl, ih]

end Token

mutual

def tokens : Json → List Token
  | .str s => [.text (some s)]
  | .arr [] => [.openBracket, .closeBracket]
  | .arr (x :: xs) => .openBracket :: (x.tokens ++ itemsTokens xs)
  | .obj [] => [.openBrace, .closeBrace]
  | .obj ((k, x) :: ms) =>
    .openBrace :: .text (some k) :: .colon :: (x.tokens ++ membersTokens ms)
  | j => [.scalar j]

def itemsTokens : List Json → List Token
  | [] => [.closeBracket]
  | x :: xs => .comma :: (x.tokens ++ itemsTokens xs)

def membersTokens : List (String × Json) → List Token
  | [] => [.closeBrace]
  | (k, x) :: ms => .comma :: .text (some k) :: .colon :: (x.tokens ++ membersTokens ms)

end

variable (r : NumeralReader)

def Spells (t : List Char) (j : Json) : Prop :=
  (∀ c ∈ t, Token.isNumberChar c = true) ∧ Token.number? r t = some j

def rereadNumber (x : Binary64) : Binary64 :=
  match Token.number? r (floatText x) with
  | some (.float y) => y
  | _ => .nan

mutual

def reread : Json → Json
  | .float x => .float (rereadNumber r x)
  | .arr xs => .arr (rereadItems xs)
  | .obj ms => .obj (rereadMembers ms)
  | j => j

def rereadItems : List Json → List Json
  | [] => []
  | x :: xs => x.reread :: rereadItems xs

def rereadMembers : List (String × Json) → List (String × Json)
  | [] => []
  | (k, x) :: ms => (k, x.reread) :: rereadMembers ms

end

mutual

def Legible : Json → Prop
  | .int n => Spells r (intText n) (.int n)
  | .float x => Spells r (floatText x) (.float (rereadNumber r x))
  | .arr xs => LegibleItems xs
  | .obj ms => LegibleMembers ms
  | _ => True

def LegibleItems : List Json → Prop
  | [] => True
  | x :: xs => x.Legible ∧ LegibleItems xs

def LegibleMembers : List (String × Json) → Prop
  | [] => True
  | (_, x) :: ms => x.Legible ∧ LegibleMembers ms

end

variable {r}

def EndsNumber (t : List Char) : Prop := ∀ c ∈ t.head?, Token.isNumberChar c = false

theorem Spells.ofChars? {t : List Char} {j : Json} (h : Spells r t j) {u : List Char}
    (hu : EndsNumber u) :
    Token.ofChars? r (t ++ u) = (Token.ofChars? r u).map (.scalar j :: ·) := by
  obtain ⟨hchars, hnumber⟩ := h
  cases t with
  | nil => simp [Token.number?, Token.unsigned?] at hnumber
  | cons c t =>
    have hc : Token.isNumberChar c = true := hchars c List.mem_cons_self
    have ht : ∀ d ∈ t, Token.isNumberChar d = true := fun d hd => hchars d (.tail _ hd)
    have hne : ∀ d, Token.isNumberChar d = false → c ≠ d := fun d hd e => by
      rw [e, hd] at hc
      exact Bool.false_ne_true hc
    have hspace : Token.isSpace c = false := by
      simp [Token.isSpace, hne ' ' rfl, hne '\t' rfl, hne '\n' rfl, hne '\r' rfl]
    have hpunctuation : Token.punctuation? c = none := by
      simp [Token.punctuation?, hne '[' rfl, hne ']' rfl, hne '\x7b' rfl, hne '\x7d' rfl,
        hne ',' rfl, hne ':' rfl]
    have hends : u.takeWhile Token.isNumberChar = [] ∧ u.dropWhile Token.isNumberChar = u := by
      cases u with
      | nil => exact ⟨rfl, rfl⟩
      | cons d u => simp [hu d rfl]
    refine Token.ofChars?_cons hspace (?_ : Token.next? r c (t ++ u) = _)
    rw [Token.next?, hpunctuation, List.takeWhile_append_of_pos ht,
      List.dropWhile_append_of_pos ht, hends.1, hends.2, List.append_nil]
    simp [hne '"' rfl, hc, hnumber]

theorem endsNumber_cons {c : Char} (hc : Token.isNumberChar c = false) (t : List Char) :
    EndsNumber (c :: t) := fun _ hd => Option.mem_some.1 hd ▸ hc

theorem endsNumber_prettyItems (level : Nat) (xs : List Json) (t : List Char) :
    EndsNumber (prettyItems level xs ++ t) := by
  cases xs with
  | nil => exact endsNumber_cons rfl _
  | cons x xs => exact endsNumber_cons rfl _

theorem endsNumber_prettyMembers (level : Nat) (ms : List (String × Json)) (t : List Char) :
    EndsNumber (prettyMembers level ms ++ t) := by
  cases ms with
  | nil => exact endsNumber_cons rfl _
  | cons m ms => exact endsNumber_cons rfl _

theorem ofChars?_key (k : String) (t : List Char) :
    Token.ofChars? r (quote k ++ ':' :: ' ' :: t) =
      (Token.ofChars? r t).map fun ts => .text (some k) :: .colon :: ts := by
  rw [Token.ofChars?_quote, Token.ofChars?_punctuation rfl rfl, Token.ofChars?_space rfl,
    Option.map_map]
  rfl

mutual

theorem ofChars?_prettyChars (level : Nat) : (j : Json) → j.Legible r → {t : List Char} →
    EndsNumber t →
    Token.ofChars? r (j.prettyChars level ++ t) =
      (Token.ofChars? r t).map ((j.reread r).tokens ++ ·)
  | .null, _, t, _ => by
    exact Token.ofChars?_cons rfl rfl
  | .bool true, _, t, _ => by
    exact Token.ofChars?_cons rfl rfl
  | .bool false, _, t, _ => by
    exact Token.ofChars?_cons rfl rfl
  | .int n, h, t, ht => Spells.ofChars? h ht
  | .float x, h, t, ht => Spells.ofChars? h ht
  | .str s, _, t, _ => Token.ofChars?_quote s t
  | .arr [], _, t, _ => by
    rw [prettyChars, List.cons_append, List.cons_append, Token.ofChars?_punctuation rfl rfl,
      Token.ofChars?_punctuation rfl rfl, Option.map_map]
    rfl
  | .arr (x :: xs), h, t, ht => by
    have hx := ofChars?_prettyChars (level + 1) x h.1 (endsNumber_prettyItems level xs t)
    have hxs := ofChars?_prettyItems level xs h.2 ht
    simp only [prettyChars, List.append_assoc, List.cons_append]
    rw [Token.ofChars?_punctuation rfl rfl, Token.ofChars?_newline, hx, hxs, Option.map_map,
      Option.map_map]
    simp [reread, rereadItems, tokens, Function.comp_def]
  | .obj [], _, t, _ => by
    rw [prettyChars, List.cons_append, List.cons_append, Token.ofChars?_punctuation rfl rfl,
      Token.ofChars?_punctuation rfl rfl, Option.map_map]
    rfl
  | .obj ((k, x) :: ms), h, t, ht => by
    have hx := ofChars?_prettyChars (level + 1) x h.1 (endsNumber_prettyMembers level ms t)
    have hms := ofChars?_prettyMembers level ms h.2 ht
    simp only [prettyChars, List.append_assoc, List.cons_append]
    rw [Token.ofChars?_punctuation rfl rfl, Token.ofChars?_newline, ofChars?_key, hx, hms,
      Option.map_map, Option.map_map, Option.map_map]
    simp [reread, rereadMembers, tokens, Function.comp_def]

theorem ofChars?_prettyItems (level : Nat) : (xs : List Json) → LegibleItems r xs →
    {t : List Char} → EndsNumber t →
    Token.ofChars? r (prettyItems level xs ++ t) =
      (Token.ofChars? r t).map (itemsTokens (rereadItems r xs) ++ ·)
  | [], _, t, _ => by
    rw [prettyItems, List.append_assoc, Token.ofChars?_newline, List.singleton_append,
      Token.ofChars?_punctuation rfl rfl]
    rfl
  | x :: xs, h, t, ht => by
    have hx := ofChars?_prettyChars (level + 1) x h.1 (endsNumber_prettyItems level xs t)
    have hxs := ofChars?_prettyItems level xs h.2 ht
    simp only [prettyItems, List.append_assoc, List.cons_append]
    rw [Token.ofChars?_punctuation rfl rfl, Token.ofChars?_newline, hx, hxs, Option.map_map,
      Option.map_map]
    simp [rereadItems, itemsTokens, Function.comp_def]

theorem ofChars?_prettyMembers (level : Nat) : (ms : List (String × Json)) →
    LegibleMembers r ms → {t : List Char} → EndsNumber t →
    Token.ofChars? r (prettyMembers level ms ++ t) =
      (Token.ofChars? r t).map (membersTokens (rereadMembers r ms) ++ ·)
  | [], _, t, _ => by
    rw [prettyMembers, List.append_assoc, Token.ofChars?_newline, List.singleton_append,
      Token.ofChars?_punctuation rfl rfl]
    rfl
  | (k, x) :: ms, h, t, ht => by
    have hx := ofChars?_prettyChars (level + 1) x h.1 (endsNumber_prettyMembers level ms t)
    have hms := ofChars?_prettyMembers level ms h.2 ht
    simp only [prettyMembers, List.append_assoc, List.cons_append]
    rw [Token.ofChars?_punctuation rfl rfl, Token.ofChars?_newline, ofChars?_key, hx, hms,
      Option.map_map, Option.map_map, Option.map_map]
    simp [rereadMembers, membersTokens, Function.comp_def]

end

mutual

/-- What is read of a value where only so many more levels can be. -/
def cut : Json → Nat → Json
  | .arr xs, room => if room = 0 then unreadable else .arr (cutItems xs (room - 1))
  | .obj ms, room => if room = 0 then unreadable else .obj (cutMembers ms (room - 1))
  | j, _ => j

def cutItems : List Json → Nat → List Json
  | [], _ => []
  | x :: xs, room => x.cut room :: cutItems xs room

def cutMembers : List (String × Json) → Nat → List (String × Json)
  | [], _ => []
  | (k, x) :: ms, room => (k, x.cut room) :: cutMembers ms room

end

mutual

theorem cut_of_depth_le : (j : Json) → {room : Nat} → j.depth ≤ room → j.cut room = j
  | .null, _, _ | .bool _, _, _ | .int _, _, _ | .float _, _, _ | .str _, _, _ => rfl
  | .arr xs, room, h => by
    rw [depth] at h
    rw [cut, if_neg (by omega), cutItems_of_depth_le xs (by omega)]
  | .obj ms, room, h => by
    rw [depth] at h
    rw [cut, if_neg (by omega), cutMembers_of_depth_le ms (by omega)]

theorem cutItems_of_depth_le : (xs : List Json) → {room : Nat} → itemsDepth xs ≤ room →
    cutItems xs room = xs
  | [], _, _ => rfl
  | x :: xs, room, h => by
    rw [itemsDepth] at h
    rw [cutItems, cut_of_depth_le x (by omega), cutItems_of_depth_le xs (by omega)]

theorem cutMembers_of_depth_le : (ms : List (String × Json)) → {room : Nat} →
    membersDepth ms ≤ room → cutMembers ms room = ms
  | [], _, _ => rfl
  | (k, x) :: ms, room, h => by
    rw [membersDepth] at h
    rw [cutMembers, cut_of_depth_le x (by omega), cutMembers_of_depth_le ms (by omega)]

end

namespace Reader

theorem run_firstItem (holes : List Hole) (j : Json) (ts : List Token) :
    run ⟨holes, .firstItem⟩ (j.tokens ++ ts) = run ⟨holes, .value⟩ (j.tokens ++ ts) := by
  cases j with
  | arr xs => cases xs <;> rfl
  | obj ms => cases ms <;> rfl
  | _ => rfl

theorem close_eq (holes : List Hole) (j : Json) : close holes (some j) =
    ⟨holes, .after (if maxDepth - holes.length = 0 then unreadable else j)⟩ := by
  rw [close, Option.getD_some]
  split
  · next h => rw [if_neg (Nat.sub_ne_zero_of_lt h)]
  · next h => rw [if_pos (Nat.sub_eq_zero_of_le (Nat.le_of_not_lt h))]

mutual

/-- The tokens of a value bring back as much of it as the containers around leave room for. -/
theorem run_tokens : (j : Json) → (holes : List Hole) → (ts : List Token) →
    run ⟨holes, .value⟩ (j.tokens ++ ts) =
      run ⟨holes, .after (j.cut (maxDepth - holes.length))⟩ ts
  | .null, _, _ | .bool _, _, _ | .int _, _, _ | .float _, _, _ | .str _, _, _ => rfl
  | .arr [], holes, ts => by
    rw [cut, cutItems, ← close_eq]
    rfl
  | .arr (x :: xs), holes, ts => by
    have hx := run_tokens x (.item [] :: holes) (itemsTokens xs ++ ts)
    rw [List.length_cons, Nat.sub_add_eq] at hx
    rw [tokens, List.cons_append, List.append_assoc]
    have hstep : run ⟨holes, .value⟩ (.openBracket :: (x.tokens ++ (itemsTokens xs ++ ts))) =
        run ⟨.item [] :: holes, .firstItem⟩ (x.tokens ++ (itemsTokens xs ++ ts)) := rfl
    rw [hstep, run_firstItem, hx, run_itemsTokens, cut, cutItems, ← close_eq]
    rfl
  | .obj [], holes, ts => by
    rw [cut, cutMembers, ← close_eq]
    rfl
  | .obj ((k, x) :: ms), holes, ts => by
    have hx := run_tokens x (.member (some []) (some k) :: holes) (membersTokens ms ++ ts)
    rw [List.length_cons, Nat.sub_add_eq] at hx
    rw [tokens, List.cons_append, List.cons_append, List.cons_append, List.append_assoc]
    have hstep : run ⟨holes, .value⟩
        (.openBrace :: .text (some k) :: .colon :: (x.tokens ++ (membersTokens ms ++ ts))) =
        run ⟨.member (some []) (some k) :: holes, .value⟩
          (x.tokens ++ (membersTokens ms ++ ts)) := rfl
    rw [hstep, hx, run_membersTokens, cut, cutMembers, ← close_eq]
    rfl

theorem run_itemsTokens : (xs : List Json) → (before : List Json) → (x : Json) →
    (holes : List Hole) → (ts : List Token) →
    run ⟨.item before :: holes, .after x⟩ (itemsTokens xs ++ ts) =
      run (close holes (some (.arr ((x :: before).reverse ++
        cutItems xs (maxDepth - holes.length - 1))))) ts
  | [], before, x, holes, ts => by
    rw [cutItems, List.append_nil]
    rfl
  | y :: xs, before, x, holes, ts => by
    have hy := run_tokens y (.item (x :: before) :: holes) (itemsTokens xs ++ ts)
    rw [List.length_cons, Nat.sub_add_eq] at hy
    rw [itemsTokens, List.cons_append, List.append_assoc]
    have hstep : run ⟨.item before :: holes, .after x⟩
        (.comma :: (y.tokens ++ (itemsTokens xs ++ ts))) =
        run ⟨.item (x :: before) :: holes, .value⟩ (y.tokens ++ (itemsTokens xs ++ ts)) := rfl
    rw [hstep, hy, run_itemsTokens, cutItems, List.reverse_cons, List.append_assoc,
      List.singleton_append]

theorem run_membersTokens : (ms : List (String × Json)) → (before : List (String × Json)) →
    (k : String) → (x : Json) → (holes : List Hole) → (ts : List Token) →
    run ⟨.member (some before) (some k) :: holes, .after x⟩ (membersTokens ms ++ ts) =
      run (close holes (some (.obj (((k, x) :: before).reverse ++
        cutMembers ms (maxDepth - holes.length - 1))))) ts
  | [], before, k, x, holes, ts => by
    rw [cutMembers, List.append_nil]
    rfl
  | (l, y) :: ms, before, k, x, holes, ts => by
    have hy := run_tokens y (.member (some ((k, x) :: before)) (some l) :: holes)
      (membersTokens ms ++ ts)
    rw [List.length_cons, Nat.sub_add_eq] at hy
    rw [membersTokens, List.cons_append, List.cons_append, List.cons_append, List.append_assoc]
    have hstep : run ⟨.member (some before) (some k) :: holes, .after x⟩
        (.comma :: .text (some l) :: .colon :: (y.tokens ++ (membersTokens ms ++ ts))) =
        run ⟨.member (some ((k, x) :: before)) (some l) :: holes, .value⟩
          (y.tokens ++ (membersTokens ms ++ ts)) := rfl
    rw [hstep, hy, run_membersTokens, cutMembers, List.reverse_cons, List.append_assoc,
      List.singleton_append]

end

end Reader

theorem ofTokens?_tokens (j : Json) : ofTokens? j.tokens = some (j.cut Reader.maxDepth) := by
  have hrun := Reader.run_tokens j [] []
  rw [List.append_nil] at hrun
  rw [ofTokens?, Reader.start, hrun]
  rfl

theorem ofTextBy?_pretty_cut {j : Json} (hj : j.Legible r) :
    ofTextBy? r j.pretty = some ((j.reread r).cut Reader.maxDepth) := by
  have htokens := ofChars?_prettyChars 0 j hj (endsNumber_cons (c := '\n') rfl [])
  have hend : Token.ofChars? r ['\n'] = some [] := by
    rw [Token.ofChars?_space rfl, Token.ofChars?]
  rw [hend, Option.map_some, List.append_nil] at htokens
  rw [ofTextBy?, pretty, String.toList_ofList, ofChars?, htokens, Option.bind_some,
    ofTokens?_tokens]

end ToolCatalog.Json
