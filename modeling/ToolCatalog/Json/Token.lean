import ToolCatalog.Json.Basic
import ToolCatalog.Json.Numeral

/-!
# Tokens of JSON text

Punctuation, strings, and the values that are one token: null, the booleans
and the numbers. Blanks between tokens are skipped. A string with half of a
surrogate pair and a number out of range are tokens, but there is no text or
number in them. Numerals are left to a reader of their own.
-/

namespace ToolCatalog.Json

inductive Token where
  | openBracket
  | closeBracket
  | openBrace
  | closeBrace
  | comma
  | colon
  | text (s : Option String)
  | scalar (j : Json)

namespace Token

def isSpace (c : Char) : Bool := c == ' ' || c == '\t' || c == '\n' || c == '\r'

def isDigit (c : Char) : Bool := '0' ≤ c && c ≤ '9'

def hexValue? (c : Char) : Option Nat :=
  if isDigit c then some (digitValue c)
  else if 'a' ≤ c ∧ c ≤ 'f' then some (c.toNat - 'a'.toNat + 10)
  else if 'A' ≤ c ∧ c ≤ 'F' then some (c.toNat - 'A'.toNat + 10)
  else none

def unit? (a b c d : Char) : Option Nat := do
  return (((← hexValue? a) * 16 + (← hexValue? b)) * 16 + (← hexValue? c)) * 16 + (← hexValue? d)

def isHighSurrogate (n : Nat) : Bool := 0xd800 ≤ n && n < 0xdc00

def isLowSurrogate (n : Nat) : Bool := 0xdc00 ≤ n && n < 0xe000

def joinSurrogates (high low : Nat) : Char :=
  Char.ofNat ((high - 0xd800) * 0x400 + (low - 0xdc00) + 0x10000)

def escaped? : Char → Option Char
  | '"' => some '"'
  | '\\' => some '\\'
  | '/' => some '/'
  | 'b' => some '\x08'
  | 'f' => some '\x0c'
  | 'n' => some '\n'
  | 'r' => some '\r'
  | 't' => some '\t'
  | _ => none

/-- A character of a string, or a code unit spelled out by four digits. -/
inductive Piece where
  | char (c : Char)
  | unit (n : Nat)

def pieces? : List Char → Option (List Piece × List Char)
  | [] => none
  | '"' :: t => some ([], t)
  | '\\' :: 'u' :: a :: b :: c :: d :: t =>
    match unit? a b c d, pieces? t with
    | some n, some (ps, r) => some (.unit n :: ps, r)
    | _, _ => none
  | '\\' :: c :: t =>
    match escaped? c, pieces? t with
    | some e, some (ps, r) => some (.char e :: ps, r)
    | _, _ => none
  | c :: t =>
    if c.toNat < 0x20 then none
    else
      match pieces? t with
      | some (ps, r) => some (.char c :: ps, r)
      | none => none

theorem length_pieces? {t r : List Char} {ps : List Piece} (h : pieces? t = some (ps, r)) :
    r.length < t.length := by
  fun_induction pieces? t generalizing ps r with
  | case2 t => cases h; simp
  | case3 a b c d t n ps' r' hp hn ih =>
    cases h
    have := ih hp
    simp only [List.length_cons]
    omega
  | case5 c t _ e ps' r' hp he ih =>
    cases h
    have := ih hp
    simp only [List.length_cons]
    omega
  | case8 c t _ _ _ _ ps' r' hp ih =>
    cases h
    have := ih hp
    simp only [List.length_cons]
    omega
  | case1 | case4 | case6 | case7 | case9 => simp at h

/-- Characters of the pieces. A surrogate counts only as the half of a pair. -/
def joinPieces? : List Piece → Option (List Char)
  | [] => some []
  | .char c :: ps => (joinPieces? ps).map (c :: ·)
  | .unit n :: .unit m :: ps =>
    if isHighSurrogate n then
      if isLowSurrogate m then (joinPieces? ps).map (joinSurrogates n m :: ·) else none
    else if isLowSurrogate n then none
    else (joinPieces? (.unit m :: ps)).map (Char.ofNat n :: ·)
  | .unit n :: ps =>
    if isHighSurrogate n || isLowSurrogate n then none
    else (joinPieces? ps).map (Char.ofNat n :: ·)

def string? (t : List Char) : Option (Option String × List Char) :=
  (pieces? t).map fun (ps, r) => ((joinPieces? ps).map String.ofList, r)

theorem length_string? {t r : List Char} {s : Option String} (h : string? t = some (s, r)) :
    r.length < t.length := by
  obtain ⟨⟨ps, u⟩, hp, hs⟩ := Option.map_eq_some_iff.1 h
  cases hs
  exact length_pieces? hp

def isNumberChar (c : Char) : Bool :=
  isDigit c || c == '-' || c == '+' || c == '.' || c == 'e' || c == 'E'

def fraction? : List Char → Option (List Char × List Char)
  | '.' :: t =>
    let ds := t.takeWhile isDigit
    if ds.isEmpty then none else some (ds, t.dropWhile isDigit)
  | t => some ([], t)

def power? : List Char → Option Int
  | [] => some 0
  | e :: t =>
    if e == 'e' || e == 'E' then
      match t with
      | '-' :: ds => if ds.isEmpty || !ds.all isDigit then none else some (-(ofDigits ds : Int))
      | '+' :: ds => if ds.isEmpty || !ds.all isDigit then none else some (ofDigits ds)
      | ds => if ds.isEmpty || !ds.all isDigit then none else some (ofDigits ds)
    else none

section Numbers

variable (r : NumeralReader)

def decimal (n : Numeral) : Json := ((r n).map .float).getD unreadable

/-- A number without point and exponent is whole if it fits 64 bits, negative
ones with a sign bit; a minus before a zero needs a floating-point number. -/
def wholeNumber (negative : Bool) (ds : List Char) : Json :=
  let n := ofDigits ds
  if negative then
    if 0 < n ∧ n ≤ UInt64.size / 2 then .int (-(n : Int)) else decimal r ⟨true, ds, [], 0⟩
  else if n < UInt64.size then .int n
  else decimal r ⟨false, ds, [], 0⟩

def unsigned? (negative : Bool) (t : List Char) : Option Json := do
  let whole := t.takeWhile isDigit
  if whole.isEmpty || (whole.head? == some '0' && whole.length != 1) then none
  let rest := t.dropWhile isDigit
  if rest.isEmpty then return wholeNumber r negative whole
  else
    let (fraction, rest) ← fraction? rest
    let power ← power? rest
    return decimal r ⟨negative, whole, fraction, power⟩

def number? : List Char → Option Json
  | '-' :: t => unsigned? r true t
  | t => unsigned? r false t

end Numbers

def punctuation? : Char → Option Token
  | '[' => some .openBracket
  | ']' => some .closeBracket
  | '\x7b' => some .openBrace
  | '\x7d' => some .closeBrace
  | ',' => some .comma
  | ':' => some .colon
  | _ => none

def word? : List Char → Option (Json × List Char)
  | 'n' :: 'u' :: 'l' :: 'l' :: t => some (.null, t)
  | 't' :: 'r' :: 'u' :: 'e' :: t => some (.bool true, t)
  | 'f' :: 'a' :: 'l' :: 's' :: 'e' :: t => some (.bool false, t)
  | _ => none

theorem length_word? {t r : List Char} {j : Json} (h : word? t = some (j, r)) :
    r.length < t.length := by
  fun_cases word? t <;> simp_all [word?] <;> omega

theorem length_dropWhile_le (p : Char → Bool) (t : List Char) :
    (t.dropWhile p).length ≤ t.length := (List.dropWhile_sublist p).length_le

def next? (r : NumeralReader) (c : Char) (t : List Char) : Option (Token × List Char) :=
  match punctuation? c with
  | some p => some (p, t)
  | none =>
    if c == '"' then
      (string? t).map fun (s, u) => (.text s, u)
    else if isNumberChar c then
      (number? r (c :: t.takeWhile isNumberChar)).map fun j => (.scalar j, t.dropWhile isNumberChar)
    else (word? (c :: t)).map fun (j, u) => (.scalar j, u)

theorem length_next? {r : NumeralReader} {c : Char} {t u : List Char} {k : Token}
    (h : next? r c t = some (k, u)) : u.length ≤ t.length := by
  simp only [next?] at h
  split at h
  · cases h; exact Nat.le_refl _
  · split at h
    · obtain ⟨⟨s, v⟩, hs, hu⟩ := Option.map_eq_some_iff.1 h
      cases hu
      exact Nat.le_of_lt (length_string? hs)
    · split at h
      · obtain ⟨j, -, hu⟩ := Option.map_eq_some_iff.1 h
        cases hu
        exact length_dropWhile_le isNumberChar t
      · obtain ⟨⟨j, v⟩, hs, hu⟩ := Option.map_eq_some_iff.1 h
        cases hu
        exact Nat.le_of_lt_succ (length_word? hs)

def ofChars? (r : NumeralReader) : List Char → Option (List Token)
  | [] => some []
  | c :: t =>
    if isSpace c then ofChars? r t
    else
      match h : next? r c t with
      | none => none
      | some (k, u) =>
        have := length_next? h
        (ofChars? r u).map (k :: ·)
termination_by t => t.length

end Token

end ToolCatalog.Json
