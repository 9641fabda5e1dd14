/-!
# Blank characters, trimming and lines

Texts are handled as lists of characters. A character is blank if it has the
Unicode property White_Space. Trimming removes blanks at the ends; a text
splits into lines at line feeds, each taking one carriage return before it.
-/

namespace ToolCatalog.Text

def isBlank (c : Char) : Bool :=
  let n := c.toNat
  (9 ≤ n && n ≤ 13) || n == 32 || n == 0x85 || n == 0xa0 || n == 0x1680 ||
    (0x2000 ≤ n && n ≤ 0x200a) || n == 0x2028 || n == 0x2029 || n == 0x202f ||
    n == 0x205f || n == 0x3000

def trimStart (t : List Char) : List Char := t.dropWhile isBlank

def trimEnd (t : List Char) : List Char := (t.reverse.dropWhile isBlank).reverse

def trim (t : List Char) : List Char := trimEnd (trimStart t)

theorem trimStart_cons_of_blank {c : Char} (t : List Char) (h : isBlank c = true) :
    trimStart (c :: t) = trimStart t := by simp [trimStart, h]

theorem trimStart_cons_of_not_blank {c : Char} (t : List Char) (h : isBlank c = false) :
    trimStart (c :: t) = c :: t := by simp [trimStart, h]

theorem trimEnd_append_blank {c : Char} (t : List Char) (h : isBlank c = true) :
    trimEnd (t ++ [c]) = trimEnd t := by simp [trimEnd, h]

/-- Lines without their ends. A final line feed opens no further line, and a
carriage return elsewhere than before a line feed is kept. -/
def lines : List Char → List (List Char)
  | [] => []
  | '\n' :: t => [] :: lines t
  | '\r' :: '\n' :: t => [] :: lines t
  | c :: t =>
    match lines t with
    | [] => [[c]]
    | l :: ls => (c :: l) :: ls

def unlines : List (List Char) → List Char
  | [] => []
  | [l] => l
  | l :: ls => l ++ '\n' :: unlines ls

def dropPrefix? : List Char → List Char → Option (List Char)
  | [], t => some t
  | _ :: _, [] => none
  | p :: ps, c :: t => if p = c then dropPrefix? ps t else none

theorem dropPrefix?_append (p t : List Char) : dropPrefix? p (p ++ t) = some t := by
  induction p with
  | nil => rfl
  | cons c p ih => simp [dropPrefix?, ih]

theorem eq_append_of_dropPrefix? {p t r : List Char} (h : dropPrefix? p t = some r) :
    t = p ++ r := by
  induction p generalizing t with
  | nil => simpa [dropPrefix?] using h
  | cons c p ih =>
    cases t with
    | nil => simp [dropPrefix?] at h
    | cons d t =>
      by_cases hc : c = d
      · simp only [dropPrefix?, hc, ↓reduceIte] at h
        simp [ih h, hc]
      · simp [dropPrefix?, hc] at h

def dropSuffix? (s t : List Char) : Option (List Char) :=
  (dropPrefix? s.reverse t.reverse).map List.reverse

theorem dropSuffix?_append (s t : List Char) : dropSuffix? s (t ++ s) = some t := by
  simp [dropSuffix?, dropPrefix?_append]

theorem eq_append_of_dropSuffix? {s t r : List Char} (h : dropSuffix? s t = some r) :
    t = r ++ s := by
  obtain ⟨u, hu, rfl⟩ := Option.map_eq_some_iff.1 h
  have := congrArg List.reverse (eq_append_of_dropPrefix? hu)
  simpa using this

def withoutPrefix (p t : List Char) : List Char := (dropPrefix? p t).getD t

def withoutSuffix (s t : List Char) : List Char := (dropSuffix? s t).getD t

def nonempty (t : List Char) : Option String :=
  if t.isEmpty then none else some (String.ofList t)

theorem nonempty_eq_some_iff {t : List Char} {s : String} :
    nonempty t = some s ↔ t ≠ [] ∧ String.ofList t = s := by
  simp [nonempty]

theorem nonempty_eq_none {t : List Char} : nonempty t = none ↔ t = [] := by
  simp [nonempty]

end ToolCatalog.Text
