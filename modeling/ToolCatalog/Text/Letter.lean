import ToolCatalog.Text.LetterTable

/-!
# Letters, numbers and identifiers

Alphabetic characters, alphanumeric characters, and the texts that can be
written after a dot: a letter, `_` or `$`, then letters, numbers, `_` or `$`.
-/

namespace ToolCatalog.Text

def inRanges : List (Nat × Nat) → Nat → Bool
  | [], _ => false
  | (lo, hi) :: rs, n => if n < lo then false else n ≤ hi || inRanges rs n

theorem inRanges_cons_of_lt {lo hi n : Nat} (rs : List (Nat × Nat)) (h : n < lo) :
    inRanges ((lo, hi) :: rs) n = false := by simp [inRanges, h]

theorem inRanges_cons_of_le {lo hi n : Nat} (rs : List (Nat × Nat)) (h₁ : lo ≤ n) (h₂ : n ≤ hi) :
    inRanges ((lo, hi) :: rs) n = true := by simp [inRanges, h₂, Nat.not_lt.2 h₁]

def isAlphabetic (c : Char) : Bool := inRanges alphabeticRanges c.toNat

def isNumeric (c : Char) : Bool := inRanges numericRanges c.toNat

def isAlphanumeric (c : Char) : Bool := isAlphabetic c || isNumeric c

def isIdentifierStart (c : Char) : Bool := isAlphabetic c || c == '_' || c == '$'

def isIdentifierRest (c : Char) : Bool := isAlphanumeric c || c == '_' || c == '$'

def isIdentifierChars : List Char → Bool
  | [] => false
  | c :: t => isIdentifierStart c && t.all isIdentifierRest

def isIdentifier (name : String) : Bool := isIdentifierChars name.toList

theorem isIdentifierRest_of_start {c : Char} (h : isIdentifierStart c = true) :
    isIdentifierRest c = true := by
  simp only [isIdentifierStart, isIdentifierRest, isAlphanumeric, Bool.or_eq_true] at h ⊢
  rcases h with (h | h) | h <;> simp [h]

end ToolCatalog.Text
