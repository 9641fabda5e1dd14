import ToolCatalog.Proofs.Text.Lines
import Mathlib.Data.String.Basic

/-!
# Byte offsets

A text in UTF-8 is cut at a byte offset. An offset inside a character or behind the end cuts
nothing; the offset of the first character with a property always does, and so does the one
behind a character of one byte.
-/

namespace ToolCatalog.Text

open String (utf8Len)

/-- The parts of a text before and behind a byte offset, if no character lies across it. -/
def cut? : Nat → List Char → Option (List Char × List Char)
  | 0, t => some ([], t)
  | _ + 1, [] => none
  | i + 1, c :: t =>
    if c.utf8Size ≤ i + 1 then (cut? (i + 1 - c.utf8Size) t).map fun (u, v) => (c :: u, v)
    else none

theorem cut?_cons_add (c : Char) (i : Nat) (t : List Char) :
    cut? (i + c.utf8Size) (c :: t) = (cut? i t).map fun (u, v) => (c :: u, v) := by
  obtain ⟨n, hn⟩ := Nat.exists_eq_add_one.2 (Nat.add_pos_right i c.utf8Size_pos)
  rw [hn, cut?, ← hn, if_pos (Nat.le_add_left _ _), Nat.add_sub_cancel]

theorem cut?_append (u v : List Char) : cut? (utf8Len u) (u ++ v) = some (u, v) := by
  induction u with
  | nil => simp [cut?]
  | cons c u ih => rw [String.utf8Len_cons, List.cons_append, cut?_cons_add, ih, Option.map_some]

section Search

variable {p : Char → Bool}

def offset? (p : Char → Bool) : List Char → Option Nat
  | [] => none
  | c :: t => if p c then some 0 else (offset? p t).map (· + c.utf8Size)

theorem offset?_of_none {t : List Char} (h : ∀ c ∈ t, p c = false) : offset? p t = none := by
  induction t with
  | nil => rfl
  | cons c t ih =>
    rw [offset?, h c List.mem_cons_self, ih fun d hd => h d (List.mem_cons_of_mem c hd)]
    rfl

theorem offset?_append_cons {u : List Char} {c : Char} (hu : ∀ d ∈ u, p d = false)
    (hc : p c = true) (v : List Char) : offset? p (u ++ c :: v) = some (utf8Len u) := by
  induction u with
  | nil => simp [offset?, hc]
  | cons d u ih =>
    rw [List.cons_append, offset?, hu d List.mem_cons_self,
      ih fun e he => hu e (List.mem_cons_of_mem d he)]
    rfl

theorem offset?_getD_append {u v : List Char} (hu : ∀ d ∈ u, p d = false)
    (hv : ∀ c ∈ v.head?, p c = true) :
    (offset? p (u ++ v)).getD (utf8Len (u ++ v)) = utf8Len u := by
  cases v with
  | nil => rw [List.append_nil, offset?_of_none hu, Option.getD_none]
  | cons c v => rw [offset?_append_cons hu (hv c rfl), Option.getD_some]

end Search

end ToolCatalog.Text
