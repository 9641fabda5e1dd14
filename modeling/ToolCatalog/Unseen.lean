/-!
# Places not seen yet

A walk along references that never visits a place twice ends, because each step
leaves fewer places unseen.
-/

namespace ToolCatalog

/-- How many of the first `n` places are not in the list. -/
def unseen (n : Nat) (seen : List Nat) : Nat :=
  ((List.range n).filter fun i => !seen.contains i).length

theorem unseen_cons_lt {n i : Nat} {seen : List Nat} (hi : i < n) (hs : i ∉ seen) :
    unseen n (i :: seen) < unseen n seen := by
  have hsplit : (List.range n).filter (fun j => !(i :: seen).contains j) =
      ((List.range n).filter fun j => !seen.contains j).filter (fun j => j != i) := by
    rw [List.filter_filter]
    congr 1
    funext j
    by_cases h : j = i <;> simp [h]
  rw [unseen, unseen, hsplit]
  refine List.length_filter_lt_length_iff_exists.2 ⟨i, ?_, by simp⟩
  simp [hi, hs]

end ToolCatalog
