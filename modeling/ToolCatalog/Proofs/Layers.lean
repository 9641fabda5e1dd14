import Mathlib.Data.List.Basic

/-!
# Layers

Records are laid over one another, and a field that the upper one leaves open is seen from
below. Then a pile of them shows in each field what the last one that has it holds there. What
is only listed once stands where it comes first.
-/

namespace ToolCatalog

variable {σ α : Type}

/-- What the last record that has a field holds in it. -/
def lastOf (field : σ → Option α) (ts : List σ) : Option α := (ts.filterMap field).getLast?

theorem lastOf_singleton (field : σ → Option α) (t : σ) : lastOf field [t] = field t := by
  rw [lastOf, List.filterMap_cons]
  cases field t <;> rfl

theorem lastOf_append (field : σ → Option α) (ss ts : List σ) :
    lastOf field (ss ++ ts) = (lastOf field ts).or (lastOf field ss) := by
  rw [lastOf, List.filterMap_append, List.getLast?_append, lastOf, lastOf]

theorem lastOf_cons (field : σ → Option α) (t : σ) (ts : List σ) :
    lastOf field (t :: ts) = (lastOf field ts).or (field t) := by
  rw [← List.singleton_append, lastOf_append, lastOf_singleton]

theorem isSome_lastOf (field : σ → Option α) (ts : List σ) :
    (lastOf field ts).isSome = true ↔ ∃ t ∈ ts, (field t).isSome = true := by
  induction ts with
  | nil => exact ⟨nofun, fun ⟨_, ht, _⟩ => nomatch ht⟩
  | cons t ts ih => simp [lastOf_cons, Option.isSome_or, ih, or_comm]

theorem or_comm_of_agree {a b : Option α} (h : ∀ x y, a = some x → b = some y → x = y) :
    a.or b = b.or a := by
  cases a with
  | none => rw [Option.none_or, Option.or_none]
  | some x =>
    cases b with
    | none => rfl
    | some y => rw [h x y rfl rfl]

theorem lastOf_swap (field : σ → Option α) {s t : σ}
    (h : ∀ a b, field s = some a → field t = some b → a = b) (ls rs : List σ) :
    lastOf field (ls ++ s :: t :: rs) = lastOf field (ls ++ t :: s :: rs) := by
  have hpair : lastOf field (s :: t :: rs) = lastOf field (t :: s :: rs) := by
    rw [lastOf_cons, lastOf_cons, lastOf_cons, lastOf_cons, Option.or_assoc,
      ← or_comm_of_agree h, Option.or_assoc]
  rw [lastOf_append, hpair, ← lastOf_append]

theorem field_foldl (lay : σ → σ → σ) (field : σ → Option α)
    (h : ∀ s t, field (lay s t) = (field t).or (field s)) (ts : List σ) (s : σ) :
    field (ts.foldl lay s) = (lastOf field ts).or (field s) := by
  induction ts generalizing s with
  | nil => rfl
  | cons t ts ih => rw [List.foldl_cons, ih, h, lastOf_cons, Option.or_assoc]

theorem eraseDups_concat [DecidableEq α] (as : List α) (a : α) :
    (as ++ [a]).eraseDups = if a ∈ as then as.eraseDups else as.eraseDups ++ [a] := by
  rw [List.eraseDups_append]
  by_cases ha : a ∈ as
  · rw [if_pos ha]
    simp [List.removeAll, ha]
  · rw [if_neg ha]
    simp [List.removeAll, ha, List.eraseDups_cons]

end ToolCatalog
