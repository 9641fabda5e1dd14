import ToolCatalog.Keyed
import Mathlib.Data.List.Nodup
import Mathlib.Data.List.Perm.Basic

/-!
# Entries of keyed values

What inserting and joining do to the entries as a list, up to its order, where no
key is there before; what holds of all values, or maps them, through both; and what
inserting adds to a sum over the values.
-/

namespace ToolCatalog.Keyed

variable {α : Type}

theorem pairwise_keys (m : Keyed α) : m.keys.Pairwise (· < ·) := List.pairwise_map.2 m.sorted

theorem nodup_keys (m : Keyed α) : m.keys.Nodup := by
  refine List.Pairwise.imp ?_ m.pairwise_keys
  rintro k _ h rfl
  exact String.lt_irrefl k h

theorem mem_entries_of_union {α : Type} {m n : Keyed α} {e : String × α}
    (h : e ∈ (m.union n).entries) : e ∈ n.entries ∨ e ∈ m.entries := by
  obtain ⟨key, v⟩ := e
  rw [mem_entries_iff, find?_union, Option.or_eq_some_iff] at h
  rcases h with h | ⟨-, h⟩
  · exact .inl ((mem_entries_iff n key v).2 h)
  · exact .inr ((mem_entries_iff m key v).2 h)

theorem union_insert (m n : Keyed α) (k : String) (v : α) :
    m.union (n.insert k v) = (m.union n).insert k v := by
  refine ext_find? fun k' => ?_
  rw [find?_union, find?_insert, find?_insert, find?_union]
  split <;> rfl

theorem lookup_ne_none_of_mem {k : String} {v : α} {es : List (String × α)} (h : (k, v) ∈ es) :
    lookup k es ≠ none := by
  induction es with
  | nil => simp at h
  | cons e es ih =>
    by_cases hk : k = e.1
    · simp [lookup, hk]
    · have hmem : (k, v) ∈ es := (List.mem_cons.1 h).resolve_left fun he => hk (he ▸ rfl)
      simpa [lookup, hk] using ih hmem

theorem ofList_of_perm {m : Keyed α} {es : List (String × α)} (h : es.Perm m.entries) :
    ofList es = m := by
  refine ext_find? fun k => ?_
  have hmem (v : α) : (k, v) ∈ es.reverse ↔ m.find? k = some v := by
    rw [List.mem_reverse, h.mem_iff, mem_entries_iff]
  rw [ofList, find?_insertAll, find?_empty, Option.or_none]
  cases hk : lookup k es.reverse with
  | some v => exact ((hmem v).1 (mem_of_lookup hk)).symm
  | none =>
    cases hm : m.find? k with
    | none => rfl
    | some v => exact absurd hk (lookup_ne_none_of_mem ((hmem v).2 hm))

theorem forall_mem_insert {P : α → Prop} {m : Keyed α} {k : String} {v : α} (hv : P v)
    (hm : ∀ e ∈ m.entries, P e.2) : ∀ e ∈ (m.insert k v).entries, P e.2 := by
  intro e he
  rcases mem_insertEntry he with rfl | he
  · exact hv
  · exact hm e he

theorem lookup_map {β : Type} (f : α → β) (k : String) (es : List (String × α)) :
    lookup k (es.map fun e => (e.1, f e.2)) = (lookup k es).map f := by
  induction es with
  | nil => rfl
  | cons e es ih =>
    rw [List.map_cons, lookup, lookup, ih]
    split <;> rfl

theorem find?_map {β : Type} (f : α → β) (m : Keyed α) (k : String) :
    (m.map f).find? k = (m.find? k).map f := lookup_map f k m.entries

theorem map_union {β : Type} (f : α → β) (m n : Keyed α) :
    (m.union n).map f = (m.map f).union (n.map f) := by
  refine ext_find? fun k => ?_
  rw [find?_map, find?_union, find?_union, find?_map, find?_map]
  cases n.find? k <;> rfl

theorem map_ofList {β : Type} (f : α → β) (es : List (String × α)) :
    (ofList es).map f = ofList (es.map fun e => (e.1, f e.2)) := by
  refine ext_find? fun k => ?_
  rw [find?_map, ofList, ofList, find?_insertAll, find?_insertAll, find?_empty, find?_empty,
    Option.or_none, Option.or_none, ← List.map_reverse, lookup_map]

def sum (f : α → Nat) (m : Keyed α) : Nat := m.values.foldr (fun v n => f v + n) 0

theorem sum_insert (f : α → Nat) (m : Keyed α) (k : String) (v : α) :
    (m.insert k v).sum f + ((m.find? k).map f).getD 0 = m.sum f + f v := by
  have hentries : ∀ es : List (String × α), es.Pairwise (fun a b => a.1 < b.1) →
      ((insertEntry k v es).map (·.2)).foldr (fun v n => f v + n) 0 +
        ((lookup k es).map f).getD 0 = (es.map (·.2)).foldr (fun v n => f v + n) 0 + f v := by
    intro es hes
    induction es with
    | nil => simp [insertEntry, lookup]
    | cons e es ih =>
      obtain ⟨he, hes⟩ := List.pairwise_cons.1 hes
      rw [insertEntry]
      split
      · next hlt =>
        have hnone : lookup k (e :: es) = none := lookup_eq_none_of_lt fun a ha => by
          rcases List.mem_cons.1 ha with rfl | ha
          · exact hlt
          · exact String.lt_trans hlt (he a ha)
        simp only [hnone, List.map_cons, List.foldr_cons, Option.map_none, Option.getD_none]
        omega
      · split
        · next hk =>
          simp only [lookup, hk, ↓reduceIte, List.map_cons, List.foldr_cons, Option.map_some,
            Option.getD_some]
          omega
        · next hk =>
          have ih := ih hes
          simp only [lookup, hk, ↓reduceIte, List.map_cons, List.foldr_cons]
          omega
  exact hentries m.entries m.sorted

theorem size_eq_sum (m : Keyed α) : m.size = m.sum fun _ => 1 := by
  rw [size, sum, values]
  induction m.entries with
  | nil => rfl
  | cons e es ih => rw [List.length_cons, List.map_cons, List.foldr_cons, ih, Nat.add_comm]

theorem size_insert_of_none {m : Keyed α} {k : String} (v : α) (h : m.find? k = none) :
    (m.insert k v).size = m.size + 1 := by
  have hsum := sum_insert (fun _ => 1) m k v
  rw [h] at hsum
  rw [size_eq_sum, size_eq_sum]
  exact hsum

end ToolCatalog.Keyed
