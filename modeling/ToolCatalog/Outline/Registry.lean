import ToolCatalog.Keyed

/-!
# Registries of identities

A registry hands out each identity once. One that is taken, empty or the bare
root of a unit gets the first free number after a `#`.
-/

namespace ToolCatalog

structure Registry where
  taken : TextSet := ∅

namespace Registry

instance : Inhabited Registry := ⟨{}⟩

def contains (g : Registry) (id : String) : Bool := g.taken.contains id

def size (g : Registry) : Nat := g.taken.size

def numbered (id : String) (n : Nat) : String := id ++ "#" ++ toString n

/-- The first of the numbered forms that is free. One more of them is looked at
than identities are taken. -/
def firstFree (g : Registry) (id : String) : String :=
  (((List.range (g.size + 1)).map (numbered id)).find? fun c => !g.contains c).getD ""

/-- Whether an identity can only be given with a number. -/
def isBare (id : String) : Bool :=
  match id.toList.getLast? with
  | none => true
  | some c => c == ':'

def assigned (g : Registry) (id : String) : String :=
  if g.contains id || isBare id then g.firstFree id else id

def register (g : Registry) (id : String) : String × Registry :=
  (g.assigned id, ⟨g.taken.add (g.assigned id)⟩)

theorem numbered_injective (id : String) {m n : Nat} (h : numbered id m = numbered id n) :
    m = n := by
  have hl := congrArg String.toList h
  simp only [numbered, String.toList_append, List.append_cancel_left_eq, Nat.toString_eq_repr,
    Nat.toList_repr] at hl
  have hd := congrArg (fun ds => Nat.ofDigitChars 10 ds 0) hl
  simpa using hd

theorem exists_free (g : Registry) (id : String) :
    ∃ n < g.size + 1, g.contains (numbered id n) = false := by
  refine Classical.byContradiction fun h => ?_
  have hall : ∀ n < g.size + 1, g.contains (numbered id n) = true := fun n hn => by
    cases hc : g.contains (numbered id n) with
    | true => rfl
    | false => exact absurd ⟨n, hn, hc⟩ h
  have hsub : (List.range (g.size + 1)).map (numbered id) ⊆ g.taken.keys := fun t ht => by
    obtain ⟨n, hn, rfl⟩ := List.mem_map.1 ht
    exact (Keyed.mem_keys_iff _ _).2 (hall n (List.mem_range.1 hn))
  have hnodup : ((List.range (g.size + 1)).map (numbered id)).Nodup :=
    List.nodup_iff_pairwise_ne.2 (List.pairwise_map.2
      (List.nodup_range.imp fun hne e => hne (numbered_injective id e)))
  have hle := hnodup.length_le_of_subset hsub
  simp only [List.length_map, List.length_range, Keyed.keys, size, Keyed.size] at hle
  omega

theorem contains_firstFree (g : Registry) (id : String) : g.contains (g.firstFree id) = false := by
  obtain ⟨n, hn, hfree⟩ := g.exists_free id
  rw [firstFree]
  cases hf : ((List.range (g.size + 1)).map (numbered id)).find? fun c => !g.contains c with
  | none =>
    have := List.find?_eq_none.1 hf (numbered id n)
      (List.mem_map_of_mem (List.mem_range.2 hn))
    simp [hfree] at this
  | some c => simpa using List.find?_some hf

theorem contains_assigned (g : Registry) (id : String) : g.contains (g.assigned id) = false := by
  rw [assigned]
  split
  · exact g.contains_firstFree id
  · next h => exact (by simpa using h : g.contains id = false ∧ isBare id = false).1

theorem contains_register (g : Registry) (id other : String) :
    (g.register id).2.contains other = (other == g.assigned id || g.contains other) :=
  TextSet.contains_add g.taken (g.assigned id) other

theorem assigned_of_free {g : Registry} {id : String} (h : g.contains id = false)
    (hb : isBare id = false) : g.assigned id = id := by simp [assigned, h, hb]

end Registry

end ToolCatalog
