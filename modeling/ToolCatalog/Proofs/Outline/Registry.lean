import ToolCatalog.Outline.Registry
import ToolCatalog.Proofs.Keyed
import Mathlib.Data.Nat.Find

/-!
# What a registry hands out

An identity is handed out as it is, or else with the least number that is free; the number is
never above how many identities are taken. Every identity handed out is new, and none is empty
or a bare root, so a run of registrations hands out as many identities as it is asked for.
-/

namespace ToolCatalog.Registry

def registerAll (g : Registry) : List String → List String × Registry
  | [] => ([], g)
  | id :: ids =>
    let (assigned, g) := g.register id
    let (rest, g) := g.registerAll ids
    (assigned :: rest, g)

theorem isBare_iff {id : String} : isBare id = true ↔ id = "" ∨ ∃ root, id = root ++ ":" := by
  rw [isBare]
  cases hlast : id.toList.getLast? with
  | none =>
    have hempty : id = "" := String.toList_eq_nil_iff.1 (List.getLast?_eq_none_iff.1 hlast)
    exact iff_of_true rfl (.inl hempty)
  | some c =>
    obtain ⟨cs, hcs⟩ := List.getLast?_eq_some_iff.1 hlast
    simp only [beq_iff_eq]
    constructor
    · rintro rfl
      exact .inr ⟨String.ofList cs, String.toList_inj.1 (by simpa using hcs)⟩
    · rintro (rfl | ⟨root, rfl⟩)
      · cases hlast
      · have hcolon : (root ++ ":").toList.getLast? = some ':' := by simp
        exact Option.some.inj (hlast.symm.trans hcolon)

theorem isBare_eq_false_iff {id : String} :
    isBare id = false ↔ id ≠ "" ∧ ∀ root, id ≠ root ++ ":" := by
  rw [← Bool.not_eq_true, isBare_iff, not_or, not_exists]

theorem toList_numbered (id : String) (n : Nat) :
    (numbered id n).toList = id.toList ++ '#' :: Nat.toDigits 10 n := by
  simp [numbered, Nat.toString_eq_repr, Nat.toList_repr]

theorem isDigit_of_mem_toDigits {n : Nat} {c : Char} (h : c ∈ Nat.toDigits 10 n) :
    c.isDigit = true := Nat.isDigit_of_mem_toDigits (by decide) (by decide) h

theorem exists_last_numbered (id : String) (n : Nat) :
    ∃ c, (numbered id n).toList.getLast? = some c ∧ c.isDigit = true := by
  have hne : Nat.toDigits 10 n ≠ [] := Nat.toDigits_ne_nil
  refine ⟨_, ?_, isDigit_of_mem_toDigits (List.getLast_mem hne)⟩
  rw [toList_numbered, List.getLast?_append_of_ne_nil _ (List.cons_ne_nil _ _),
    List.getLast?_cons_of_ne_nil hne, List.getLast?_eq_some_getLast hne]

theorem isBare_numbered (id : String) (n : Nat) : isBare (numbered id n) = false := by
  obtain ⟨c, hlast, hdigit⟩ := exists_last_numbered id n
  rw [isBare, hlast]
  simp only [beq_eq_false_iff_ne]
  rintro rfl
  cases hdigit

theorem numbered_ne_self (id : String) (n : Nat) : numbered id n ≠ id := by
  intro h
  have hlength := congrArg List.length (congrArg String.toList h)
  rw [toList_numbered, List.length_append, List.length_cons] at hlength
  omega

theorem firstFree_eq {g : Registry} {id : String} {n : Nat}
    (hfree : g.contains (numbered id n) = false)
    (hbelow : ∀ m < n, g.contains (numbered id m) = true) :
    g.firstFree id = numbered id n ∧ n ≤ g.size := by
  obtain ⟨i, hi, hifree⟩ := g.exists_free id
  have hle : n ≤ i := by
    by_contra hlt
    rw [hbelow i (Nat.lt_of_not_le hlt)] at hifree
    cases hifree
  have hfind : (List.range (g.size + 1)).find? ((fun c => !g.contains c) ∘ numbered id) = some n := by
    rw [List.find?_range_eq_some]
    refine ⟨by simp [hfree], List.mem_range.2 (by omega), fun m hm => by simp [hbelow m hm]⟩
  rw [firstFree, List.find?_map, hfind]
  exact ⟨rfl, by omega⟩

theorem exists_firstFree (g : Registry) (id : String) :
    ∃ n ≤ g.size, g.firstFree id = numbered id n ∧
      ∀ m < n, g.contains (numbered id m) = true := by
  have hexists : ∃ n, g.contains (numbered id n) = false :=
    let ⟨n, _, hfree⟩ := g.exists_free id
    ⟨n, hfree⟩
  have hbelow : ∀ m < Nat.find hexists, g.contains (numbered id m) = true := fun m hm => by
    simpa using Nat.find_min hexists hm
  obtain ⟨heq, hle⟩ := firstFree_eq (Nat.find_spec hexists) hbelow
  exact ⟨Nat.find hexists, hle, heq, hbelow⟩

theorem assigned_of_taken {g : Registry} {id : String}
    (h : g.contains id = true ∨ isBare id = true) : g.assigned id = g.firstFree id := by
  rw [assigned, if_pos (by simpa using h)]

theorem assigned_eq_self_iff {g : Registry} {id : String} :
    g.assigned id = id ↔ g.contains id = false ∧ isBare id = false := by
  constructor
  · intro h
    by_contra hnot
    have htaken : g.contains id = true ∨ isBare id = true := by
      rw [not_and_or] at hnot
      simpa using hnot
    obtain ⟨n, -, hn, -⟩ := g.exists_firstFree id
    rw [assigned_of_taken htaken, hn] at h
    exact numbered_ne_self id n h
  · rintro ⟨hfree, hbare⟩
    exact assigned_of_free hfree hbare

theorem assigned_cases (g : Registry) (id : String) :
    g.assigned id = id ∨ ∃ n ≤ g.size, g.assigned id = numbered id n ∧
      ∀ m < n, g.contains (numbered id m) = true := by
  by_cases h : g.contains id = false ∧ isBare id = false
  · exact .inl (assigned_of_free h.1 h.2)
  · have htaken : g.contains id = true ∨ isBare id = true := by
      rw [not_and_or] at h
      simpa using h
    rw [assigned_of_taken htaken]
    exact .inr (g.exists_firstFree id)

theorem isBare_assigned (g : Registry) (id : String) : isBare (g.assigned id) = false := by
  rcases g.assigned_cases id with h | ⟨n, -, h, -⟩
  · rw [h]
    exact (assigned_eq_self_iff.1 h).2
  · rw [h]
    exact isBare_numbered id n

theorem contains_register_iff {g : Registry} {id other : String} :
    (g.register id).2.contains other = true ↔
      other = g.assigned id ∨ g.contains other = true := by
  simp [contains_register]

theorem size_register (g : Registry) (id : String) : (g.register id).2.size = g.size + 1 := by
  have hfree : g.taken.find? (g.assigned id) = none :=
    Option.not_isSome_iff_eq_none.1 (by simpa [contains, Keyed.contains] using g.contains_assigned id)
  exact Keyed.size_insert_of_none () hfree

structure HandsOut (g : Registry) (as : List String) (g' : Registry) : Prop where
  nodup : as.Nodup
  fresh : ∀ a ∈ as, g.contains a = false
  contains : ∀ other, g'.contains other = true ↔ g.contains other = true ∨ other ∈ as
  size : g'.size = g.size + as.length

theorem HandsOut.refl (g : Registry) : g.HandsOut [] g where
  nodup := .nil
  fresh := nofun
  contains other := by simp
  size := rfl

theorem HandsOut.register {g g' : Registry} {id : String} {as : List String}
    (h : (g.register id).2.HandsOut as g') : g.HandsOut (g.assigned id :: as) g' := by
  have hfresh : ∀ a ∈ as, a ≠ g.assigned id ∧ g.contains a = false := fun a ha => by
    have hnot : ¬(g.register id).2.contains a = true := Bool.not_eq_true _ ▸ h.fresh a ha
    rwa [contains_register_iff, not_or, Bool.not_eq_true] at hnot
  refine ⟨?_, ?_, fun other => ?_, ?_⟩
  · exact List.nodup_cons.2 ⟨fun hmem => (hfresh _ hmem).1 rfl, h.nodup⟩
  · exact List.forall_mem_cons.2 ⟨g.contains_assigned id, fun a ha => (hfresh a ha).2⟩
  · rw [h.contains, contains_register_iff, List.mem_cons]
    tauto
  · rw [h.size, size_register, List.length_cons]
    omega

theorem handsOut_registerAll (g : Registry) (ids : List String) :
    g.HandsOut (g.registerAll ids).1 (g.registerAll ids).2 := by
  induction ids generalizing g with
  | nil => exact .refl g
  | cons id ids ih => exact .register (ih (g.register id).2)

theorem length_registerAll (g : Registry) (ids : List String) :
    (g.registerAll ids).1.length = ids.length := by
  induction ids generalizing g with
  | nil => rfl
  | cons id ids ih => exact congrArg (· + 1) (ih (g.register id).2)

/-- After any run, an identity is handed out that is new, neither empty nor a bare root, and
either the wanted one, wherever that is possible, or the wanted one with the least number that is
free. A run hands out as many identities as are registered, all of them different. -/
theorem register_after (ids : List String) (id : String) :
    let handedOut := (registerAll {} ids).1
    let g := (registerAll {} ids).2
    let assigned := (g.register id).1
    (g.contains assigned = false ∧ assigned ≠ "" ∧ ∀ root, assigned ≠ root ++ ":") ∧
    (∀ other, (g.register id).2.contains other = true ↔
      other = assigned ∨ g.contains other = true) ∧
    (assigned = id ↔ id ≠ "" ∧ (∀ root, id ≠ root ++ ":") ∧ g.contains id = false) ∧
    (assigned = id ∨ ∃ n ≤ g.size, assigned = id ++ "#" ++ toString n ∧
      ∀ m < n, g.contains (id ++ "#" ++ toString m) = true) ∧
    handedOut.length = ids.length ∧ handedOut.Nodup ∧
    (∀ other, g.contains other = true ↔ other ∈ handedOut) ∧
    g.size = ids.length := by
  intro handedOut g assigned
  have hrun : HandsOut {} handedOut g := handsOut_registerAll {} ids
  have hlength : handedOut.length = ids.length := length_registerAll {} ids
  refine ⟨⟨g.contains_assigned id, isBare_eq_false_iff.1 (g.isBare_assigned id)⟩,
    fun _ => contains_register_iff, ?_, g.assigned_cases id, hlength, hrun.nodup, fun other => ?_,
    ?_⟩
  · rw [← and_assoc, ← isBare_eq_false_iff, and_comm]
    exact assigned_eq_self_iff
  · rw [hrun.contains]
    exact or_iff_right nofun
  · rw [hrun.size, hlength]
    exact Nat.zero_add _

end ToolCatalog.Registry
