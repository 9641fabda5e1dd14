import ToolCatalog.Proofs.Json.Fields
import ToolCatalog.Proofs.Keyed

/-!
# Values that nest too deep

A text that nests too deep is read with a mark in the place of what is too deep, and the
reader of a part takes no mark. So a reader that reads all of a value refuses it from too
deep a text.
-/

namespace ToolCatalog.Json

theorem cutItems_eq_map (xs : List Json) (room : Nat) :
    cutItems xs room = xs.map (·.cut room) := by
  induction xs with
  | nil => rfl
  | cons x xs ih => rw [cutItems, ih, List.map_cons]

theorem cutMembers_eq_map (ms : Members) (room : Nat) :
    cutMembers ms room = ms.map fun m => (m.1, m.2.cut room) := by
  induction ms with
  | nil => rfl
  | cons m ms ih => rw [cutMembers, ih, List.map_cons]

theorem exists_of_lt_itemsDepth {n : Nat} {xs : List Json} (h : n < itemsDepth xs) :
    ∃ x ∈ xs, n < x.depth := by
  induction xs with
  | nil => cases h
  | cons x xs ih =>
    rw [itemsDepth] at h
    rcases Nat.lt_or_ge n x.depth with hx | hx
    · exact ⟨x, List.mem_cons_self, hx⟩
    · obtain ⟨y, hy, hlt⟩ := ih (by omega)
      exact ⟨y, .tail x hy, hlt⟩

theorem exists_of_lt_membersDepth {n : Nat} {ms : Members} (h : n < membersDepth ms) :
    ∃ m ∈ ms, n < m.2.depth := by
  induction ms with
  | nil => cases h
  | cons m ms ih =>
    rw [membersDepth] at h
    rcases Nat.lt_or_ge n m.2.depth with hm | hm
    · exact ⟨m, List.mem_cons_self, hm⟩
    · obtain ⟨l, hl, hlt⟩ := ih (by omega)
      exact ⟨l, .tail m hl, hlt⟩

theorem isNull_cut {j : Json} {room : Nat} (h : room < j.depth) : (j.cut room).isNull = false := by
  cases j with
  | arr xs =>
    rw [cut]
    split <;> rfl
  | obj ms =>
    rw [cut]
    split <;> rfl
  | _ => cases h

mutual

theorem readable_cut : (j : Json) → {room : Nat} → room < j.depth → (j.cut room).readable = false
  | .null, _, h | .bool _, _, h | .int _, _, h | .float _, _, h | .str _, _, h => nomatch h
  | .arr xs, room, h => by
    rw [depth] at h
    rw [cut]
    split
    · exact readable_unreadable
    · exact readableItems_cut xs (by omega)
  | .obj ms, room, h => by
    rw [depth] at h
    rw [cut]
    split
    · exact readable_unreadable
    · exact readableMembers_cut ms (by omega)

theorem readableItems_cut : (xs : List Json) → {room : Nat} → room < itemsDepth xs →
    readableItems (cutItems xs room) = false
  | [], _, h => nomatch h
  | x :: xs, room, h => by
    rw [itemsDepth] at h
    rw [cutItems, readableItems, Bool.and_eq_false_iff]
    rcases Nat.lt_or_ge room x.depth with hx | hx
    · exact .inl (readable_cut x hx)
    · exact .inr (readableItems_cut xs (by omega))

theorem readableMembers_cut : (ms : Members) → {room : Nat} → room < membersDepth ms →
    readableMembers (cutMembers ms room) = false
  | [], _, h => nomatch h
  | (_, x) :: ms, room, h => by
    rw [membersDepth] at h
    rw [cutMembers, readableMembers, Bool.and_eq_false_iff]
    rcases Nat.lt_or_ge room x.depth with hx | hx
    · exact .inl (readable_cut x hx)
    · exact .inr (readableMembers_cut ms (by omega))

end

variable {α : Type} {read : Json → Option α}

/-- Whether a reader takes a value from no text that nests too deep for it. -/
def Refuses (read : Json → Option α) (j : Json) : Prop :=
  ∀ room, room < j.depth → read (j.cut room) = none

theorem refuses_flat {j : Json} (h : j.depth = 0) : Refuses read j := by
  intro room hroom
  rw [h] at hroom
  cases hroom

theorem refuses_str (t : String) : Refuses read (.str t) := refuses_flat rfl

theorem refuses_of_readable (h : ∀ j : Json, j.readable = false → read j = none) (j : Json) :
    Refuses read j := fun _ hroom => h _ (readable_cut j hroom)

theorem refuses_any? (j : Json) : Refuses any? j := by
  refine refuses_of_readable (fun j hj => ?_) j
  rw [any?, hj]
  rfl

theorem Refuses.map {β : Type} {f : α → β} {j : Json} (h : Refuses read j) :
    Refuses (fun j => (read j).map f) j := by
  intro room hroom
  simp only [h room hroom, Option.map_none]

theorem refuses_arr {xs : List Json} (hmark : read unreadable = none)
    (h : ∀ room, ∀ x ∈ xs, room < x.depth → read (.arr (xs.map (·.cut room))) = none) :
    Refuses read (.arr xs) := by
  intro room hroom
  rw [depth] at hroom
  rw [cut]
  split
  · exact hmark
  · have hitems : room - 1 < itemsDepth xs := by omega
    obtain ⟨x, hx, hlt⟩ := exists_of_lt_itemsDepth hitems
    rw [cutItems_eq_map]
    exact h _ x hx hlt

theorem refuses_obj {ms : Members} (hmark : read unreadable = none)
    (h : ∀ room, ∀ m ∈ ms, room < m.2.depth →
      read (.obj (ms.map fun m => (m.1, m.2.cut room))) = none) :
    Refuses read (.obj ms) := by
  intro room hroom
  rw [depth] at hroom
  rw [cut]
  split
  · exact hmark
  · have hmembers : room - 1 < membersDepth ms := by omega
    obtain ⟨m, hm, hlt⟩ := exists_of_lt_membersDepth hmembers
    rw [cutMembers_eq_map]
    exact h _ m hm hlt

theorem mapM_eq_none {β : Type} {f : α → Option β} {xs : List α} {x : α} (hx : x ∈ xs)
    (h : f x = none) : xs.mapM f = none := by
  induction xs with
  | nil => cases hx
  | cons y xs ih =>
    rw [List.mapM_cons]
    rcases List.mem_cons.1 hx with rfl | hx
    · rw [h]
      rfl
    · rw [ih hx]
      cases f y <;> rfl

theorem refuses_list? {xs : List Json} (h : ∀ x ∈ xs, Refuses read x) :
    Refuses (list? read) (.arr xs) :=
  refuses_arr rfl fun room x hx hlt =>
    mapM_eq_none (List.mem_map_of_mem hx) (h x hx room hlt)

theorem refuses_entries? {ms : Members} (h : ∀ m ∈ ms, Refuses read m.2) :
    Refuses (entries? read) (.obj ms) := by
  refine refuses_obj rfl fun room m hm hlt => ?_
  refine mapM_eq_none (List.mem_map_of_mem hm) ?_
  rw [h m hm room hlt, Option.map_none]

theorem refuses_keyed? {write : α → Json} {m : Keyed α}
    (h : ∀ e ∈ m.entries, Refuses read (write e.2)) : Refuses (keyed? read) (ofKeyed write m) := by
  have hentries : Refuses (entries? read) (ofKeyed write m) := by
    apply refuses_entries?
    rw [List.forall_mem_map]
    exact h
  exact hentries.map

theorem refuses_ofTexts (ts : List String) : Refuses (list? string?) (ofTexts ts) := by
  apply refuses_list?
  rw [List.forall_mem_map]
  exact fun t _ => refuses_str t

theorem refuses_present {fs : List (String × Option Json)} (hfs : (fs.map (·.1)).Nodup)
    (hmark : read unreadable = none)
    (h : ∀ k j room, (k, some j) ∈ fs → room < j.depth →
      let ms := (present fs).map fun m => (m.1, m.2.cut room)
      Keyed.lookup k ms = some (j.cut room) → read (.obj ms) = none) :
    Refuses read (.obj (present fs)) := by
  refine refuses_obj hmark fun room m hm hlt => ?_
  have hmem := mem_present.1 hm
  have hlookup := Keyed.lookup_map (fun j : Json => j.cut room) m.1 (present fs)
  rw [lookup_present hfs hmem, Option.map_some] at hlookup
  exact h m.1 m.2 room hmem hlt hlookup

theorem eq_obj_of_record? {known : List String} {j : Json} {ms : Members}
    (h : record? known j = some ms) : j = .obj ms := by
  rw [record?.eq_def] at h
  split at h
  · rw [distinct?] at h
    split at h
    · rw [Option.some.inj h]
    · cases h
  · cases h

variable {k : String} {ms : Members} {j : Json} {room : Nat}

theorem optional?_cut (h : Refuses read j) (hroom : room < j.depth)
    (hlookup : Keyed.lookup k ms = some (j.cut room)) : optional? read k ms = none := by
  have hnull := isNull_cut hroom
  rw [optional?, hlookup]
  split
  · next heq => cases heq
  · next heq =>
    rw [Option.some.inj heq] at hnull
    cases hnull
  · next heq => rw [← Option.some.inj heq, h room hroom, Option.map_none]

theorem optional?_cut_map {β : Type} {write : β → Json} {o : Option β}
    (h : ∀ b ∈ o, Refuses read (write b)) (hj : some j = o.map write) (hroom : room < j.depth)
    (hlookup : Keyed.lookup k ms = some (j.cut room)) : optional? read k ms = none := by
  obtain ⟨b, hb, rfl⟩ := Option.map_eq_some_iff.1 hj.symm
  exact optional?_cut (h b hb) hroom hlookup

theorem required?_cut (h : Refuses read j) (hroom : room < j.depth)
    (hlookup : Keyed.lookup k ms = some (j.cut room)) : required? read k ms = none := by
  rw [required?, hlookup, Option.bind_some, h room hroom]

theorem withDefault?_cut (default : α) (h : Refuses read j) (hroom : room < j.depth)
    (hlookup : Keyed.lookup k ms = some (j.cut room)) :
    withDefault? read k default ms = none := by
  simp only [withDefault?, hlookup, h room hroom]

end ToolCatalog.Json
