import ToolCatalog.Proofs.Embedding.Codec
import ToolCatalog.Proofs.Json.Documents

/-!
# Records are read back

A record writes the fields that have a value, each under a key of its own. Looking a
key up gives the field again, so the reader of each part meets what its writer wrote.
Lists and maps come back entry by entry.
-/

namespace ToolCatalog.Json

def present (fields : List (String × Option Json)) : Members :=
  fields.filterMap fun f => f.2.map (f.1, ·)

theorem present_append (fs gs : List (String × Option Json)) :
    present (fs ++ gs) = present fs ++ present gs := List.filterMap_append

theorem present_cons_some (k : String) (j : Json) (fs : List (String × Option Json)) :
    present ((k, some j) :: fs) = (k, j) :: present fs := rfl

theorem present_map_some (ms : Members) : present (ms.map fun m => (m.1, some m.2)) = ms := by
  induction ms with
  | nil => rfl
  | cons m ms ih => rw [List.map_cons, present_cons_some, ih]

theorem mem_present {fs : List (String × Option Json)} {k : String} {j : Json} :
    (k, j) ∈ present fs ↔ (k, some j) ∈ fs := by
  simp [present]

variable {α β : Type} {read : Json → Option β} {write : α → Json} {f : α → β}

theorem field?_eq_present (write : α → Json) (k : String) (o : Option α) :
    field? write k o = present [(k, o.map write)] := by
  cases o <;> rfl

def unlessNil (write : α → Json) : List α → Option Json
  | [] => none
  | xs => some (.arr (xs.map write))

theorem listField_eq_present (write : α → Json) (k : String) (xs : List α) :
    listField write k xs = present [(k, unlessNil write xs)] := by
  cases xs <;> rfl

def unlessEmpty (write : α → Json) (m : Keyed α) : Option Json :=
  if m.isEmpty then none else some (ofKeyed write m)

theorem keyedField_eq_present (write : α → Json) (k : String) (m : Keyed α) :
    keyedField write k m = present [(k, unlessEmpty write m)] := by
  rw [keyedField, unlessEmpty]
  split <;> rfl

theorem list?_map {xs : List α} (h : ∀ x ∈ xs, read (write x) = some (f x)) :
    list? read (.arr (xs.map write)) = some (xs.map f) := by
  induction xs with
  | nil => rfl
  | cons x xs ih =>
    have htail := ih fun y hy => h y (.tail x hy)
    rw [list?] at htail
    rw [list?, List.map_cons, List.mapM_cons, h x List.mem_cons_self, htail]
    rfl

theorem list?_written {read : Json → Option α} {xs : List α}
    (h : ∀ x ∈ xs, read (write x) = some x) : list? read (.arr (xs.map write)) = some xs := by
  have hlist := list?_map (f := id) h
  rwa [List.map_id] at hlist

theorem entries?_map {es : List (String × α)} (h : ∀ e ∈ es, read (write e.2) = some (f e.2)) :
    entries? read (.obj (es.map fun e => (e.1, write e.2))) =
      some (es.map fun e => (e.1, f e.2)) := by
  induction es with
  | nil => rfl
  | cons e es ih =>
    have htail := ih fun d hd => h d (.tail e hd)
    rw [entries?] at htail
    rw [entries?, List.map_cons, List.mapM_cons, h e List.mem_cons_self, htail]
    rfl

theorem keyed?_map {m : Keyed α} (h : ∀ e ∈ m.entries, read (write e.2) = some (f e.2)) :
    keyed? read (ofKeyed write m) = some (m.map f) := by
  rw [keyed?, ofKeyed, entries?_map h, Option.map_some]
  exact congrArg some (Keyed.ofList_entries (m.map f))

theorem textsOf (ts : List String) : list? string? (ofTexts ts) = some ts :=
  list?_written fun _ _ => rfl

section Fields

variable {fs : List (String × Option Json)} (hfs : (fs.map (·.1)).Nodup)
include hfs

theorem lookup_present {k : String} {o : Option Json} (h : (k, o) ∈ fs) :
    Keyed.lookup k (present fs) = o := by
  induction fs with
  | nil => simp at h
  | cons g fs ih =>
    obtain ⟨l, p⟩ := g
    rw [List.map_cons, List.nodup_cons] at hfs
    have habsent : Keyed.lookup l (present fs) = none := by
      by_contra hfound
      obtain ⟨j, hj⟩ := Option.ne_none_iff_exists'.1 hfound
      exact hfs.1 (List.mem_map.2 ⟨_, mem_present.1 (Keyed.mem_of_lookup hj), rfl⟩)
    rcases List.mem_cons.1 h with heq | h'
    · obtain ⟨rfl, rfl⟩ := Prod.mk.inj heq
      cases o with
      | none => exact habsent
      | some j => simp [present_cons_some, Keyed.lookup]
    · have hne : k ≠ l := by
        rintro rfl
        exact hfs.1 (List.mem_map.2 ⟨_, h', rfl⟩)
      cases p with
      | none => exact ih hfs.2 h'
      | some j => simp [present_cons_some, Keyed.lookup, hne, ih hfs.2 h']

theorem distinctKeys_present (known : List String) : distinctKeys known (present fs) = true := by
  rw [distinctKeys, List.all_eq_true]
  intro k _
  rw [decide_eq_true_eq]
  induction fs with
  | nil => exact Nat.zero_le 1
  | cons g fs ih =>
    obtain ⟨l, p⟩ := g
    rw [List.map_cons, List.nodup_cons] at hfs
    cases p with
    | none => exact ih hfs.2
    | some j =>
      rw [present_cons_some, List.filter_cons]
      split
      · next hl =>
        have hnone : (present fs).filter (fun m => m.1 == k) = [] := by
          rw [List.filter_eq_nil_iff]
          rintro ⟨m, v⟩ hm heq
          have hkey : m = l := (beq_iff_eq.1 heq).trans (beq_iff_eq.1 hl).symm
          exact hfs.1 (List.mem_map.2 ⟨_, mem_present.1 hm, hkey⟩)
        rw [hnone, List.length_singleton]
      · exact ih hfs.2

theorem record?_present (known : List String) :
    record? known (.obj (present fs)) = some (present fs) := by
  rw [record?, distinct?, if_pos (distinctKeys_present hfs known)]

theorem required?_field {k : String} {j : Json} {b : β} (h : (k, some j) ∈ fs)
    (hread : read j = some b) : required? read k (present fs) = some b := by
  rw [required?, lookup_present hfs h, Option.bind_some, hread]

theorem optional?_present {k : String} {o : Option α} (h : (k, o.map write) ∈ fs)
    (hread : ∀ a ∈ o, (write a).isNull = false ∧ read (write a) = some (f a)) :
    optional? read k (present fs) = some (o.map f) := by
  rw [optional?, lookup_present hfs h]
  cases o with
  | none => rfl
  | some a =>
    obtain ⟨hnull, ha⟩ := hread a rfl
    rw [Option.map_some]
    split
    · next h => cases h
    · next h =>
      rw [Option.some.inj h] at hnull
      cases hnull
    · next j h => rw [← Option.some.inj h, ha]; rfl

theorem optional?_field {read : Json → Option α} {k : String} {o : Option α}
    (h : (k, o.map write) ∈ fs)
    (hread : ∀ a ∈ o, (write a).isNull = false ∧ read (write a) = some a) :
    optional? read k (present fs) = some o := by
  have hfield := optional?_present hfs (f := id) h hread
  rwa [Option.map_id] at hfield

theorem optional?_text {k : String} {o : Option String} (h : (k, o.map .str) ∈ fs) :
    optional? string? k (present fs) = some o :=
  optional?_field hfs h fun _ _ => ⟨rfl, rfl⟩

theorem optional?_any_present {k : String} {o : Option Json} (h : (k, o) ∈ fs)
    (hproper : ∀ v ∈ o, v.Proper) :
    optional? any? k (present fs) = some (o.filter fun v => !v.isNull) := by
  rw [optional?, lookup_present hfs h]
  cases o with
  | none => rfl
  | some v =>
    have hv := (hproper v rfl).any?
    cases v with
    | null => rfl
    | _ => exact congrArg (Option.map some) hv

theorem withDefault?_field (default : β) {k : String} {j : Json} {b : β} (h : (k, some j) ∈ fs)
    (hread : read j = some b) : withDefault? read k default (present fs) = some b := by
  rw [withDefault?, lookup_present hfs h]
  exact hread

theorem withDefault?_list {read : Json → Option α} {k : String} {xs : List α}
    (h : (k, unlessNil write xs) ∈ fs) (hread : ∀ x ∈ xs, read (write x) = some x) :
    withDefault? (list? read) k [] (present fs) = some xs := by
  cases xs with
  | nil =>
    rw [withDefault?, lookup_present hfs h]
    rfl
  | cons x xs => exact withDefault?_field hfs [] h (list?_written hread)

theorem withDefault?_keyed {read : Json → Option α} {k : String} {m : Keyed α}
    (h : (k, unlessEmpty write m) ∈ fs) (hread : ∀ a, read (write a) = some a) :
    withDefault? (keyed? read) k ∅ (present fs) = some m := by
  rw [unlessEmpty] at h
  split at h
  · next hempty =>
    obtain ⟨entries, sorted⟩ := m
    obtain rfl := List.isEmpty_iff.1 hempty
    rw [withDefault?, lookup_present hfs h]
    rfl
  · exact withDefault?_field hfs ∅ h (keyed?_ofKeyed hread m)

theorem distinct?_present (known : List String) :
    distinct? known (present fs) = some (present fs) :=
  if_pos (distinctKeys_present hfs known)

theorem kind?_present {form : KindForm} {kinds : List String} {k : String}
    (h : ("kind", some (.str k)) ∈ fs) (hs : (obj (present fs)).Spellable) :
    kind? form kinds (present fs) = some k := by
  have hreadable := hs.readable
  rw [readable] at hreadable
  rw [kind?, hreadable, distinctKeys_present hfs, Bool.and_self, if_pos rfl]
  exact required?_field hfs h rfl

end Fields

theorem spellable_map {o : Option α} (h : ∀ a ∈ o, (write a).Spellable) :
    ∀ j ∈ o.map write, j.Spellable := by
  intro j hj
  obtain ⟨a, ha, rfl⟩ := Option.map_eq_some_iff.1 hj
  exact h a ha

theorem spellable_some {j : Json} (h : j.Spellable) : ∀ i ∈ some j, i.Spellable := by
  intro i hi
  rwa [← Option.mem_some.1 hi]

theorem spellable_ofTexts (ts : List String) : (ofTexts ts).Spellable := by
  rw [ofTexts, spellable_arr, List.forall_mem_map]
  exact fun _ _ => trivial

theorem spellable_ofKeyed {m : Keyed α} (h : ∀ e ∈ m.entries, (write e.2).Spellable) :
    (ofKeyed write m).Spellable := by
  rw [ofKeyed, spellable_obj, List.forall_mem_map]
  exact h

theorem spellable_unlessNil {xs : List α} (h : ∀ x ∈ xs, (write x).Spellable) :
    ∀ j ∈ unlessNil write xs, j.Spellable := by
  cases xs with
  | nil => nofun
  | cons x xs =>
    apply spellable_some
    rw [spellable_arr, List.forall_mem_map]
    exact h

theorem spellable_unlessEmpty {m : Keyed α} (h : ∀ e ∈ m.entries, (write e.2).Spellable) :
    ∀ j ∈ unlessEmpty write m, j.Spellable := by
  rw [unlessEmpty]
  split
  · nofun
  · exact spellable_some (spellable_ofKeyed h)

theorem spellable_present {fs : List (String × Option Json)} :
    (obj (present fs)).Spellable ↔ ∀ g ∈ fs, ∀ j ∈ g.2, j.Spellable := by
  rw [spellable_obj]
  constructor
  · rintro h ⟨k, o⟩ hg j hj
    obtain rfl : o = some j := hj
    exact h (k, j) (mem_present.2 hg)
  · rintro h ⟨k, j⟩ hm
    exact h (k, some j) (mem_present.1 hm) j rfl

end ToolCatalog.Json
