/-!
# Values filed under texts

A `Keyed α` holds at most one value per key, in strictly increasing order of
the keys; keys compare by code points. Inserting under a key that is there
replaces its value, and joining two of them lets the second one win. Two of
them are equal if they answer every look-up alike. A set of texts is one
whose values say nothing.
-/

namespace ToolCatalog

structure Keyed (α : Type) where
  entries : List (String × α)
  sorted : entries.Pairwise (fun a b => a.1 < b.1)

namespace Keyed

variable {α : Type}

def insertEntry (k : String) (v : α) : List (String × α) → List (String × α)
  | [] => [(k, v)]
  | e :: es =>
    if k < e.1 then (k, v) :: e :: es
    else if k = e.1 then (k, v) :: es
    else e :: insertEntry k v es

theorem mem_insertEntry {k : String} {v : α} {a : String × α} {es : List (String × α)}
    (h : a ∈ insertEntry k v es) : a = (k, v) ∨ a ∈ es := by
  induction es with
  | nil => simpa [insertEntry] using h
  | cons e es ih =>
    rw [insertEntry] at h
    split at h
    · simpa using h
    · split at h
      · rcases List.mem_cons.1 h with h | h
        · exact .inl h
        · exact .inr (List.mem_cons_of_mem _ h)
      · rcases List.mem_cons.1 h with h | h
        · exact .inr (h ▸ List.mem_cons_self)
        · exact (ih h).imp id (List.mem_cons_of_mem _)

theorem lt_of_not_lt_of_ne {a b : String} (h : ¬a < b) (hne : a ≠ b) : b < a := by
  refine Classical.byContradiction fun h' => hne ?_
  exact String.le_antisymm (String.not_lt.1 h') (String.not_lt.1 h)

theorem sorted_insertEntry (k : String) (v : α) {es : List (String × α)}
    (h : es.Pairwise (fun a b => a.1 < b.1)) :
    (insertEntry k v es).Pairwise (fun a b => a.1 < b.1) := by
  induction es with
  | nil => simp [insertEntry]
  | cons e es ih =>
    have hes := List.pairwise_cons.1 h
    rw [insertEntry]
    split
    · next hk =>
      refine List.pairwise_cons.2 ⟨fun a ha => ?_, h⟩
      rcases List.mem_cons.1 ha with rfl | ha
      · exact hk
      · exact String.lt_trans hk (hes.1 a ha)
    · next hk =>
      split
      · next he => exact List.pairwise_cons.2 ⟨fun a ha => he ▸ hes.1 a ha, hes.2⟩
      · next he =>
        refine List.pairwise_cons.2 ⟨fun a ha => ?_, ih hes.2⟩
        rcases mem_insertEntry ha with rfl | ha
        · exact lt_of_not_lt_of_ne hk he
        · exact hes.1 a ha

def empty : Keyed α := ⟨[], .nil⟩

instance : EmptyCollection (Keyed α) := ⟨empty⟩

instance : Inhabited (Keyed α) := ⟨empty⟩

def insert (m : Keyed α) (k : String) (v : α) : Keyed α :=
  ⟨insertEntry k v m.entries, sorted_insertEntry k v m.sorted⟩

def lookup (k : String) : List (String × α) → Option α
  | [] => none
  | e :: es => if k = e.1 then some e.2 else lookup k es

def find? (m : Keyed α) (k : String) : Option α := lookup k m.entries

def contains (m : Keyed α) (k : String) : Bool := (m.find? k).isSome

def keys (m : Keyed α) : List String := m.entries.map (·.1)

def values (m : Keyed α) : List α := m.entries.map (·.2)

def size (m : Keyed α) : Nat := m.entries.length

def isEmpty (m : Keyed α) : Bool := m.entries.isEmpty

/-- Files the entries one after another, so the last one under a key stays. -/
def insertAll (m : Keyed α) (es : List (String × α)) : Keyed α :=
  es.foldl (fun m e => m.insert e.1 e.2) m

def ofList (es : List (String × α)) : Keyed α := insertAll ∅ es

def union (m n : Keyed α) : Keyed α := m.insertAll n.entries

def map {β : Type} (f : α → β) (m : Keyed α) : Keyed β :=
  ⟨m.entries.map fun e => (e.1, f e.2), List.pairwise_map.2 m.sorted⟩

theorem lookup_insertEntry (k k' : String) (v : α) (es : List (String × α)) :
    lookup k' (insertEntry k v es) = if k' = k then some v else lookup k' es := by
  induction es with
  | nil => rfl
  | cons e es ih =>
    rw [insertEntry]
    split
    · rfl
    · split
      · next h => by_cases h' : k' = k <;> simp_all [lookup]
      · next h =>
        by_cases h' : k' = e.1
        · have : k' ≠ k := fun hk => h (hk ▸ h')
          simp [lookup, h', h' ▸ this]
        · simp [lookup, h', ih]

@[simp] theorem find?_empty (k : String) : (∅ : Keyed α).find? k = none := rfl

theorem find?_insert (m : Keyed α) (k k' : String) (v : α) :
    (m.insert k v).find? k' = if k' = k then some v else m.find? k' :=
  lookup_insertEntry k k' v m.entries

@[simp] theorem find?_insert_self (m : Keyed α) (k : String) (v : α) :
    (m.insert k v).find? k = some v := by simp [find?_insert]

theorem lookup_append (k : String) (xs ys : List (String × α)) :
    lookup k (xs ++ ys) = (lookup k xs).or (lookup k ys) := by
  induction xs with
  | nil => rfl
  | cons e es ih => by_cases h : k = e.1 <;> simp [lookup, h, ih]

theorem lookup_eq_none_of_lt {k : String} {es : List (String × α)}
    (h : ∀ e ∈ es, k < e.1) : lookup k es = none := by
  induction es with
  | nil => rfl
  | cons e es ih =>
    have hk : k ≠ e.1 := fun hk => String.lt_irrefl _ (hk ▸ h e List.mem_cons_self)
    simp [lookup, hk, ih fun e' he' => h e' (List.mem_cons_of_mem _ he')]

theorem lookup_eq_some_of_mem {es : List (String × α)}
    (h : es.Pairwise (fun a b => a.1 < b.1)) {e : String × α} (he : e ∈ es) :
    lookup e.1 es = some e.2 := by
  induction es with
  | nil => simp at he
  | cons d es ih =>
    have hd := List.pairwise_cons.1 h
    rcases List.mem_cons.1 he with rfl | he
    · simp [lookup]
    · have : e.1 ≠ d.1 := fun hk => String.lt_irrefl _ (hk ▸ hd.1 e he)
      simp [lookup, this, ih hd.2 he]

theorem mem_of_lookup {k : String} {v : α} {es : List (String × α)}
    (h : lookup k es = some v) : (k, v) ∈ es := by
  induction es with
  | nil => simp [lookup] at h
  | cons e es ih =>
    by_cases hk : k = e.1
    · simp only [lookup, hk, ↓reduceIte, Option.some.injEq] at h
      simp [hk, ← h]
    · simp only [lookup, hk, ↓reduceIte] at h
      exact List.mem_cons_of_mem _ (ih h)

theorem mem_entries_iff (m : Keyed α) (k : String) (v : α) :
    (k, v) ∈ m.entries ↔ m.find? k = some v :=
  ⟨fun h => lookup_eq_some_of_mem m.sorted h, mem_of_lookup⟩

theorem mem_keys_iff (m : Keyed α) (k : String) : k ∈ m.keys ↔ m.contains k = true := by
  rw [keys, List.mem_map, contains, Option.isSome_iff_exists]
  constructor
  · rintro ⟨e, he, rfl⟩
    exact ⟨e.2, (mem_entries_iff m e.1 e.2).1 he⟩
  · rintro ⟨v, hv⟩
    exact ⟨(k, v), (mem_entries_iff m k v).2 hv, rfl⟩

theorem eq_of_lookup_eq {xs ys : List (String × α)}
    (hx : xs.Pairwise (fun a b => a.1 < b.1)) (hy : ys.Pairwise (fun a b => a.1 < b.1))
    (h : ∀ k, lookup k xs = lookup k ys) : xs = ys := by
  induction xs generalizing ys with
  | nil =>
    cases ys with
    | nil => rfl
    | cons y ys => simpa [lookup] using h y.1
  | cons x xs ih =>
    cases ys with
    | nil => simpa [lookup] using h x.1
    | cons y ys =>
      have hx' := List.pairwise_cons.1 hx
      have hy' := List.pairwise_cons.1 hy
      have hxy : x = y := by
        have h₁ : x ∈ y :: ys := mem_of_lookup (by
          rw [← h]; exact lookup_eq_some_of_mem hx List.mem_cons_self)
        have h₂ : y ∈ x :: xs := mem_of_lookup (by
          rw [h]; exact lookup_eq_some_of_mem hy List.mem_cons_self)
        rcases List.mem_cons.1 h₁ with h₁ | h₁
        · exact h₁
        · rcases List.mem_cons.1 h₂ with h₂ | h₂
          · exact h₂.symm
          · exact absurd (String.lt_trans (hx'.1 y h₂) (hy'.1 x h₁)) (String.lt_irrefl _)
      subst hxy
      congr 1
      refine ih hx'.2 hy'.2 fun k => ?_
      by_cases e : k = x.1
      · rw [e, lookup_eq_none_of_lt hx'.1, lookup_eq_none_of_lt hy'.1]
      · simpa [lookup, e] using h k

theorem ext_find? {m n : Keyed α} (h : ∀ k, m.find? k = n.find? k) : m = n := by
  cases m; cases n
  congr 1
  exact eq_of_lookup_eq ‹_› ‹_› h

theorem find?_insertAll (m : Keyed α) (es : List (String × α)) (k : String) :
    (m.insertAll es).find? k = (lookup k es.reverse).or (m.find? k) := by
  induction es generalizing m with
  | nil => rfl
  | cons e es ih =>
    have : m.insertAll (e :: es) = (m.insert e.1 e.2).insertAll es := rfl
    rw [this, ih, find?_insert, List.reverse_cons, lookup_append, Option.or_assoc]
    by_cases h : k = e.1 <;> simp [lookup, h]

theorem lookup_reverse {es : List (String × α)} (h : es.Pairwise (fun a b => a.1 < b.1))
    (k : String) : lookup k es.reverse = lookup k es := by
  induction es with
  | nil => rfl
  | cons e es ih =>
    have he := List.pairwise_cons.1 h
    rw [List.reverse_cons, lookup_append, ih he.2]
    by_cases hk : k = e.1
    · subst hk
      simp [lookup_eq_none_of_lt he.1, lookup]
    · simp [lookup, hk]

/-- In a union the second one wins. -/
theorem find?_union (m n : Keyed α) (k : String) :
    (m.union n).find? k = (n.find? k).or (m.find? k) := by
  rw [union, find?_insertAll, lookup_reverse n.sorted, ← find?]

theorem empty_union (m : Keyed α) : (∅ : Keyed α).union m = m :=
  ext_find? fun k => by simp [find?_union]

theorem union_assoc (l m n : Keyed α) : (l.union m).union n = l.union (m.union n) :=
  ext_find? fun k => by simp [find?_union, Option.or_assoc]

theorem union_self (m : Keyed α) : m.union m = m :=
  ext_find? fun k => by simp [find?_union]

end Keyed

abbrev TextSet : Type := Keyed Unit

namespace TextSet

def add (s : TextSet) (t : String) : TextSet := s.insert t ()

def addAll (s : TextSet) (ts : List String) : TextSet := ts.foldl add s

def ofTexts (ts : List String) : TextSet := addAll ∅ ts

def toTexts (s : TextSet) : List String := s.keys

theorem contains_add (s : TextSet) (t u : String) :
    (s.add t).contains u = (u == t || s.contains u) := by
  by_cases h : u = t <;> simp [add, Keyed.contains, Keyed.find?_insert, h]

end TextSet

end ToolCatalog
