import ToolCatalog.Proofs.Layers
import ToolCatalog.Proofs.Schema.Rules
import ToolCatalog.Proofs.Schema.Validation
import Mathlib.Data.List.Induction
import Mathlib.Data.List.Nodup

/-!
# What the derived forms of schema accept

Each form of schema that a derivation builds is accepted on conditions that name
the schemas it is built from. Two forms forget something of what they are built
from: a tuple whose slots are alike keeps only the first slot, and an object keeps
for each name only its last property, at the place of the first.
-/

namespace ToolCatalog

open Derive

def Member.lastNamed (k : String) (ms : List Member) : Option Member :=
  ms.reverse.find? (·.name == k)

theorem Member.mem_of_lastNamed {k : String} {ms : List Member} {m : Member}
    (h : Member.lastNamed k ms = some m) : m ∈ ms ∧ m.name = k := by
  refine ⟨List.mem_reverse.1 (List.mem_of_find?_eq_some h), ?_⟩
  simpa using List.find?_some h

theorem Member.lastNamed_of_nodup {ms : List Member} (h : (ms.map (·.name)).Nodup) {m : Member}
    (hm : m ∈ ms) : Member.lastNamed m.name ms = some m := by
  rw [lastNamed]
  have hrev : (ms.reverse.map (·.name)).Nodup := by
    simpa [List.Nodup, List.pairwise_reverse, ne_comm] using h
  have hm := List.mem_reverse.2 hm
  generalize ms.reverse = ms at hrev hm
  induction ms with
  | nil => simp at hm
  | cons n ms ih =>
    rw [List.map_cons, List.nodup_cons] at hrev
    rcases List.mem_cons.1 hm with rfl | hm
    · simp
    · have hne : n.name ≠ m.name := fun e => hrev.1 (e ▸ List.mem_map_of_mem hm)
      simpa [List.find?_cons, hne] using ih hrev.2 hm

def Parameter.isExpected (p : Parameter) : Bool :=
  !p.optional && p.initializer.isNone && !(p.doc.map DocComment.parse).any (·.hasTag "default")

/-- With no initializer there is a default exactly if a comment declares one. -/
theorem Schema.isMandatory_eq_isExpected (p : Parameter) :
    Schema.isMandatory p = p.isExpected := by
  rw [Schema.isMandatory, Parameter.isExpected, Schema.defaultOf, Schema.declaredDefault]
  cases hi : p.initializer with
  | some i => simp
  | none =>
    cases hd : p.doc.map DocComment.parse with
    | none => simp
    | some d =>
      have htag : d.hasTag "default" = (d.tag? "default").isSome := rfl
      cases ht : d.tag? "default" with
      | none => simp [htag, ht]
      | some text => simp [htag, ht]

namespace Schema

variable {title description : Option String} {v : Json}

theorem accepts_typed {p : Primitive} :
    (typed { title, description } p).Accepts v ↔ p.describes v = true := by
  rw [accepts_iff, AcceptsBy]
  simp [typed, TypeKeyword.describes]

theorem accepts_const {c : Json} :
    Accepts { title, description, const := some c } v ↔ c.Equals v := by
  rw [accepts_iff, AcceptsBy]
  simp

theorem accepts_openTypes :
    Accepts { title, description, type := some (.several openTypes) } v ↔ v.isArray = false := by
  rw [accepts_iff, AcceptsBy]
  cases v <;> simp [openTypes, TypeKeyword.describes, Primitive.describes, Json.isArray]

theorem accepts_anyOf {ss : List Schema} :
    Accepts { title, description, anyOf := some ss } v ↔ ∃ s ∈ ss, s.Accepts v := by
  rw [accepts_iff, AcceptsBy]
  simp

theorem accepts_allOf {ss : List Schema} :
    Accepts { title, description, allOf := some ss } v ↔ ∀ s ∈ ss, s.Accepts v := by
  rw [accepts_iff, AcceptsBy]
  simp

theorem describes_null : Primitive.null.describes v = true ↔ v = .null := by
  cases v <;> simp [Primitive.describes]

theorem describes_array : Primitive.array.describes v = v.isArray := by
  cases v <;> rfl

theorem describes_object : Primitive.object.describes v = v.isObject := by
  cases v <;> rfl

theorem accepts_list {t : Schema} :
    Accepts { typed { title, description } .array with items := some t } v ↔
      v.isArray = true ∧ ∀ x ∈ v.elements, t.Accepts x := by
  rw [accepts_iff, AcceptsBy]
  simp [typed, TypeKeyword.describes, describes_array]

theorem accepts_dictionary {t : Schema} :
    Accepts { typed { title, description } .object with additionalProperties := some t } v ↔
      v.isObject = true ∧ ∀ k x, v.fields.find? k = some x → t.Accepts x := by
  rw [accepts_iff, AcceptsBy]
  simp [typed, TypeKeyword.describes, describes_object]

theorem mul_one_shiftLeft (m k : Nat) : m * (1 <<< k) = m <<< k := by
  rw [Nat.shiftLeft_eq, Nat.shiftLeft_eq, Nat.one_mul]

theorem equals_ofNumber? {x : Binary64} {w : Json} (h : Json.ofNumber? x = some w) :
    w.canonical = (Json.float x).canonical := by
  cases hx : x.isFinite with
  | false => simp [Json.ofNumber?, hx] at h
  | true =>
    simp only [Json.ofNumber?, hx, ↓reduceIte] at h
    split at h
    · next n hn =>
      split at h
      · obtain rfl := Option.some.inj h
        simp only [Binary64.whole?, hx, Bool.true_and] at hn
        split at hn
        · next hsize =>
          obtain rfl := Option.some.inj hn
          have hworth : x.magnitude >>> 1074 * (1 <<< 1074) = x.magnitude :=
            (mul_one_shiftLeft _ _).trans (beq_iff_eq.1 hsize)
          simp only [Json.canonical, hx, ↓reduceIte, Json.int.injEq]
          split
          · rw [Int.neg_mul, ← Int.natCast_mul, hworth]
          · rw [← Int.natCast_mul, hworth]
        · simp at hn
      · obtain rfl := Option.some.inj h
        rfl
    · obtain rfl := Option.some.inj h
      rfl

theorem map_fst_fixedSlots (i : Nat) (slots : List Slot) :
    (fixedSlots i slots).map (·.1) = slots.filter fun s => !s.isRest := by
  have hfst : (slots.zipIdx i).map Prod.fst = slots := List.zipIdx_map_fst i slots
  rw [← hfst, List.filter_map, hfst]
  rfl

theorem forall_of_uniform {P : Schema → Prop} {first : Schema} {ss : List Schema}
    (h : uniform (first :: ss) = true)
    (hP : ∀ s ∈ first :: ss, ∀ t, s.same t = true → P s → P t) (hfirst : P first) :
    ∀ s ∈ first :: ss, P s := by
  induction ss generalizing first with
  | nil => simpa using hfirst
  | cons second ss ih =>
    rw [uniform, Bool.and_eq_true] at h
    rw [List.forall_mem_cons] at hP
    have hsecond : P second := hP.1 second h.1 hfirst
    rw [List.forall_mem_cons]
    exact ⟨hfirst, ih h.2 hP.2 hsecond⟩

theorem tupleOf_cases (base : Schema) (slots : List Slot) (fixed : List Schema)
    (rest : Option Schema) :
    (∃ first tail, fixed = first :: tail ∧ (∀ s ∈ slots, s.flag = .required) ∧
      uniform fixed = true ∧ tupleOf base slots fixed rest =
        { typed base .array with
          items := some first, minItems := some fixed.length, maxItems := some fixed.length }) ∨
    tupleOf base slots fixed rest =
      { typed base .array with prefixItems := some fixed, items := rest } := by
  cases fixed with
  | nil => exact .inr rfl
  | cons first tail =>
    by_cases h : slots.all (·.flag = .required) && uniform (first :: tail)
    · refine .inl ⟨first, tail, rfl, ?_⟩
      simp only [Bool.and_eq_true, List.all_eq_true, decide_eq_true_eq] at h
      refine ⟨h.1, h.2, ?_⟩
      simp [tupleOf, h.2, List.all_eq_true.2 fun s hs => decide_eq_true (h.1 s hs)]
    · refine .inr ?_
      simp only [tupleOf, h, Bool.false_eq_true, ↓reduceIte]

theorem accepts_sized {t : Schema} {n : Nat} :
    Accepts { typed { title, description } .array with
      items := some t, minItems := some n, maxItems := some n } v ↔
      v.isArray = true ∧ v.elements.length = n ∧ ∀ x ∈ v.elements, t.Accepts x := by
  rw [accepts_iff, AcceptsBy]
  cases v <;> simp [typed, TypeKeyword.describes, describes_array, Json.isArray]
  constructor
  · rintro ⟨ht, hle, hge⟩
    exact ⟨Nat.le_antisymm hge hle, ht⟩
  · rintro ⟨h, ht⟩
    exact ⟨ht, Nat.le_of_eq h.symm, Nat.le_of_eq h⟩

theorem accepts_places {ss : List Schema} {rest : Option Schema} :
    Accepts { typed { title, description } .array with
      prefixItems := some ss, items := rest } v ↔
      v.isArray = true ∧
      (∀ (i : Nat) t x, ss[i]? = some t → v.elements[i]? = some x → t.Accepts x) ∧
      ∀ t, rest = some t → ∀ x ∈ v.elements.drop ss.length, t.Accepts x := by
  rw [accepts_iff, AcceptsBy]
  simp [typed, TypeKeyword.describes, describes_array]

theorem lookup_foldl_putProperty {α : Type} (k : String) (ps acc : List (String × α)) :
    Keyed.lookup k (ps.foldl (fun acc p => putProperty p.1 p.2 acc) acc) =
      (Keyed.lookup k ps.reverse).or (Keyed.lookup k acc) := by
  induction ps generalizing acc with
  | nil => rfl
  | cons p ps ih =>
    rw [List.foldl_cons, ih, lookup_putProperty, List.reverse_cons, Keyed.lookup_append,
      Option.or_assoc]
    by_cases h : k = p.1 <;> simp [Keyed.lookup, h]

theorem lookup_putProperties {α : Type} (k : String) (ps : List (String × α)) :
    Keyed.lookup k (putProperties ps) = Keyed.lookup k ps.reverse := by
  rw [putProperties, lookup_foldl_putProperty]
  exact Option.or_none

theorem map_fst_putProperty {α : Type} (k : String) (a : α) (ps : List (String × α)) :
    (putProperty k a ps).map (·.1) =
      if k ∈ ps.map (·.1) then ps.map (·.1) else ps.map (·.1) ++ [k] := by
  induction ps with
  | nil => rfl
  | cons p ps ih =>
    by_cases h : k = p.1
    · simp [putProperty, h]
    · rw [putProperty, if_neg h, List.map_cons, ih, List.map_cons]
      by_cases hk : k ∈ ps.map (·.1)
      · rw [if_pos hk, if_pos (List.mem_cons_of_mem _ hk)]
      · rw [if_neg hk, if_neg (by simp [h, hk])]
        rfl

theorem nodup_putProperties {α : Type} (ps : List (String × α)) :
    ((putProperties ps).map (·.1)).Nodup := by
  have hacc : ∀ acc : List (String × α), (acc.map (·.1)).Nodup →
      ((ps.foldl (fun acc p => putProperty p.1 p.2 acc) acc).map (·.1)).Nodup := by
    induction ps with
    | nil => exact fun acc h => h
    | cons p ps ih =>
      intro acc h
      refine ih _ ?_
      rw [map_fst_putProperty]
      split
      · exact h
      · next hp =>
        refine List.nodup_append.2 ⟨h, by simp, fun k hk l hl => ?_⟩
        rintro rfl
        exact hp (List.mem_singleton.1 hl ▸ hk)
  exact hacc [] .nil

theorem mem_putProperties {α : Type} {k : String} {a : α} {ps : List (String × α)} :
    (k, a) ∈ putProperties ps ↔ Keyed.lookup k ps.reverse = some a := by
  rw [← lookup_putProperties]
  exact ⟨lookup_eq_some_of_nodup (nodup_putProperties ps), Keyed.mem_of_lookup⟩

theorem keys_putProperties {α : Type} (ps : List (String × α)) :
    (putProperties ps).map (·.1) = (ps.map (·.1)).eraseDups := by
  induction ps using List.reverseRecOn with
  | nil => rfl
  | append_singleton ps p ih =>
    have hput : putProperties (ps ++ [p]) = putProperty p.1 p.2 (putProperties ps) :=
      List.foldl_append
    rw [hput, map_fst_putProperty, ih, List.map_append, List.map_singleton, eraseDups_concat]
    simp only [List.mem_eraseDups]

theorem lookup_putProperties_append {α : Type} (ps qs : List (String × α)) (p : String × α)
    (h : ∀ q ∈ qs, q.1 ≠ p.1) :
    Keyed.lookup p.1 (putProperties (ps ++ p :: qs)) = some p.2 := by
  have hnone : Keyed.lookup p.1 qs.reverse = none := by
    cases hq : Keyed.lookup p.1 qs.reverse with
    | none => rfl
    | some s =>
      have hmem := List.mem_reverse.1 (Keyed.mem_of_lookup hq)
      exact absurd rfl (h (p.1, s) hmem)
  rw [lookup_putProperties, List.reverse_append, List.reverse_cons, List.append_assoc,
    Keyed.lookup_append, hnone, Option.none_or]
  simp [Keyed.lookup]

def Entry.property (e : Entry) : String × Schema := (e.name, e.schema)

theorem forall_requiredNames {es : List Entry} {P : String → Prop} :
    (∀ names, requiredNames es = some names → ∀ k ∈ names, P k) ↔
      ∀ e ∈ es, e.required = true → P e.name := by
  have hmem : ∀ k, k ∈ (es.filter (·.required)).map (·.name) ↔
      ∃ e ∈ es, e.required = true ∧ e.name = k := by
    simp [and_assoc]
  rw [requiredNames]
  split
  · next h =>
    rw [h] at hmem
    exact ⟨fun _ e he hr => absurd ((hmem e.name).2 ⟨e, he, hr, rfl⟩) List.not_mem_nil, nofun⟩
  · simp only [Option.some.injEq, forall_eq', hmem]
    exact ⟨fun h e he hr => h _ ⟨e, he, hr, rfl⟩, fun h k ⟨e, he, hr, hk⟩ => hk ▸ h e he hr⟩

theorem accepts_objectOf {es : List Entry} :
    (objectOf { title, description } es).Accepts v ↔ v.isObject = true ∧
      (∀ k s, Keyed.lookup k (es.map Entry.property).reverse = some s →
        ∀ x, v.fields.find? k = some x → s.Accepts x) ∧
      ∀ e ∈ es, e.required = true → v.fields.contains e.name = true := by
  have hreq : (∀ names, requiredNames es = some names → v.isObject = true → ∀ k ∈ names,
      v.fields.contains k = true) ↔ (v.isObject = true → ∀ e ∈ es, e.required = true →
        v.fields.contains e.name = true) := by
    have hnames := @forall_requiredNames es (fun k => v.fields.contains k = true)
    exact ⟨fun h ho => hnames.1 fun names hn => h names hn ho,
      fun h names hn ho => hnames.2 (h ho) names hn⟩
  rw [accepts_iff, AcceptsBy]
  simp only [objectOf, hreq]
  simp only [typed, Option.some.injEq, forall_eq', TypeKeyword.describes, describes_object,
    reduceCtorEq, false_implies, implies_true, and_true, true_and]
  constructor
  · rintro ⟨ho, hp, hr⟩
    exact ⟨ho, fun k s hk => hp (k, s) (mem_putProperties.2 hk), hr ho⟩
  · rintro ⟨ho, hp, hr⟩
    exact ⟨ho, fun p hps => hp p.1 p.2 (mem_putProperties.1 hps), fun _ => hr⟩

theorem lookup_of_lastNamed {R : Member → Entry → Prop} {ms : List Member} {es : List Entry}
    (h : List.Forall₂ (fun m e => e.name = m.name ∧ R m e) ms es) (k : String) :
    (Member.lastNamed k ms = none ∧ Keyed.lookup k (es.map Entry.property).reverse = none) ∨
      ∃ m e, Member.lastNamed k ms = some m ∧
        Keyed.lookup k (es.map Entry.property).reverse = some e.schema ∧ R m e := by
  rw [Member.lastNamed, ← List.map_reverse]
  have hrev := List.forall₂_reverse_iff.2 h
  generalize ms.reverse = ms at hrev
  generalize es.reverse = es at hrev
  induction hrev with
  | nil => exact .inl ⟨rfl, rfl⟩
  | @cons m e ms es hm hrest ih =>
    by_cases hk : m.name = k
    · refine .inr ⟨m, e, by simp [hk], ?_, hm.2⟩
      simp [Keyed.lookup, Entry.property, hm.1, hk]
    · have hk' : k ≠ e.name := fun e' => hk (hm.1 ▸ e'.symm)
      simpa [List.find?_cons, hk, Keyed.lookup, Entry.property, hk'] using ih

end Schema

end ToolCatalog
