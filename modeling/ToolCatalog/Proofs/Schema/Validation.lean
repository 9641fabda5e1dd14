import ToolCatalog.Schema.Basic
import Mathlib.Data.List.Forall2
import Mathlib.Data.List.Perm.Subperm
import Mathlib.Data.Option.Basic
import Mathlib.Order.FixedPoints

/-!
# Validation by schemas

Which JSON values a schema accepts, keyword by keyword, as JSON Schema has it.
Numbers are equal if they are worth the same, and objects whatever the order of
their members; title, description and default say nothing. Schemas that are the
same but for the order of their properties accept the same values, provided no
property stands in them twice.
-/

namespace ToolCatalog

namespace Json

mutual

/-- The value with every number as its count of units of `2 ^ (-1074)` and every
object in key order. Two values are equal if these are. -/
def canonical : Json → Json
  | .int n => .int (n * (1 <<< 1074 : Nat))
  | .float x =>
    if x.isFinite then .int (if x.negative then -(x.magnitude : Int) else x.magnitude)
    else .float x
  | .arr xs => .arr (canonicalItems xs)
  | .obj ms => .obj (Keyed.ofList (canonicalMembers ms)).entries
  | j => j

def canonicalItems : List Json → List Json
  | [] => []
  | x :: xs => x.canonical :: canonicalItems xs

def canonicalMembers : List (String × Json) → List (String × Json)
  | [] => []
  | (k, x) :: ms => (k, x.canonical) :: canonicalMembers ms

end

def Equals (v w : Json) : Prop := v.canonical = w.canonical

theorem canonical_float_of_isZero {x : Binary64} (h : x.isZero = true) :
    (Json.float x).canonical = .int 0 := by
  have hbits : x.bits.toNat = 0 ∨ x.bits.toNat = Binary64.signBit := by
    have hlt := x.bits.toNat_lt
    have hsign : Binary64.signBit = 9223372036854775808 := by decide
    simp only [Binary64.isZero, beq_iff_eq, hsign] at h ⊢
    omega
  have hfields : x.exponentField = 0 ∧ x.fractionField = 0 := by
    rw [Binary64.exponentField, Binary64.fractionField]
    rcases hbits with h | h <;> rw [h] <;> decide
  simp [canonical, Binary64.isFinite, Binary64.magnitude, Binary64.significand, hfields]

theorem canonical_float_of_same {x y : Binary64} (h : x.same y = true) :
    (Json.float x).canonical = (Json.float y).canonical := by
  simp only [Binary64.same, Bool.and_eq_true, Bool.or_eq_true, beq_iff_eq] at h
  rcases h.2 with h | ⟨hx, hy⟩
  · have : x = y := by
      cases x; cases y
      exact congrArg _ h
    rw [this]
  · rw [canonical_float_of_isZero hx, canonical_float_of_isZero hy]

mutual

theorem canonical_of_same : (v w : Json) → v.same w = true → v.canonical = w.canonical
  | .null, w, h | .bool _, w, h | .int _, w, h | .str _, w, h => by
    cases w <;> simp_all [same, canonical]
  | .float x, w, h => by
    cases w with
    | float y => exact canonical_float_of_same (by simpa [same] using h)
    | _ => simp [same] at h
  | .arr xs, w, h => by
    cases w with
    | arr ys => simp only [canonical, canonicalItems_of_same xs ys (by simpa [same] using h)]
    | _ => simp [same] at h
  | .obj ms, w, h => by
    cases w with
    | obj ns => simp only [canonical, canonicalMembers_of_same ms ns (by simpa [same] using h)]
    | _ => simp [same] at h

theorem canonicalItems_of_same : (xs ys : List Json) → sameItems xs ys = true →
    canonicalItems xs = canonicalItems ys
  | [], ys, h => by cases ys <;> simp_all [sameItems]
  | x :: xs, ys, h => by
    cases ys with
    | nil => simp [sameItems] at h
    | cons y ys =>
      simp only [sameItems, Bool.and_eq_true] at h
      rw [canonicalItems, canonicalItems, canonical_of_same x y h.1,
        canonicalItems_of_same xs ys h.2]

theorem canonicalMembers_of_same : (ms ns : List (String × Json)) → sameMembers ms ns = true →
    canonicalMembers ms = canonicalMembers ns
  | [], ns, h => by cases ns <;> simp_all [sameMembers]
  | (k, x) :: ms, ns, h => by
    cases ns with
    | nil => simp [sameMembers] at h
    | cons n ns =>
      simp only [sameMembers, Bool.and_eq_true, beq_iff_eq] at h
      rw [canonicalMembers, canonicalMembers, h.1.1, canonical_of_same x n.2 h.1.2,
        canonicalMembers_of_same ms ns h.2]

end

def elements : Json → List Json
  | .arr xs => xs
  | _ => []

def fields : Json → Keyed Json
  | .obj ms => Keyed.ofList ms
  | _ => ∅

def isArray : Json → Bool
  | .arr _ => true
  | _ => false

def isObject : Json → Bool
  | .obj _ => true
  | _ => false

end Json

def Primitive.describes : Primitive → Json → Bool
  | .null, .null => true
  | .boolean, .bool _ => true
  | .number, .int _ | .number, .float _ => true
  | .string, .str _ => true
  | .object, .obj _ => true
  | .array, .arr _ => true
  | _, _ => false

def TypeKeyword.describes : TypeKeyword → Json → Bool
  | .one p, v => p.describes v
  | .several ps, v => ps.any (·.describes v)

namespace Schema

/-- Whether a value fits a schema, as far as its parts are judged by a relation. The
elements after those that have a schema of their own fall under `items`, the members
without one under `additionalProperties`. -/
def AcceptsBy (R : Schema → Json → Prop) (s : Schema) (v : Json) : Prop :=
  (∀ t, s.type = some t → t.describes v = true) ∧
  (∀ c, s.const = some c → c.Equals v) ∧
  (∀ ps, s.properties = some ps → ∀ p ∈ ps, ∀ x, v.fields.find? p.1 = some x → R p.2 x) ∧
  (∀ names, s.required = some names → v.isObject = true → ∀ k ∈ names,
    v.fields.contains k = true) ∧
  (∀ ss, s.prefixItems = some ss → ∀ (i : Nat) t x, ss[i]? = some t → v.elements[i]? = some x →
    R t x) ∧
  (∀ t, s.items = some t → ∀ x ∈ v.elements.drop (s.prefixItems.getD []).length, R t x) ∧
  (∀ n, s.minItems = some n → v.isArray = true → n ≤ v.elements.length) ∧
  (∀ n, s.maxItems = some n → v.isArray = true → v.elements.length ≤ n) ∧
  (∀ t, s.additionalProperties = some t → ∀ k x, v.fields.find? k = some x →
    (∀ p ∈ s.properties.getD [], p.1 ≠ k) → R t x) ∧
  (∀ ss, s.anyOf = some ss → ∃ t ∈ ss, R t v) ∧
  (∀ ss, s.allOf = some ss → ∀ t ∈ ss, R t v)

theorem monotone_acceptsBy : Monotone AcceptsBy := by
  intro R R' hR s v h
  obtain ⟨htype, hconst, hprops, hreq, hleading, hitems, hmin, hmax, hadd, hany, hall⟩ := h
  refine ⟨htype, hconst, ?_, hreq, ?_, ?_, hmin, hmax, ?_, ?_, ?_⟩
  · exact fun ps hps p hp x hx => hR p.2 x (hprops ps hps p hp x hx)
  · exact fun ss hss i t x ht hx => hR t x (hleading ss hss i t x ht hx)
  · exact fun t ht x hx => hR t x (hitems t ht x hx)
  · exact fun t ht k x hx hk => hR t x (hadd t ht k x hx hk)
  · intro ss hss
    obtain ⟨t, ht, htv⟩ := hany ss hss
    exact ⟨t, ht, hR t v htv⟩
  · exact fun ss hss t ht => hR t v (hall ss hss t ht)

def Accepts : Schema → Json → Prop := OrderHom.lfp ⟨AcceptsBy, monotone_acceptsBy⟩

theorem accepts_iff (s : Schema) (v : Json) : s.Accepts v ↔ AcceptsBy Accepts s v :=
  iff_of_eq (congrFun₂ (OrderHom.map_lfp ⟨AcceptsBy, monotone_acceptsBy⟩) s v).symm

theorem accepts_annotated (s : Schema) (title description : Option String)
    (default : Option Json) (v : Json) :
    Accepts { s with title, description, default } v ↔ s.Accepts v := by
  rw [accepts_iff, accepts_iff s, AcceptsBy, AcceptsBy]

def parts (s : Schema) : List Schema :=
  (s.properties.getD []).map (·.2) ++ s.items.toList ++ s.prefixItems.getD [] ++
    s.additionalProperties.toList ++ s.anyOf.getD [] ++ s.allOf.getD []

inductive Everywhere (P : Schema → Prop) : Schema → Prop where
  | intro {s : Schema} : P s → (∀ t ∈ s.parts, Everywhere P t) → Everywhere P s

theorem everywhere_iff {P : Schema → Prop} {s : Schema} :
    Everywhere P s ↔ P s ∧ ∀ t ∈ s.parts, Everywhere P t :=
  ⟨fun | .intro h hs => ⟨h, hs⟩, fun ⟨h, hs⟩ => .intro h hs⟩

theorem mem_parts_of_properties {s t : Schema} {ps : List (String × Schema)} {k : String}
    (h : s.properties = some ps) (ht : (k, t) ∈ ps) : t ∈ s.parts := by
  simp only [parts, h, Option.getD_some, List.mem_append, List.mem_map]
  exact .inl (.inl (.inl (.inl (.inl ⟨_, ht, rfl⟩))))

theorem mem_parts_of_items {s t : Schema} (h : s.items = some t) : t ∈ s.parts := by
  simp [parts, h]

theorem mem_parts_of_prefixItems {s t : Schema} {ss : List Schema} (h : s.prefixItems = some ss)
    (ht : t ∈ ss) : t ∈ s.parts := by simp [parts, h, ht]

theorem mem_parts_of_additionalProperties {s t : Schema} (h : s.additionalProperties = some t) :
    t ∈ s.parts := by simp [parts, h]

theorem mem_parts_of_anyOf {s t : Schema} {ss : List Schema} (h : s.anyOf = some ss)
    (ht : t ∈ ss) : t ∈ s.parts := by simp [parts, h, ht]

theorem mem_parts_of_allOf {s t : Schema} {ss : List Schema} (h : s.allOf = some ss)
    (ht : t ∈ ss) : t ∈ s.parts := by simp [parts, h, ht]

def HasDistinctKeys (s : Schema) : Prop := ∀ ps, s.properties = some ps → (ps.map (·.1)).Nodup

theorem hasDistinctKeys_of_none {s : Schema} (h : s.properties = none) : HasDistinctKeys s := by
  intro ps hps
  rw [h] at hps
  cases hps

theorem sameList_iff {ss ts : List Schema} :
    sameList ss ts = true ↔ List.Forall₂ (fun s t => s.same t = true) ss ts := by
  induction ss generalizing ts with
  | nil => cases ts <;> simp [sameList]
  | cons s ss ih => cases ts <;> simp [sameList, ih]

theorem propertiesIn_iff {ps qs : List (String × Schema)} :
    propertiesIn ps qs = true ↔
      ∀ p ∈ ps, ∃ t, Keyed.lookup p.1 qs = some t ∧ p.2.same t = true := by
  induction ps with
  | nil => simp [propertiesIn]
  | cons p ps ih =>
    rw [propertiesIn, Bool.and_eq_true, ih, List.forall_mem_cons]
    cases Keyed.lookup p.1 qs <;> simp

theorem lookup_eq_some_of_nodup {α : Type} {ps : List (String × α)} (h : (ps.map (·.1)).Nodup)
    {k : String} {a : α} (hk : (k, a) ∈ ps) : Keyed.lookup k ps = some a := by
  induction ps with
  | nil => simp at hk
  | cons p ps ih =>
    rw [List.map_cons, List.nodup_cons] at h
    rcases List.mem_cons.1 hk with rfl | hk
    · simp [Keyed.lookup]
    · have hne : k ≠ p.1 := fun e => h.1 (e ▸ List.mem_map_of_mem hk)
      simp [Keyed.lookup, hne, ih h.2 hk]

theorem exists_same_of_sameProperties {ps qs : List (String × Schema)}
    (hps : (ps.map (·.1)).Nodup) (h : sameProperties (some ps) (some qs) = true) :
    (∀ p ∈ ps, ∃ t, (p.1, t) ∈ qs ∧ p.2.same t = true) ∧
      ∀ q ∈ qs, ∃ s, (q.1, s) ∈ ps ∧ s.same q.2 = true := by
  simp only [sameProperties, Bool.and_eq_true, beq_iff_eq, propertiesIn_iff] at h
  obtain ⟨hlen, hin⟩ := h
  refine ⟨fun p hp => ?_, fun q hq => ?_⟩
  · obtain ⟨t, ht, hs⟩ := hin p hp
    exact ⟨t, Keyed.mem_of_lookup ht, hs⟩
  · have hsub : ps.map (·.1) ⊆ qs.map (·.1) := fun k hk => by
      obtain ⟨p, hp, rfl⟩ := List.mem_map.1 hk
      obtain ⟨t, ht, -⟩ := hin p hp
      exact List.mem_map.2 ⟨_, Keyed.mem_of_lookup ht, rfl⟩
    -- as many keys on both sides, so the keys of `qs` are distinct too
    have hperm : (ps.map (·.1)).Perm (qs.map (·.1)) :=
      (List.subperm_of_subset hps hsub).perm_of_length_le (by simp [hlen])
    have hqs : (qs.map (·.1)).Nodup := hperm.nodup_iff.1 hps
    obtain ⟨p, hp, hk⟩ := List.mem_map.1 (hperm.mem_iff.2 (List.mem_map_of_mem (f := (·.1)) hq))
    obtain ⟨t, ht, hs⟩ := hin p hp
    rw [hk, lookup_eq_some_of_nodup hqs hq] at ht
    exact ⟨p.2, hk ▸ hp, Option.some.inj ht ▸ hs⟩

theorem exists_right_of_mem {α β : Type} {R : α → β → Prop} {xs : List α} {ys : List β}
    (h : List.Forall₂ R xs ys) {x : α} (hx : x ∈ xs) : ∃ y ∈ ys, R x y := by
  induction h with
  | nil => simp at hx
  | cons h _ ih =>
    rcases List.mem_cons.1 hx with rfl | hx
    · exact ⟨_, List.mem_cons_self, h⟩
    · obtain ⟨y, hy, hxy⟩ := ih hx
      exact ⟨y, List.mem_cons_of_mem _ hy, hxy⟩

theorem exists_left_of_mem {α β : Type} {R : α → β → Prop} {xs : List α} {ys : List β}
    (h : List.Forall₂ R xs ys) {y : β} (hy : y ∈ ys) : ∃ x ∈ xs, R x y :=
  exists_right_of_mem h.flip hy

def Alike (s t : Schema) : Prop := ∀ v, s.Accepts v ↔ t.Accepts v

def RelProperties (R : Schema → Schema → Prop) (ps qs : List (String × Schema)) : Prop :=
  (∀ p ∈ ps, ∃ t, (p.1, t) ∈ qs ∧ R p.2 t) ∧ ∀ q ∈ qs, ∃ s, (q.1, s) ∈ ps ∧ R s q.2

variable {R : Schema → Schema → Prop}

theorem rel_of_sameOption {x y : Option Schema} (h : sameOption x y = true)
    (hR : ∀ s ∈ x.toList, ∀ t, s.same t = true → R s t) : Option.Rel R x y := by
  cases x <;> cases y <;> simp_all [sameOption]

theorem rel_of_sameLists {x y : Option (List Schema)} (h : sameLists x y = true)
    (hR : ∀ s ∈ x.getD [], ∀ t, s.same t = true → R s t) :
    Option.Rel (List.Forall₂ R) x y := by
  cases x with
  | none => cases y <;> simp_all [sameLists]
  | some ss =>
    cases y with
    | none => simp [sameLists] at h
    | some ts =>
      have hsame : List.Forall₂ (fun s t => s.same t = true) ss ts := by
        simpa [sameLists, sameList_iff] using h
      refine .some (((List.forall₂_and_left _ _).2 ⟨hR, hsame⟩).imp fun s t hs => ?_)
      exact hs.1 t hs.2

theorem rel_of_sameProperties {x y : Option (List (String × Schema))}
    (hkeys : ∀ ps, x = some ps → (ps.map (·.1)).Nodup) (h : sameProperties x y = true)
    (hR : ∀ p ∈ x.getD [], ∀ t, p.2.same t = true → R p.2 t) :
    Option.Rel (RelProperties R) x y := by
  cases x with
  | none => cases y <;> simp_all [sameProperties]
  | some ps =>
    cases y with
    | none => simp [sameProperties] at h
    | some qs =>
      obtain ⟨hleft, hright⟩ := exists_same_of_sameProperties (hkeys ps rfl) h
      refine .some ⟨fun p hp => ?_, fun q hq => ?_⟩
      · obtain ⟨t, ht, hs⟩ := hleft p hp
        exact ⟨t, ht, hR p hp t hs⟩
      · obtain ⟨s, hs, ht⟩ := hright q hq
        exact ⟨s, hs, hR (q.1, s) hs q.2 ht⟩

theorem rel_of_sameJson {v w : Option Json} (h : sameJson v w = true) :
    Option.Rel (fun v w => v.canonical = w.canonical) v w := by
  cases v <;> cases w <;> simp_all [sameJson]
  exact Json.canonical_of_same _ _ h

theorem same_iff {s t : Schema} : s.same t = true ↔
    s.type = t.type ∧ s.title = t.title ∧ s.description = t.description ∧
    sameJson s.const t.const = true ∧ sameProperties s.properties t.properties = true ∧
    s.required = t.required ∧ sameOption s.items t.items = true ∧
    sameLists s.prefixItems t.prefixItems = true ∧ s.minItems = t.minItems ∧
    s.maxItems = t.maxItems ∧ sameOption s.additionalProperties t.additionalProperties = true ∧
    sameLists s.anyOf t.anyOf = true ∧ sameLists s.allOf t.allOf = true ∧
    sameJson s.default t.default = true := by
  cases s
  simp [same, and_assoc]

theorem forall_eq_some_congr {α : Type} {R : α → α → Prop} {P Q : α → Prop} {x y : Option α}
    (h : Option.Rel R x y) (hpq : ∀ a b, R a b → (P a ↔ Q b)) :
    (∀ a, x = some a → P a) ↔ ∀ b, y = some b → Q b := by
  cases h with
  | none => simp
  | some h => simpa using hpq _ _ h

theorem exists_mem_iff_of_alike {ss ts : List Schema} (h : List.Forall₂ Alike ss ts) (v : Json) :
    (∃ s ∈ ss, s.Accepts v) ↔ ∃ t ∈ ts, t.Accepts v := by
  induction h with
  | nil => simp
  | cons h _ ih => simp only [List.exists_mem_cons_iff, h v, ih]

theorem forall_mem_iff_of_alike {ss ts : List Schema} (h : List.Forall₂ Alike ss ts) (v : Json) :
    (∀ s ∈ ss, s.Accepts v) ↔ ∀ t ∈ ts, t.Accepts v := by
  induction h with
  | nil => simp
  | cons h _ ih => simp only [List.forall_mem_cons, h v, ih]

theorem rel_getElem? {α β : Type} {R : α → β → Prop} {xs : List α} {ys : List β}
    (h : List.Forall₂ R xs ys) (i : Nat) : Option.Rel R xs[i]? ys[i]? := by
  induction h generalizing i with
  | nil => simp
  | cons h _ ih =>
    cases i with
    | zero => exact .some h
    | succ i => exact ih i

theorem getElem?_right {α β : Type} {R : α → β → Prop} {xs : List α} {ys : List β}
    (h : List.Forall₂ R xs ys) {i : Nat} {x : α} (hx : xs[i]? = some x) :
    ∃ y, ys[i]? = some y ∧ R x y := by
  have hi := rel_getElem? h i
  rw [hx] at hi
  generalize ys[i]? = y at hi
  cases hi with
  | some hxy => exact ⟨_, rfl, hxy⟩

theorem forall_properties_iff_of_alike {ps qs : List (String × Schema)}
    (h : RelProperties Alike ps qs) (m : Keyed Json) :
    (∀ p ∈ ps, ∀ x, m.find? p.1 = some x → p.2.Accepts x) ↔
      ∀ q ∈ qs, ∀ x, m.find? q.1 = some x → q.2.Accepts x := by
  constructor
  · intro hps q hq x hx
    obtain ⟨s, hs, hst⟩ := h.2 q hq
    exact (hst x).1 (hps _ hs x hx)
  · intro hqs p hp x hx
    obtain ⟨t, ht, hst⟩ := h.1 p hp
    exact (hst x).2 (hqs _ ht x hx)

theorem forall_ne_iff_of_alike {x y : Option (List (String × Schema))}
    (h : Option.Rel (RelProperties Alike) x y) (k : String) :
    (∀ p ∈ x.getD [], p.1 ≠ k) ↔ ∀ q ∈ y.getD [], q.1 ≠ k := by
  cases h with
  | none => rfl
  | @some ps qs h =>
    constructor
    · intro hps q hq
      obtain ⟨s, hs, -⟩ := h.2 q hq
      exact hps (q.1, s) hs
    · intro hqs p hp
      obtain ⟨t, ht, -⟩ := h.1 p hp
      exact hqs (p.1, t) ht

theorem length_getD_of_alike {x y : Option (List Schema)}
    (h : Option.Rel (List.Forall₂ Alike) x y) :
    (x.getD []).length = (y.getD []).length := by
  cases h with
  | none => rfl
  | some h => exact h.length_eq

theorem forall_prefix_iff_of_alike {ss ts : List Schema} (h : List.Forall₂ Alike ss ts)
    (xs : List Json) :
    (∀ (i : Nat) s x, ss[i]? = some s → xs[i]? = some x → s.Accepts x) ↔
      ∀ (i : Nat) t x, ts[i]? = some t → xs[i]? = some x → t.Accepts x := by
  refine forall_congr' fun i => ?_
  have hi := rel_getElem? h i
  generalize ss[i]? = s at hi
  generalize ts[i]? = t at hi
  cases hi with
  | none => simp
  | @some s t hst =>
    simp only [Option.some.injEq]
    exact ⟨fun h _ x ht hx => ht ▸ (hst x).1 (h s x rfl hx),
      fun h _ x hs hx => hs ▸ (hst x).2 (h t x rfl hx)⟩

theorem alike_of_same {s t : Schema} (hkeys : Everywhere HasDistinctKeys s)
    (h : s.same t = true) : Alike s t := by
  induction hkeys generalizing t with
  | @intro s hs hparts ih =>
    obtain ⟨htype, -, -, hconst, hprops, hreq, hitems, hprefix, hmin, hmax, hadd, hany, hall, -⟩ :=
      same_iff.1 h
    simp only [parts, List.mem_append, List.mem_map] at ih
    have hconst := rel_of_sameJson hconst
    have hprops := rel_of_sameProperties hs hprops fun p hp t =>
      ih p.2 (.inl (.inl (.inl (.inl (.inl ⟨p, hp, rfl⟩)))))
    have hitems := rel_of_sameOption hitems fun s hs t =>
      ih s (.inl (.inl (.inl (.inl (.inr hs)))))
    have hprefix := rel_of_sameLists hprefix fun s hs t =>
      ih s (.inl (.inl (.inl (.inr hs))))
    have hadd := rel_of_sameOption hadd fun s hs t => ih s (.inl (.inl (.inr hs)))
    have hany := rel_of_sameLists hany fun s hs t => ih s (.inl (.inr hs))
    have hall := rel_of_sameLists hall fun s hs t => ih s (.inr hs)
    intro v
    rw [accepts_iff s, accepts_iff t, AcceptsBy, AcceptsBy, htype, hreq, hmin, hmax,
      length_getD_of_alike hprefix]
    refine and_congr_right' (and_congr ?_ (and_congr ?_ (and_congr_right' (and_congr ?_ (and_congr ?_
      (and_congr_right' (and_congr_right' (and_congr ?_ (and_congr ?_ ?_)))))))))
    · exact forall_eq_some_congr hconst fun c c' hc => by rw [Json.Equals, Json.Equals, hc]
    · exact forall_eq_some_congr hprops fun _ _ h => forall_properties_iff_of_alike h _
    · exact forall_eq_some_congr hprefix fun _ _ h => forall_prefix_iff_of_alike h _
    · exact forall_eq_some_congr hitems fun _ _ h => forall₂_congr fun x _ => h x
    · simp only [forall_ne_iff_of_alike hprops]
      exact forall_eq_some_congr hadd fun _ _ h =>
        forall₃_congr fun k x _ => imp_congr_right fun _ => h x
    · exact forall_eq_some_congr hany fun _ _ h => exists_mem_iff_of_alike h v
    · exact forall_eq_some_congr hall fun _ _ h => forall_mem_iff_of_alike h v

theorem exists_mem_toList_of_rel {x y : Option Schema} (h : Option.Rel R x y) {t : Schema}
    (ht : t ∈ y.toList) : ∃ s ∈ x.toList, R s t := by
  cases h with
  | none => simp at ht
  | some h =>
    obtain rfl := List.mem_singleton.1 ht
    exact ⟨_, List.mem_singleton_self _, h⟩

theorem exists_mem_getD_of_rel {x y : Option (List Schema)}
    (h : Option.Rel (List.Forall₂ R) x y) {t : Schema} (ht : t ∈ y.getD []) :
    ∃ s ∈ x.getD [], R s t := by
  cases h with
  | none => simp at ht
  | some h => exact exists_left_of_mem h ht

theorem exists_part_of_same {s t : Schema} (hkeys : HasDistinctKeys s) (h : s.same t = true)
    {q : Schema} (hq : q ∈ t.parts) : ∃ p ∈ s.parts, p.same q = true := by
  obtain ⟨-, -, -, -, hprops, -, hitems, hprefix, -, -, hadd, hany, hall, -⟩ := same_iff.1 h
  let R : Schema → Schema → Prop := fun p q => p.same q = true
  have hprops := rel_of_sameProperties (R := R) hkeys hprops fun _ _ _ h => h
  have hitems := rel_of_sameOption (R := R) hitems fun _ _ _ h => h
  have hprefix := rel_of_sameLists (R := R) hprefix fun _ _ _ h => h
  have hadd := rel_of_sameOption (R := R) hadd fun _ _ _ h => h
  have hany := rel_of_sameLists (R := R) hany fun _ _ _ h => h
  have hall := rel_of_sameLists (R := R) hall fun _ _ _ h => h
  simp only [parts, List.mem_append, List.mem_map] at hq ⊢
  rcases hq with ((((⟨q, hq, rfl⟩ | hq) | hq) | hq) | hq) | hq
  · obtain ⟨p, hp, hpq⟩ : ∃ p, (q.1, p) ∈ s.properties.getD [] ∧ p.same q.2 = true := by
      generalize s.properties = x at hprops
      generalize t.properties = y at hq hprops
      cases hprops with
      | none => simp at hq
      | some h => exact h.2 q hq
    exact ⟨p, .inl (.inl (.inl (.inl (.inl ⟨_, hp, rfl⟩)))), hpq⟩
  · obtain ⟨p, hp, hpq⟩ := exists_mem_toList_of_rel hitems hq
    exact ⟨p, .inl (.inl (.inl (.inl (.inr hp)))), hpq⟩
  · obtain ⟨p, hp, hpq⟩ := exists_mem_getD_of_rel hprefix hq
    exact ⟨p, .inl (.inl (.inl (.inr hp))), hpq⟩
  · obtain ⟨p, hp, hpq⟩ := exists_mem_toList_of_rel hadd hq
    exact ⟨p, .inl (.inl (.inr hp)), hpq⟩
  · obtain ⟨p, hp, hpq⟩ := exists_mem_getD_of_rel hany hq
    exact ⟨p, .inl (.inr hp), hpq⟩
  · obtain ⟨p, hp, hpq⟩ := exists_mem_getD_of_rel hall hq
    exact ⟨p, .inr hp, hpq⟩

theorem Everywhere.of_same {P : Schema → Prop}
    (hP : ∀ s t : Schema, s.same t = true → P s → P t) {s t : Schema}
    (hkeys : Everywhere HasDistinctKeys s) (h : s.same t = true) (hs : Everywhere P s) :
    Everywhere P t := by
  induction hkeys generalizing t with
  | @intro s hdistinct _ ih =>
    obtain ⟨hroot, hparts⟩ := everywhere_iff.1 hs
    refine .intro (hP s t h hroot) fun q hq => ?_
    obtain ⟨p, hp, hpq⟩ := exists_part_of_same hdistinct h hq
    exact ih p hp hpq (hparts p hp)

end Schema

end ToolCatalog
