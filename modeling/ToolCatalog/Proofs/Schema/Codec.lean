import ToolCatalog.Proofs.Json.Fields
import ToolCatalog.Proofs.Schema.Forms
import ToolCatalog.Schema.Record

/-!
# Schemas are read back

A schema that is written and read comes back with each keyword it had, at every level:
its properties in their order, its type as one name or as a list. Only a constant or a
default that is null is lost, for a reader cannot tell it from none.
-/

namespace ToolCatalog

open Json

theorem Primitive.ofJson?_name (p : Primitive) : Primitive.ofJson? (.str p.name) = some p :=
  p.ofName?_name

theorem TypeKeyword.ofJson?_toJson (t : TypeKeyword) : ofJson? t.toJson = some t := by
  cases t with
  | one p => exact congrArg (Option.map one) p.ofJson?_name
  | several ps => exact congrArg (Option.map several) (list?_written fun p _ => p.ofJson?_name)

theorem TypeKeyword.spellable_toJson (t : TypeKeyword) : t.toJson.Spellable := by
  cases t with
  | one p => trivial
  | several ps =>
    rw [toJson, spellable_arr, List.forall_mem_map]
    exact fun _ _ => trivial

namespace Schema

theorem putProperty_of_notMem {α : Type} {k : String} (a : α) {ps : List (String × α)}
    (h : k ∉ ps.map (·.1)) : putProperty k a ps = ps ++ [(k, a)] := by
  induction ps with
  | nil => rfl
  | cons p ps ih =>
    rw [List.map_cons, List.mem_cons, not_or] at h
    rw [putProperty, if_neg h.1, ih h.2, List.cons_append]

theorem foldl_putProperty {α : Type} (ps acc : List (String × α))
    (h : ((acc ++ ps).map (·.1)).Nodup) :
    ps.foldl (fun acc p => putProperty p.1 p.2 acc) acc = acc ++ ps := by
  induction ps generalizing acc with
  | nil => rw [List.foldl_nil, List.append_nil]
  | cons p ps ih =>
    have hp : p.1 ∉ acc.map (·.1) := by
      rw [List.map_append, List.map_cons, List.nodup_append] at h
      exact fun hmem => h.2.2 _ hmem _ List.mem_cons_self rfl
    have hassoc : acc ++ [(p.1, p.2)] ++ ps = acc ++ p :: ps := by
      rw [List.append_assoc, List.singleton_append]
    rw [List.foldl_cons, putProperty_of_notMem p.2 hp, ih _ (hassoc ▸ h), hassoc]

theorem putProperties_of_nodup {α : Type} {ps : List (String × α)} (h : (ps.map (·.1)).Nodup) :
    putProperties ps = ps := foldl_putProperty ps [] h

def valued (v : Option Json) : Option Json := v.filter fun v => !v.isNull

section Values

variable (f : Option Json → Option Json)

mutual

def mapValues : Schema → Schema
  | ⟨ty, ti, de, co, pr, re, it, pf, mi, ma, ad, an, al, df⟩ =>
    ⟨ty, ti, de, f co, mapProperties pr, re, mapOption it, mapList pf, mi, ma, mapOption ad,
      mapList an, mapList al, f df⟩

def mapOption : Option Schema → Option Schema
  | none => none
  | some s => some s.mapValues

def mapList : Option (List Schema) → Option (List Schema)
  | none => none
  | some ss => some (mapItems ss)

def mapProperties : Option (List (String × Schema)) → Option (List (String × Schema))
  | none => none
  | some ps => some (mapEntries ps)

def mapItems : List Schema → List Schema
  | [] => []
  | s :: ss => s.mapValues :: mapItems ss

def mapEntries : List (String × Schema) → List (String × Schema)
  | [] => []
  | (k, s) :: ps => (k, s.mapValues) :: mapEntries ps

end

variable {f}

theorem mapItems_eq_map (ss : List Schema) : mapItems f ss = ss.map (mapValues f) := by
  induction ss with
  | nil => rfl
  | cons s ss ih => rw [mapItems, ih, List.map_cons]

theorem mapEntries_eq_map (ps : List (String × Schema)) :
    mapEntries f ps = ps.map fun p => (p.1, p.2.mapValues f) := by
  induction ps with
  | nil => rfl
  | cons p ps ih => rw [mapEntries, ih, List.map_cons]

theorem mapOption_eq_map (s : Option Schema) : mapOption f s = s.map (mapValues f) := by
  cases s <;> rfl

theorem mapList_eq_map (ss : Option (List Schema)) :
    mapList f ss = ss.map (List.map (mapValues f)) := by
  cases ss with
  | none => rfl
  | some ss => exact congrArg some (mapItems_eq_map ss)

theorem mapProperties_eq_map (ps : Option (List (String × Schema))) :
    mapProperties f ps = ps.map (List.map fun p => (p.1, p.2.mapValues f)) := by
  cases ps with
  | none => rfl
  | some ps => exact congrArg some (mapEntries_eq_map ps)

theorem mapValues_eq (s : Schema) : s.mapValues f =
    { s with
      const := f s.const
      properties := s.properties.map (List.map fun p => (p.1, p.2.mapValues f))
      items := s.items.map (mapValues f)
      prefixItems := s.prefixItems.map (List.map (mapValues f))
      additionalProperties := s.additionalProperties.map (mapValues f)
      anyOf := s.anyOf.map (List.map (mapValues f))
      allOf := s.allOf.map (List.map (mapValues f))
      default := f s.default } := by
  cases s
  simp only [mapValues, mapProperties_eq_map, mapOption_eq_map, mapList_eq_map]

end Values

def withoutNulls : Schema → Schema := mapValues valued

theorem itemsToJson_eq_map (ss : List Schema) : itemsToJson ss = ss.map toJson := by
  induction ss with
  | nil => rfl
  | cons s ss ih => rw [itemsToJson, ih, List.map_cons]

theorem propertiesToJson_eq_map (ps : List (String × Schema)) :
    propertiesToJson ps = ps.map fun p => (p.1, p.2.toJson) := by
  induction ps with
  | nil => rfl
  | cons p ps ih => rw [propertiesToJson, ih, List.map_cons]

def arrayToJson (ss : List Schema) : Json := .arr (ss.map toJson)

def objectToJson (ps : List (String × Schema)) : Json := .obj (ps.map fun p => (p.1, p.2.toJson))

theorem schemaField_eq_present (k : String) (s : Option Schema) :
    schemaField k s = present [(k, s.map toJson)] := by
  cases s <;> rfl

theorem listField_eq_present (k : String) (ss : Option (List Schema)) :
    Schema.listField k ss = present [(k, ss.map arrayToJson)] := by
  cases ss with
  | none => rfl
  | some ss =>
    rw [Schema.listField, itemsToJson_eq_map]
    rfl

theorem propertiesField_eq_present (ps : Option (List (String × Schema))) :
    propertiesField ps = present [("properties", ps.map objectToJson)] := by
  cases ps with
  | none => rfl
  | some ps =>
    rw [propertiesField, propertiesToJson_eq_map]
    rfl

def fields (s : Schema) : List (String × Option Json) :=
  [("type", s.type.map TypeKeyword.toJson), ("title", s.title.map .str),
    ("description", s.description.map .str), ("const", s.const),
    ("properties", s.properties.map objectToJson), ("required", s.required.map ofTexts),
    ("items", s.items.map toJson), ("prefixItems", s.prefixItems.map arrayToJson),
    ("minItems", s.minItems.map natToJson), ("maxItems", s.maxItems.map natToJson),
    ("additionalProperties", s.additionalProperties.map toJson),
    ("anyOf", s.anyOf.map arrayToJson), ("allOf", s.allOf.map arrayToJson),
    ("default", s.default)]

theorem nodup_fields (s : Schema) : (s.fields.map (·.1)).Nodup := by
  show keywords.Nodup
  decide

theorem toJson_eq_present (s : Schema) : s.toJson = .obj (present s.fields) := by
  cases s
  simp only [toJson, field?_eq_present, schemaField_eq_present, listField_eq_present,
    propertiesField_eq_present, ← present_append, Option.map_id]
  rfl

theorem items?_eq_mapM (xs : List Json) : items? xs = xs.mapM ofJson? := by
  induction xs with
  | nil => rfl
  | cons x xs ih =>
    rw [items?, ih, List.mapM_cons]
    simp [Option.map_eq_bind]

theorem entriesOf?_eq_entries? (ms : Members) : entriesOf? ms = entries? ofJson? (.obj ms) := by
  rw [entries?]
  induction ms with
  | nil => rfl
  | cons m ms ih =>
    rw [entriesOf?, ih, List.mapM_cons]
    cases ofJson? m.2 <;> simp [Option.map_eq_bind]

def object? (j : Json) : Option (List (String × Schema)) :=
  (entries? ofJson? j).map putProperties

theorem schemaOf?_eq_optional? (k : String) (ms : Members) :
    schemaOf? k ms = optional? ofJson? k ms := by
  induction ms with
  | nil => rfl
  | cons m ms ih =>
    rw [schemaOf?, ih, optional?, optional?, Keyed.lookup]
    split
    · cases m.2 <;> rfl
    · rfl

theorem listOf?_eq_optional? (k : String) (ms : Members) :
    listOf? k ms = optional? (list? ofJson?) k ms := by
  induction ms with
  | nil => rfl
  | cons m ms ih =>
    rw [listOf?, ih, optional?, optional?, Keyed.lookup]
    split
    · cases m.2 with
      | arr xs => exact congrArg (Option.map some) (items?_eq_mapM xs)
      | _ => rfl
    · rfl

theorem propertiesOf?_eq_optional? (ms : Members) :
    propertiesOf? ms = optional? object? "properties" ms := by
  induction ms with
  | nil => rfl
  | cons m ms ih =>
    rw [propertiesOf?, ih, optional?, optional?, Keyed.lookup]
    by_cases hk : m.1 = "properties"
    · rw [if_pos hk, if_pos hk.symm]
      cases m.2 with
      | obj ps =>
        rw [mapOf?, entriesOf?_eq_entries?]
        cases h : entries? ofJson? (.obj ps) <;> simp [object?, h]
      | _ => rfl
    · rw [if_neg hk, if_neg fun e => hk e.symm]

theorem ofJson?_obj (ms : Members) : ofJson? (.obj ms) =
    if distinctKeys keywords ms then
      (optional? TypeKeyword.ofJson? "type" ms).bind fun type =>
      (optional? string? "title" ms).bind fun title =>
      (optional? string? "description" ms).bind fun description =>
      (optional? any? "const" ms).bind fun const =>
      (optional? object? "properties" ms).bind fun properties =>
      (optional? (list? string?) "required" ms).bind fun required =>
      (optional? ofJson? "items" ms).bind fun items =>
      (optional? (list? ofJson?) "prefixItems" ms).bind fun prefixItems =>
      (optional? nat? "minItems" ms).bind fun minItems =>
      (optional? nat? "maxItems" ms).bind fun maxItems =>
      (optional? ofJson? "additionalProperties" ms).bind fun additionalProperties =>
      (optional? (list? ofJson?) "anyOf" ms).bind fun anyOf =>
      (optional? (list? ofJson?) "allOf" ms).bind fun allOf =>
      (optional? any? "default" ms).bind fun default =>
      some ⟨type, title, description, const, properties, required, items, prefixItems, minItems,
        maxItems, additionalProperties, anyOf, allOf, default⟩
    else none := by
  rw [← schemaOf?_eq_optional?, ← schemaOf?_eq_optional?, ← listOf?_eq_optional?,
    ← listOf?_eq_optional?, ← listOf?_eq_optional?, ← propertiesOf?_eq_optional?]
  rfl

theorem nat?_natToJson (n : Nat) :
    (natToJson n).isNull = false ∧ nat? (natToJson n) = some n := ⟨rfl, nat?_int n⟩

/-- What a schema in memory keeps to: constants and defaults are values, a property stands
once, and numbers of elements fit 64 bits. -/
structure ProperKeywords (s : Schema) : Prop where
  const : ∀ v ∈ s.const, v.Proper
  default : ∀ v ∈ s.default, v.Proper
  properties : s.HasDistinctKeys
  minItems : ∀ n ∈ s.minItems, n < 2 ^ 64
  maxItems : ∀ n ∈ s.maxItems, n < 2 ^ 64

def Proper : Schema → Prop := Everywhere ProperKeywords

theorem isNull_toJson (s : Schema) : s.toJson.isNull = false := by
  rw [toJson_eq_present]
  rfl

theorem list?_arrayToJson {ss : List Schema}
    (h : ∀ s ∈ ss, ofJson? s.toJson = some s.withoutNulls) :
    (arrayToJson ss).isNull = false ∧
      list? ofJson? (arrayToJson ss) = some (ss.map withoutNulls) :=
  ⟨rfl, list?_map h⟩

theorem object?_objectToJson {ps : List (String × Schema)} (hkeys : (ps.map (·.1)).Nodup)
    (h : ∀ p ∈ ps, ofJson? p.2.toJson = some p.2.withoutNulls) :
    (objectToJson ps).isNull = false ∧
      object? (objectToJson ps) = some (ps.map fun p => (p.1, p.2.withoutNulls)) := by
  refine ⟨rfl, ?_⟩
  rw [object?, objectToJson, entries?_map h, Option.map_some, putProperties_of_nodup]
  rwa [List.map_map]

theorem ofJson?_toJson {s : Schema} (h : s.Proper) : ofJson? s.toJson = some s.withoutNulls := by
  induction h with
  | @intro s hs _ ih =>
    have hfs := s.nodup_fields
    have htype := optional?_field hfs (k := "type") (o := s.type) (by simp [fields])
      fun t _ => ⟨by cases t <;> rfl, t.ofJson?_toJson⟩
    have htitle := optional?_text hfs (k := "title") (o := s.title) (by simp [fields])
    have hdescription := optional?_text hfs (k := "description") (o := s.description)
      (by simp [fields])
    have hconst := optional?_any_present hfs (k := "const") (by simp [fields]) hs.const
    have hproperties := optional?_present hfs (k := "properties") (o := s.properties)
      (by simp [fields]) fun ps hps => object?_objectToJson (hs.properties ps hps) fun p hp =>
        ih p.2 (mem_parts_of_properties hps hp)
    have hrequired := optional?_field hfs (k := "required") (o := s.required)
      (by simp [fields]) fun ts _ => ⟨rfl, textsOf ts⟩
    have hitems := optional?_present hfs (k := "items") (o := s.items) (by simp [fields])
      fun t ht => ⟨t.isNull_toJson, ih t (mem_parts_of_items ht)⟩
    have hprefix := optional?_present hfs (k := "prefixItems") (o := s.prefixItems)
      (by simp [fields]) fun ss hss => list?_arrayToJson fun t ht =>
        ih t (mem_parts_of_prefixItems hss ht)
    have hmin := optional?_field hfs (k := "minItems") (o := s.minItems) (by simp [fields])
      fun n _ => nat?_natToJson n
    have hmax := optional?_field hfs (k := "maxItems") (o := s.maxItems) (by simp [fields])
      fun n _ => nat?_natToJson n
    have hadditional := optional?_present hfs (k := "additionalProperties")
      (o := s.additionalProperties) (by simp [fields])
      fun t ht => ⟨t.isNull_toJson, ih t (mem_parts_of_additionalProperties ht)⟩
    have hany := optional?_present hfs (k := "anyOf") (o := s.anyOf)
      (by simp [fields]) fun ss hss => list?_arrayToJson fun t ht =>
        ih t (mem_parts_of_anyOf hss ht)
    have hall := optional?_present hfs (k := "allOf") (o := s.allOf)
      (by simp [fields]) fun ss hss => list?_arrayToJson fun t ht =>
        ih t (mem_parts_of_allOf hss ht)
    have hdefault := optional?_any_present hfs (k := "default") (by simp [fields]) hs.default
    rw [toJson_eq_present, ofJson?_obj, if_pos (distinctKeys_present hfs _), htype, htitle,
      hdescription, hconst, hproperties, hrequired, hitems, hprefix, hmin, hmax, hadditional, hany,
      hall, hdefault, withoutNulls, mapValues_eq]
    rfl

theorem spellable_arrayToJson {ss : List Schema} (h : ∀ s ∈ ss, s.toJson.Spellable) :
    (arrayToJson ss).Spellable := by
  rw [arrayToJson, spellable_arr, List.forall_mem_map]
  exact h

theorem spellable_objectToJson {ps : List (String × Schema)} (h : ∀ p ∈ ps, p.2.toJson.Spellable) :
    (objectToJson ps).Spellable := by
  rw [objectToJson, spellable_obj, List.forall_mem_map]
  exact h

theorem spellable_toJson {s : Schema} (h : s.Proper) : s.toJson.Spellable := by
  induction h with
  | @intro s hs _ ih =>
    have hlist : ∀ ss, (∀ t ∈ ss, t ∈ s.parts) → (arrayToJson ss).Spellable := fun ss hss =>
      spellable_arrayToJson fun t ht => ih t (hss t ht)
    rw [toJson_eq_present, spellable_present]
    simp only [fields, List.forall_mem_cons]
    refine ⟨spellable_map fun t _ => t.spellable_toJson, spellable_map fun _ _ => trivial,
      spellable_map fun _ _ => trivial, fun v hv => (hs.const v hv).spellable,
      spellable_map fun ps hps => ?_, spellable_map fun ts _ => spellable_ofTexts ts,
      spellable_map fun t ht => ih t (mem_parts_of_items ht),
      spellable_map fun ss hss => hlist ss fun t => mem_parts_of_prefixItems hss,
      spellable_map fun n hn => spellable_nat (hs.minItems n hn),
      spellable_map fun n hn => spellable_nat (hs.maxItems n hn),
      spellable_map fun t ht => ih t (mem_parts_of_additionalProperties ht),
      spellable_map fun ss hss => hlist ss fun t => mem_parts_of_anyOf hss,
      spellable_map fun ss hss => hlist ss fun t => mem_parts_of_allOf hss,
      fun v hv => (hs.default v hv).spellable, nofun⟩
    exact spellable_objectToJson fun p hp => ih p.2 (mem_parts_of_properties hps hp)

end Schema

end ToolCatalog
