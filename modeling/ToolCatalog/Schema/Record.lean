import ToolCatalog.Schema.Basic

/-!
# Schemas in documents

A schema is an object with the keywords it has, in a fixed order. Reading a null
for a constant or a default gives none.
-/

namespace ToolCatalog

open Json

namespace Primitive

def name : Primitive → String
  | null => "null"
  | boolean => "boolean"
  | number => "number"
  | string => "string"
  | object => "object"
  | array => "array"

def ofName? (s : String) : Option Primitive :=
  [null, boolean, number, string, object, array].find? (·.name == s)

theorem ofName?_name (p : Primitive) : ofName? p.name = some p := by cases p <;> rfl

def ofJson? (j : Json) : Option Primitive := (tag? j).bind ofName?

end Primitive

namespace TypeKeyword

def toJson : TypeKeyword → Json
  | one p => .str p.name
  | several ps => .arr (ps.map fun p => .str p.name)

def ofJson? : Json → Option TypeKeyword
  | .arr xs => (xs.mapM Primitive.ofJson?).map several
  | j => (Primitive.ofJson? j).map one

end TypeKeyword

namespace Schema

def natToJson (n : Nat) : Json := .int n

mutual

def toJson : Schema → Json
  | ⟨ty, ti, de, co, pr, re, it, pf, mi, ma, ad, an, al, df⟩ =>
    .obj (field? TypeKeyword.toJson "type" ty ++ field? .str "title" ti ++
      field? .str "description" de ++ field? id "const" co ++ propertiesField pr ++
      field? ofTexts "required" re ++ schemaField "items" it ++ listField "prefixItems" pf ++
      field? natToJson "minItems" mi ++ field? natToJson "maxItems" ma ++
      schemaField "additionalProperties" ad ++ listField "anyOf" an ++ listField "allOf" al ++
      field? id "default" df)

def schemaField (k : String) : Option Schema → Members
  | none => []
  | some s => [(k, s.toJson)]

def listField (k : String) : Option (List Schema) → Members
  | none => []
  | some ss => [(k, .arr (itemsToJson ss))]

def propertiesField : Option (List (String × Schema)) → Members
  | none => []
  | some ps => [("properties", .obj (propertiesToJson ps))]

def itemsToJson : List Schema → List Json
  | [] => []
  | s :: ss => s.toJson :: itemsToJson ss

def propertiesToJson : List (String × Schema) → Members
  | [] => []
  | (k, s) :: ps => (k, s.toJson) :: propertiesToJson ps

end

def keywords : List String :=
  ["type", "title", "description", "const", "properties", "required", "items", "prefixItems",
    "minItems", "maxItems", "additionalProperties", "anyOf", "allOf", "default"]

mutual

def ofJson? : Json → Option Schema
  | .obj ms =>
    if distinctKeys keywords ms then
      (optional? TypeKeyword.ofJson? "type" ms).bind fun type =>
      (optional? string? "title" ms).bind fun title =>
      (optional? string? "description" ms).bind fun description =>
      (optional? any? "const" ms).bind fun const =>
      (propertiesOf? ms).bind fun properties =>
      (optional? (list? string?) "required" ms).bind fun required =>
      (schemaOf? "items" ms).bind fun items =>
      (listOf? "prefixItems" ms).bind fun prefixItems =>
      (optional? nat? "minItems" ms).bind fun minItems =>
      (optional? nat? "maxItems" ms).bind fun maxItems =>
      (schemaOf? "additionalProperties" ms).bind fun additionalProperties =>
      (listOf? "anyOf" ms).bind fun anyOf =>
      (listOf? "allOf" ms).bind fun allOf =>
      (optional? any? "default" ms).bind fun default =>
      some ⟨type, title, description, const, properties, required, items, prefixItems, minItems,
        maxItems, additionalProperties, anyOf, allOf, default⟩
    else none
  | _ => none

def schemaOf? (k : String) : List (String × Json) → Option (Option Schema)
  | [] => some none
  | (l, j) :: ms =>
    if k = l then (if j.isNull then some none else (ofJson? j).map some) else schemaOf? k ms

def listOf? (k : String) : List (String × Json) → Option (Option (List Schema))
  | [] => some none
  | (l, j) :: ms => if k = l then itemsOf? j else listOf? k ms

def itemsOf? : Json → Option (Option (List Schema))
  | .null => some none
  | .arr xs => (items? xs).map some
  | _ => none

def propertiesOf? : List (String × Json) → Option (Option (List (String × Schema)))
  | [] => some none
  | (l, j) :: ms => if l = "properties" then mapOf? j else propertiesOf? ms

def mapOf? : Json → Option (Option (List (String × Schema)))
  | .null => some none
  | .obj ps => (entriesOf? ps).map fun es => some (putProperties es)
  | _ => none

def items? : List Json → Option (List Schema)
  | [] => some []
  | x :: xs => (ofJson? x).bind fun s => (items? xs).map (s :: ·)

def entriesOf? : List (String × Json) → Option (List (String × Schema))
  | [] => some []
  | (k, j) :: ps => (ofJson? j).bind fun s => (entriesOf? ps).map ((k, s) :: ·)

end

end Schema

namespace CallSchema

def toMembers (c : CallSchema) : Members :=
  field? .str "name" c.name ++ field? .str "description" c.description ++
    field? Schema.toJson "parameters" c.parameters ++ [("returns", c.returns.toJson)]

def toJson (c : CallSchema) : Json := .obj c.toMembers

def keys : List String := ["name", "description", "parameters", "returns"]

def ofMembers? (ms : Members) : Option CallSchema := do
  return {
    name := ← optional? string? "name" ms
    description := ← optional? string? "description" ms
    parameters := ← optional? Schema.ofJson? "parameters" ms
    returns := ← required? Schema.ofJson? "returns" ms }

def ofJson? (j : Json) : Option CallSchema := (record? keys j).bind ofMembers?

end CallSchema

end ToolCatalog
