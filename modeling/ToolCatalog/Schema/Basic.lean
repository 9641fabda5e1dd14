import ToolCatalog.Json.Record

/-!
# Schemas

The part of JSON Schema that describes tools and prompts: a record of keywords,
each of which may be absent. Properties keep the order in which they came; two
schemas are the same whatever that order is.
-/

namespace ToolCatalog

inductive Primitive where
  | null
  | boolean
  | number
  | string
  | object
  | array
deriving DecidableEq

inductive TypeKeyword where
  | one (p : Primitive)
  | several (ps : List Primitive)
deriving DecidableEq

structure Schema where
  type : Option TypeKeyword := none
  title : Option String := none
  description : Option String := none
  const : Option Json := none
  properties : Option (List (String × Schema)) := none
  required : Option (List String) := none
  items : Option Schema := none
  prefixItems : Option (List Schema) := none
  minItems : Option Nat := none
  maxItems : Option Nat := none
  additionalProperties : Option Schema := none
  anyOf : Option (List Schema) := none
  allOf : Option (List Schema) := none
  default : Option Json := none

namespace Schema

instance : Inhabited Schema := ⟨{}⟩

def ofType (p : Primitive) : Schema := { type := some (.one p) }

def constant (v : Json) : Schema := { const := some v }

def arrayOf (items : Schema) : Schema := { ofType .array with items := some items }

/-- Kinds of values that a type of unknown shape takes; arrays are not among
them. -/
def openTypes : List Primitive := [.null, .boolean, .number, .string, .object]

def openEnded : Schema := { type := some (.several openTypes) }

def property? (s : Schema) (name : String) : Option Schema :=
  s.properties.bind (Keyed.lookup name)

def isRequired (s : Schema) (name : String) : Bool := s.required.any (·.contains name)

/-- The keywords of `top`, and those of `bottom` where it has none. -/
def overlay (bottom top : Schema) : Schema where
  type := top.type.or bottom.type
  title := top.title.or bottom.title
  description := top.description.or bottom.description
  const := top.const.or bottom.const
  properties := top.properties.or bottom.properties
  required := top.required.or bottom.required
  items := top.items.or bottom.items
  prefixItems := top.prefixItems.or bottom.prefixItems
  minItems := top.minItems.or bottom.minItems
  maxItems := top.maxItems.or bottom.maxItems
  additionalProperties := top.additionalProperties.or bottom.additionalProperties
  anyOf := top.anyOf.or bottom.anyOf
  allOf := top.allOf.or bottom.allOf
  default := top.default.or bottom.default

theorem overlay_empty (s : Schema) : s.overlay {} = s := by
  cases s; simp [overlay]

def putProperty {α : Type} (name : String) (s : α) : List (String × α) → List (String × α)
  | [] => [(name, s)]
  | p :: ps => if name = p.1 then (name, s) :: ps else p :: putProperty name s ps

theorem lookup_putProperty {α : Type} (name k : String) (s : α) (ps : List (String × α)) :
    Keyed.lookup k (putProperty name s ps) =
      if k = name then some s else Keyed.lookup k ps := by
  induction ps with
  | nil => rfl
  | cons p ps ih =>
    rw [putProperty]
    split
    · next h => by_cases hk : k = name <;> simp_all [Keyed.lookup]
    · next h =>
      by_cases hk : k = p.1
      · have : k ≠ name := fun e => h (e ▸ hk)
        simp [Keyed.lookup, hk, hk ▸ this]
      · simp [Keyed.lookup, hk, ih]

def putProperties {α : Type} (ps : List (String × α)) : List (String × α) :=
  ps.foldl (fun acc p => putProperty p.1 p.2 acc) []

def sameJson : Option Json → Option Json → Bool
  | none, none => true
  | some v, some w => v.same w
  | _, _ => false

mutual

def same : Schema → Schema → Bool
  | ⟨ty, ti, de, co, pr, re, it, pf, mi, ma, ad, an, al, df⟩, t =>
    ty == t.type && ti == t.title && de == t.description && sameJson co t.const &&
    sameProperties pr t.properties && re == t.required && sameOption it t.items &&
    sameLists pf t.prefixItems && mi == t.minItems && ma == t.maxItems &&
    sameOption ad t.additionalProperties && sameLists an t.anyOf && sameLists al t.allOf &&
    sameJson df t.default

def sameOption : Option Schema → Option Schema → Bool
  | none, none => true
  | some s, some t => s.same t
  | _, _ => false

def sameList : List Schema → List Schema → Bool
  | [], [] => true
  | s :: ss, t :: ts => s.same t && sameList ss ts
  | _, _ => false

def sameLists : Option (List Schema) → Option (List Schema) → Bool
  | none, none => true
  | some ss, some ts => sameList ss ts
  | _, _ => false

def propertiesIn : List (String × Schema) → List (String × Schema) → Bool
  | [], _ => true
  | (k, s) :: ps, qs =>
    (match Keyed.lookup k qs with
      | some t => s.same t
      | none => false) && propertiesIn ps qs

def sameProperties : Option (List (String × Schema)) → Option (List (String × Schema)) → Bool
  | none, none => true
  | some ps, some qs => ps.length == qs.length && propertiesIn ps qs
  | _, _ => false

end

end Schema

structure CallSchema where
  name : Option String := none
  description : Option String := none
  parameters : Option Schema := none
  returns : Schema

end ToolCatalog
