import ToolCatalog.Types.Basic

/-!
# Types in documents

An arena is an object with the list of its types. A type is an object with the
name of its shape and the keys of that shape, then its own name, its type
arguments and its doc.
-/

namespace ToolCatalog

open Json

namespace TypeRef

def toJson (id : TypeRef) : Json := .int id.index.toNat

def ofJson? (j : Json) : Option TypeRef := (word32? j).map TypeRef.mk

theorem ofJson?_toJson (id : TypeRef) : ofJson? id.toJson = some id := by
  simp [ofJson?, toJson, word32?_int]

def listToJson (ids : List TypeRef) : Json := .arr (ids.map toJson)

end TypeRef

namespace Parameter

def toJson (p : Parameter) : Json :=
  .obj ([("name", .str p.name), ("type", p.type.toJson), ("optional", .bool p.optional)] ++
    field? .str "doc" p.doc ++ field? Initializer.toJson "initializer" p.initializer)

def ofMembers? (form : KindForm) (ms : Members) : Option Parameter := do
  return {
    name := ← required? string? "name" ms
    type := ← required? TypeRef.ofJson? "type" ms
    optional := ← withDefault? bool? "optional" false ms
    doc := ← optional? string? "doc" ms
    initializer := ← optional? (Initializer.ofJson? form) "initializer" ms }

def ofJson? (form : KindForm) (j : Json) : Option Parameter :=
  (record? ["name", "type", "optional", "doc", "initializer"] j).bind (ofMembers? form)

end Parameter

namespace Member

def toJson (m : Member) : Json :=
  .obj ([("name", .str m.name), ("type", m.type.toJson), ("optional", .bool m.optional),
      ("symbol", .bool m.symbol)] ++
    field? .str "doc" m.doc ++ field? Initializer.toJson "initializer" m.initializer)

def ofJson? (j : Json) : Option Member := do
  let ms ← record? ["name", "type", "optional", "symbol", "doc", "initializer"] j
  let p ← Parameter.ofMembers? .nameOrPlace ms
  return { p with symbol := ← withDefault? bool? "symbol" false ms }

end Member

namespace Signature

def toJson (s : Signature) : Json :=
  .obj [("parameters", .arr (s.parameters.map Parameter.toJson)), ("returns", s.returns.toJson)]

def ofJson? (form : KindForm) (j : Json) : Option Signature := do
  let ms ← record? ["parameters", "returns"] j
  return {
    parameters := ← withDefault? (list? (Parameter.ofJson? form)) "parameters" [] ms
    returns := ← required? TypeRef.ofJson? "returns" ms }

end Signature

namespace SlotFlag

def name : SlotFlag → String
  | required => "required"
  | optional => "optional"
  | rest => "rest"

def ofName? (s : String) : Option SlotFlag :=
  [required, optional, rest].find? (·.name == s)

theorem ofName?_name (f : SlotFlag) : ofName? f.name = some f := by cases f <;> rfl

def ofJson? (j : Json) : Option SlotFlag := (partTag? j).bind ofName?

end SlotFlag

namespace Slot

def toJson (s : Slot) : Json := .obj [("type", s.type.toJson), ("flag", .str s.flag.name)]

def ofJson? (j : Json) : Option Slot := do
  let ms ← record? ["type", "flag"] j
  return {
    type := ← required? TypeRef.ofJson? "type" ms
    flag := ← withDefault? SlotFlag.ofJson? "flag" .required ms }

end Slot

namespace Shape

/-- A number that is not finite is written as null. -/
def numberToJson (x : Binary64) : Json := if x.isFinite then .float x else .null

def toMembers (s : Shape) : Members :=
  ("kind", .str s.name) ::
    match s with
    | booleanLiteral b => [("value", .bool b)]
    | numberLiteral x => [("value", numberToJson x)]
    | stringLiteral t => [("value", .str t)]
    | enum members => [("members", TypeRef.listToJson members)]
    | tuple slots => [("elements", .arr (slots.map Slot.toJson))]
    | array element => [("element", element.toJson)]
    | object members callable =>
      [("members", .arr (members.map Member.toJson)), ("callable", .bool callable)]
    | function signature => [("signature", signature.toJson)]
    | union types => [("types", TypeRef.listToJson types)]
    | intersection types => [("types", TypeRef.listToJson types)]
    | typeParameter constraint => [("constraint", (constraint.map TypeRef.toJson).getD .null)]
    | unsupported text => [("text", .str text)]
    | _ => []

def kinds : List String :=
  ["void", "undefined", "null", "booleanLiteral", "numberLiteral", "stringLiteral", "boolean",
    "number", "string", "enum", "tuple", "array", "object", "function", "any", "unknown", "union",
    "intersection", "typeParameter", "unsupported"]

def ofMembers? (form : KindForm) (ms : Members) : Option Shape := do
  let ids? := list? TypeRef.ofJson?
  match ← kind? form kinds ms with
  | "void" => return void
  | "undefined" => return undefined
  | "null" => return null
  | "booleanLiteral" => return booleanLiteral (← required? bool? "value" (← distinct? ["value"] ms))
  | "numberLiteral" =>
    return numberLiteral (← required? float? "value" (← distinct? ["value"] ms))
  | "stringLiteral" =>
    return stringLiteral (← required? string? "value" (← distinct? ["value"] ms))
  | "boolean" => return boolean
  | "number" => return number
  | "string" => return string
  | "enum" => return enum (← required? ids? "members" (← distinct? ["members"] ms))
  | "tuple" =>
    return tuple (← required? (list? Slot.ofJson?) "elements" (← distinct? ["elements"] ms))
  | "array" => return array (← required? TypeRef.ofJson? "element" (← distinct? ["element"] ms))
  | "object" =>
    let ms ← distinct? ["members", "callable"] ms
    return object (← withDefault? (list? Member.ofJson?) "members" [] ms)
      (← withDefault? bool? "callable" false ms)
  | "function" =>
    let ms ← distinct? ["signature"] ms
    return function (← required? (Signature.ofJson? .nameOrPlace) "signature" ms)
  | "any" => return any
  | "unknown" => return unknown
  | "union" => return union (← required? ids? "types" (← distinct? ["types"] ms))
  | "intersection" => return intersection (← required? ids? "types" (← distinct? ["types"] ms))
  | "typeParameter" =>
    return typeParameter (← optional? TypeRef.ofJson? "constraint" (← distinct? ["constraint"] ms))
  | "unsupported" => return unsupported (← required? string? "text" (← distinct? ["text"] ms))
  | _ => none

end Shape

namespace Descriptor

def toJson (d : Descriptor) : Json :=
  .obj (d.shape.toMembers ++ field? .str "name" d.name ++
    listField TypeRef.toJson "typeArguments" d.typeArguments ++ field? .str "doc" d.doc)

/-- A descriptor is taken as a whole, so its shape may give the place of its kind. -/
def ofJson? (j : Json) : Option Descriptor := do
  let ms ← record? ["name", "typeArguments", "doc"] j
  return {
    shape := ← Shape.ofMembers? .nameOrPlace ms
    name := ← optional? string? "name" ms
    typeArguments := ← withDefault? (list? TypeRef.ofJson?) "typeArguments" [] ms
    doc := ← optional? string? "doc" ms }

end Descriptor

namespace Arena

def toJson (a : Arena) : Json := .obj [("types", .arr (a.types.map Descriptor.toJson))]

def ofJson? (j : Json) : Option Arena := do
  let ms ← record? ["types"] j
  return ⟨← required? (list? Descriptor.ofJson?) "types" ms⟩

end Arena

end ToolCatalog
